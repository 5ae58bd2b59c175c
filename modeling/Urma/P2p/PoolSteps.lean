import Urma.P2p.Pool

/-!
# Steps of the pool

Every operation of the pool is a sequence of small steps: addresses are offered, handed out, dialed
and connected, and peers are dropped and banned. What every step keeps holds in every state of every
run, in whatever order the operations come.
-/

namespace Urma.P2p

open Chain Lib Urma.Runtime Stateful

/-- A step of the pool. -/
inductive PoolStep where
  | seeded (now : ℕ)
  | readmitted (addresses : List SocketAddr)
  | offered (address : SocketAddr)
  | looked (now : ℕ)
  /-- A round of `launch`. -/
  | handed (now : ℕ) (spawned : Bool)
  /-- A dial in flight ends. -/
  | arrived (which : ℕ) (outcome : Dialed) (clock : Except P2pError ℕ)
  | warmed
  | talked (index : ℕ) (left : Peer SocketAddr → Peer SocketAddr)
  | dropped (index now : ℕ)
  | banned (index : ℕ)

variable (client : Client SocketAddr)

/-- What a step makes of a pool. -/
def PoolStep.apply (pool : Pool) : PoolStep → Pool
  | .seeded now => { pool with discovery := pool.discovery.markSeeded now }
  | .readmitted addresses => pool.readmit addresses
  | .offered address => { pool with discovery := pool.discovery.offerGossip address }
  | .looked now => { pool with discovery := (pool.discovery.droughtWarns now).2 }
  | .handed now spawned =>
      if pool.hasRoom client then
        match pool.discovery.next now with
        | (.exhausted, discovery) => { pool with discovery }
        | (.address address, discovery) => ({ pool with discovery } : Pool).dial address spawned
      else pool
  | .arrived which outcome clock =>
      match pool.dialing[which]? with
      | none => pool
      | some address => pool.arrive client address outcome clock
  | .warmed => { pool with warmed := true }
  | .talked index left => pool.talk index left
  | .dropped index now => pool.dropPeer index now
  | .banned index => pool.banPeer index

/-- The pool after some steps. -/
def Pool.steps (pool : Pool) (steps : List PoolStep) : Pool :=
  steps.foldl (PoolStep.apply client) pool

/-- Steps lead from one pool to another. -/
def Pool.Leads (pool later : Pool) : Prop :=
  ∃ steps, pool.steps client steps = later

variable {client} {pool middle later : Pool}

theorem Pool.steps_append (steps more : List PoolStep) :
    pool.steps client (steps ++ more) = (pool.steps client steps).steps client more :=
  List.foldl_append

theorem Pool.Leads.refl (pool : Pool) : pool.Leads client pool :=
  ⟨[], rfl⟩

theorem Pool.Leads.step (step : PoolStep) : pool.Leads client (step.apply client pool) :=
  ⟨[step], rfl⟩

theorem Pool.Leads.trans (h : pool.Leads client middle) (h' : middle.Leads client later) :
    pool.Leads client later := by
  obtain ⟨steps, rfl⟩ := h
  obtain ⟨more, rfl⟩ := h'
  exact ⟨steps ++ more, Pool.steps_append steps more⟩

/-! ## Operations are sequences of steps -/

theorem leads_offerAll (addresses : List SocketAddr) :
    pool.Leads client (pool.offerAll addresses) := by
  induction addresses generalizing pool with
  | nil => exact .refl pool
  | cons address addresses ih => exact (Pool.Leads.step (.offered address)).trans ih

theorem leads_collect (resolutions : List (Except P2pError (List SocketAddr))) :
    pool.Leads client (pool.collect resolutions) := by
  rw [Pool.collect]
  induction resolutions generalizing pool with
  | nil => exact .refl pool
  | cons resolution resolutions ih =>
      cases resolution with
      | ok addresses => exact (leads_offerAll (addresses.filter routable)).trans ih
      | error cause => exact ih

theorem leads_discover (seeds : Pool.Seeds) : pool.Leads client (pool.discover client seeds) := by
  refine (leads_collect seeds.resolutions).trans ?_
  rw [Pool.discover]
  dsimp only
  generalize pool.collect seeds.resolutions = pool
  split
  · exact .refl pool
  · refine (Pool.Leads.step (.seeded seeds.now)).trans ?_
    split
    · exact .step (.readmitted client.pinned)
    · refine (Pool.Leads.step (.readmitted seeds.fixed)).trans ?_
      refine (Pool.Leads.step (.readmitted pool.book.addresses)).trans ?_
      exact .step (.looked seeds.later)

theorem leads_absorbGossip (learned : List Gossiped) (now : Except P2pError ℕ) :
    pool.Leads client (pool.absorbGossip client learned now) := by
  unfold Pool.absorbGossip
  split
  · exact .refl pool
  · split
    · exact .refl pool
    · exact leads_offerAll _

theorem leads_launch (rounds : List Launch) : pool.Leads client (pool.launch client rounds) := by
  induction rounds generalizing pool with
  | nil => exact .refl pool
  | cons round rounds ih =>
      rw [Pool.launch]
      split
      · next hroom =>
          have hstep := @Pool.Leads.step client pool
            (.handed round.now round.spawned)
          rw [PoolStep.apply, if_pos hroom] at hstep
          split
          · next discovery hnext =>
              rw [hnext] at hstep
              exact hstep
          · next address discovery hnext =>
              rw [hnext] at hstep
              dsimp only at hstep ⊢
              split
              · exact hstep.trans ih
              · exact hstep
      · exact .refl pool

theorem leads_settle (arrivals : List Arrival) :
    pool.Leads client (pool.settle client arrivals) := by
  induction arrivals generalizing pool with
  | nil => exact .refl pool
  | cons arrival arrivals ih =>
      rw [Pool.settle]
      have hstep := @Pool.Leads.step client pool
        (.arrived arrival.which arrival.outcome arrival.clock)
      rw [PoolStep.apply] at hstep
      cases hdialing : pool.dialing[arrival.which]? with
      | none => exact .refl pool
      | some address =>
          rw [hdialing] at hstep
          exact (hstep.trans (leads_launch arrival.launches)).trans ih

theorem leads_topUp (dials : Pool.Dials) : pool.Leads client (pool.topUp client dials) := by
  rw [Pool.topUp]
  refine (leads_settle dials.before).trans ?_
  refine (leads_launch dials.launches).trans ?_
  refine (leads_settle dials.patience).trans ?_
  split
  · exact (Pool.Leads.step .warmed).trans (leads_settle dials.grace)
  · exact .refl _

theorem leads_pollBelow (instants : ℕ → ℕ) (below : ℕ) :
    pool.Leads client (pool.pollBelow client instants below) := by
  induction below generalizing pool with
  | zero => exact .refl pool
  | succ index ih =>
      rw [Pool.pollBelow]
      split
      · exact ih
      · next peer _ =>
          refine (Pool.Leads.step
            (.talked index fun peer => (outcome (poll client) peer).2)).trans ?_
          dsimp only
          split
          · exact ih
          · exact (Pool.Leads.step (.dropped index (instants index))).trans ih

/-- **Every operation** is a sequence of steps. -/
theorem leads_perform (operation : PoolOperation) :
    pool.Leads client (operation.perform client pool) := by
  cases operation with
  | discover seeds => exact leads_discover seeds
  | absorbGossip learned now => exact leads_absorbGossip learned now
  | topUp dials => exact leads_topUp dials
  | pollIdle instants => exact leads_pollBelow instants _
  | talk index left => exact .step (.talked index left)
  | dropPeer index now => exact .step (.dropped index now)
  | banPeer index => exact .step (.banned index)

end Urma.P2p
