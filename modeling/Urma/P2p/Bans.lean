import Mathlib.Data.List.Induction
import Urma.P2p.PoolSteps

/-!
# Banned addresses

In every state of the pool its lists are bounded and without duplicates, and discovery knows no
address of a banned IP. A connected peer has a banned IP only if it was connected already when
another one of the same host was banned, or if its dial was in flight then.
-/

namespace Urma.P2p

open Chain Lib Urma.Runtime Stateful

/-! ## What no operation of discovery changes -/

namespace Discovery

variable {discovery : Discovery}

theorem offerFront_banned (address : SocketAddr) :
    (discovery.offerFront address).banned = discovery.banned := by
  rw [offerFront]
  split <;> rfl

theorem offerGossip_banned (address : SocketAddr) :
    (discovery.offerGossip address).banned = discovery.banned := by
  rw [offerGossip]
  split <;> rfl

theorem offerSeeded_banned (addresses : List SocketAddr) :
    (discovery.offerSeeded addresses).banned = discovery.banned := by
  rw [offerSeeded]
  induction addresses.reverse generalizing discovery with
  | nil => rfl
  | cons address addresses ih =>
      rw [List.foldl_cons, ih]
      exact offerFront_banned address

theorem readmit_banned (addresses : List SocketAddr) :
    (discovery.readmit addresses).banned = discovery.banned :=
  offerSeeded_banned addresses

theorem droughtWarns_banned (now : ℕ) :
    (discovery.droughtWarns now).2.banned = discovery.banned := by
  rw [droughtWarns]
  split
  · rfl
  · split
    · rfl
    · split <;> rfl

theorem dropped_banned (address : SocketAddr) (now : ℕ) :
    (discovery.dropped address now).banned = discovery.banned := by
  rw [dropped]
  split <;> rfl

theorem mem_banned_ban {ip other : IpAddr} :
    other ∈ (discovery.ban ip).banned ↔ other = ip ∨ other ∈ discovery.banned :=
  List.mem_insert_iff

end Discovery

/-! ## The pool -/

variable {client : Client SocketAddr} {pool : Pool}

/-- **What always holds of a pool.** -/
structure Pool.Orderly (client : Client SocketAddr) (pool : Pool) : Prop where
  discovery : pool.discovery.Orderly
  dialing : pool.dialing.Nodup
  connected : (pool.connected.map Peer.address).Nodup
  bounded : pool.connected.length ≤ target client

/-- No connected peer has a banned IP. -/
def Pool.Shuns (pool : Pool) : Prop :=
  ∀ peer ∈ pool.connected, peer.address.ip ∉ pool.discovery.banned

/-- A step that brings no banned IP: a peer that is connected has none, and a peer is banned only if
no other one of the same host is connected. -/
def PoolStep.Careful (client : Client SocketAddr) (pool : Pool) : PoolStep → Prop
  | .arrived which (.connected _ _ _) _ => ∀ address, pool.dialing[which]? = some address →
      pool.connected.length < target client → (∀ peer ∈ pool.connected, peer.address ≠ address) →
        address.ip ∉ pool.discovery.banned
  | .banned index => ∀ peer, pool.connected[index]? = some peer →
      ∀ other ∈ pool.connected.eraseIdx index, other.address.ip ≠ peer.address.ip
  | _ => True

theorem Pool.orderly_new (client : Client SocketAddr) (book : PeerBook) (ipv6Routable : Bool) :
    (Pool.new client book ipv6Routable).Orderly client where
  discovery := by
    show Discovery.Orderly (if _ then _ else _)
    split
    · exact Discovery.orderly_new.unreachableV6
    · exact Discovery.orderly_new
  dialing := List.nodup_nil
  connected := List.nodup_nil
  bounded := Nat.zero_le _

theorem Pool.shuns_new (client : Client SocketAddr) (book : PeerBook) (ipv6Routable : Bool) :
    (Pool.new client book ipv6Routable).Shuns :=
  fun _ hpeer => absurd hpeer List.not_mem_nil

/-! ### Connecting -/

/-- A peer that finished dialing is held if there is room and it is not held yet. -/
theorem finish_cases (client : Client SocketAddr) (connected : List (Peer SocketAddr))
    (peer : Peer SocketAddr) :
    (P2p.finish client connected peer = connected ∧
      ¬ (connected.length < target client ∧ ∀ held ∈ connected, held.address ≠ peer.address)) ∨
    ((P2p.finish client connected peer).Perm (peer :: connected) ∧
      connected.length < target client ∧ ∀ held ∈ connected, held.address ≠ peer.address) := by
  rw [P2p.finish]
  split
  · next hfull =>
      refine Or.inl ⟨rfl, fun ⟨hroom, hfresh⟩ => ?_⟩
      rcases hfull with hfull | hheld
      · omega
      · obtain ⟨held, hmem, haddress⟩ := List.any_eq_true.mp hheld
        exact hfresh held hmem (of_decide_eq_true haddress)
  · next hroom =>
      rw [not_or, not_le, List.any_eq_true] at hroom
      refine Or.inr ⟨?_, hroom.1, fun held hmem haddress =>
        hroom.2 ⟨held, hmem, decide_eq_true haddress⟩⟩
      exact (List.mergeSort_perm _ _).trans (@List.perm_append_comm _ connected [peer])

/-- The addresses of peers that were talked to. -/
theorem talk_addresses (index : ℕ) (left : Peer SocketAddr → Peer SocketAddr) :
    (pool.talk index left).connected.map Peer.address = pool.connected.map Peer.address := by
  apply List.ext_getElem?
  intro place
  rw [Pool.talk, List.getElem?_map, List.getElem?_modify, List.getElem?_map]
  cases pool.connected[place]? with
  | none => rfl
  | some peer =>
      show some (Peer.address (if index = place then _ else _)) = _
      split <;> rfl

/-- A pool shuns banned IPs by the addresses of its peers. -/
theorem shuns_iff : pool.Shuns ↔
    ∀ address ∈ pool.connected.map Peer.address, address.ip ∉ pool.discovery.banned := by
  constructor
  · intro h address haddress
    obtain ⟨peer, hpeer, rfl⟩ := List.mem_map.mp haddress
    exact h peer hpeer
  · intro h peer hpeer
    exact h peer.address (List.mem_map_of_mem hpeer)

/-! ### Steps -/

/-- **Every step keeps the pool in order.** -/
theorem Pool.Orderly.apply (h : pool.Orderly client) (step : PoolStep) :
    (step.apply client pool).Orderly client := by
  cases step with
  | seeded now => exact ⟨h.discovery.markSeeded, h.dialing, h.connected, h.bounded⟩
  | readmitted addresses => exact ⟨h.discovery.readmit, h.dialing, h.connected, h.bounded⟩
  | offered address => exact ⟨h.discovery.offerGossip, h.dialing, h.connected, h.bounded⟩
  | looked now => exact ⟨h.discovery.droughtWarns, h.dialing, h.connected, h.bounded⟩
  | handed now spawned =>
      rw [PoolStep.apply]
      split
      · have hhands := @Discovery.hands_next _ now h.discovery
        split
        · next discovery hnext =>
            rw [hnext] at hhands
            exact ⟨hhands.orderly, h.dialing, h.connected, h.bounded⟩
        · next address discovery hnext =>
            rw [hnext] at hhands
            rw [Pool.dial]
            split
            · exact ⟨hhands.orderly, h.dialing, h.connected, h.bounded⟩
            · next hfresh =>
                rw [Bool.or_eq_true, not_or, Pool.held, Bool.or_eq_true, not_or,
                  List.contains_eq_mem, decide_eq_true_eq] at hfresh
                refine ⟨hhands.orderly, ?_, h.connected, h.bounded⟩
                have hfresh' : address ∉ pool.dialing := hfresh.1.1
                exact List.nodup_append.mpr ⟨h.dialing, List.nodup_singleton _,
                  fun other hother last hlast heq => hfresh' (by
                    rw [← List.mem_singleton.mp hlast, ← heq]
                    exact hother)⟩
      · exact h
  | arrived which outcome clock =>
      rw [PoolStep.apply]
      split
      · exact h
      · next address _ =>
          have herase : (pool.dialing.erase address).Nodup := h.dialing.erase address
          unfold Pool.arrive Pool.finish
          split
          · next services startHeight socket =>
              rcases finish_cases client pool.connected
                (Peer.connect address services startHeight socket) with
                  ⟨heq, _⟩ | ⟨hperm, hroom, hfresh⟩
              · refine ⟨h.discovery, herase, ?_, ?_⟩
                · show ((P2p.finish client pool.connected _).map Peer.address).Nodup
                  rw [heq]
                  exact h.connected
                · show (P2p.finish client pool.connected _).length ≤ _
                  rw [heq]
                  exact h.bounded
              · refine ⟨h.discovery, herase, ?_, ?_⟩
                · refine (hperm.map Peer.address).nodup_iff.mpr
                    (List.nodup_cons.mpr ⟨?_, h.connected⟩)
                  intro hmem
                  obtain ⟨held, hheld, haddress⟩ := List.mem_map.mp hmem
                  exact hfresh held hheld haddress
                · show (P2p.finish client pool.connected _).length ≤ _
                  rw [hperm.length_eq, List.length_cons]
                  exact hroom
          · split
            · exact ⟨h.discovery.unreachableV6, herase, h.connected, h.bounded⟩
            · exact ⟨h.discovery, herase, h.connected, h.bounded⟩
          · exact ⟨h.discovery, herase, h.connected, h.bounded⟩
  | warmed => exact ⟨h.discovery, h.dialing, h.connected, h.bounded⟩
  | talked index left =>
      refine ⟨h.discovery, h.dialing, ?_, ?_⟩
      · rw [PoolStep.apply, talk_addresses]
        exact h.connected
      · show (pool.connected.modify index _).length ≤ _
        rw [List.length_modify]
        exact h.bounded
  | dropped index now =>
      rw [PoolStep.apply, Pool.dropPeer]
      split
      · exact h
      · have hsublist := List.eraseIdx_sublist pool.connected index
        exact ⟨h.discovery.dropped, h.dialing, (hsublist.map Peer.address).nodup h.connected,
          hsublist.length_le.trans h.bounded⟩
  | banned index =>
      rw [PoolStep.apply, Pool.banPeer]
      split
      · exact h
      · have hsublist := List.eraseIdx_sublist pool.connected index
        exact ⟨h.discovery.ban, h.dialing, (hsublist.map Peer.address).nodup h.connected,
          hsublist.length_le.trans h.bounded⟩

/-- A step that connects nobody and bans nobody. -/
theorem shuns_of_same {later : Pool} (h : pool.Shuns)
    (hconnected : ∀ address ∈ later.connected.map Peer.address,
      address ∈ pool.connected.map Peer.address)
    (hbanned : later.discovery.banned = pool.discovery.banned) : later.Shuns := by
  rw [shuns_iff] at h ⊢
  intro address haddress
  rw [hbanned]
  exact h address (hconnected address haddress)

/-- **A step brings a banned IP** unless it is careful. -/
theorem shuns_apply_iff (h : pool.Orderly client) (hshuns : pool.Shuns) (step : PoolStep) :
    (step.apply client pool).Shuns ↔ step.Careful client pool := by
  cases step with
  | seeded now => exact ⟨fun _ => trivial, fun _ => hshuns⟩
  | readmitted addresses =>
      exact ⟨fun _ => trivial, fun _ => shuns_of_same hshuns (fun _ haddress => haddress)
        (Discovery.readmit_banned addresses)⟩
  | offered address =>
      exact ⟨fun _ => trivial, fun _ => shuns_of_same hshuns (fun _ haddress => haddress)
        (Discovery.offerGossip_banned address)⟩
  | looked now =>
      exact ⟨fun _ => trivial, fun _ => shuns_of_same hshuns (fun _ haddress => haddress)
        (Discovery.droughtWarns_banned now)⟩
  | handed now spawned =>
      refine ⟨fun _ => trivial, fun _ => ?_⟩
      rw [PoolStep.apply]
      split
      · have hhands := @Discovery.hands_next _ now h.discovery
        split
        · next discovery hnext =>
            rw [hnext] at hhands
            exact shuns_of_same hshuns (fun _ haddress => haddress) hhands.banned
        · next address discovery hnext =>
            rw [hnext] at hhands
            rw [Pool.dial]
            split <;> exact shuns_of_same hshuns (fun _ haddress => haddress) hhands.banned
      · exact hshuns
  | arrived which outcome clock =>
      rw [PoolStep.apply]
      cases outcome with
      | connected services startHeight socket =>
          cases hdialing : pool.dialing[which]? with
          | none =>
              refine ⟨fun _ address haddress => ?_, fun _ => hshuns⟩
              rw [hdialing] at haddress
              cases haddress
          | some address =>
              rcases finish_cases client pool.connected
                (Peer.connect address services startHeight socket) with
                  ⟨heq, hno⟩ | ⟨hperm, hroom, hfresh⟩
              · refine ⟨fun _ other hother hroom hfresh => ?_, fun _ => ?_⟩
                · rw [hdialing, Option.some.injEq] at hother
                  rw [← hother] at hfresh
                  exact absurd ⟨hroom, hfresh⟩ hno
                · show ∀ peer ∈ P2p.finish client pool.connected _, _
                  rw [heq]
                  exact hshuns
              · constructor
                · intro hlater other hother _ _
                  rw [hdialing, Option.some.injEq] at hother
                  rw [← hother]
                  exact hlater _ (hperm.mem_iff.mpr List.mem_cons_self)
                · intro hcareful peer hpeer
                  rcases List.mem_cons.mp (hperm.mem_iff.mp hpeer) with heq | hpeer
                  · rw [heq]
                    exact hcareful address hdialing hroom hfresh
                  · exact hshuns peer hpeer
      | unreachable =>
          refine ⟨fun _ => trivial, fun _ => ?_⟩
          split
          · exact hshuns
          · rw [Pool.arrive, Pool.finish]
            split
            · exact hshuns
            · exact hshuns
      | failed cause =>
          refine ⟨fun _ => trivial, fun _ => ?_⟩
          split
          · exact hshuns
          · exact hshuns
  | warmed => exact ⟨fun _ => trivial, fun _ => hshuns⟩
  | talked index left =>
      refine ⟨fun _ => trivial, fun _ => shuns_of_same hshuns ?_ rfl⟩
      intro address haddress
      rw [PoolStep.apply, talk_addresses] at haddress
      exact haddress
  | dropped index now =>
      refine ⟨fun _ => trivial, fun _ => ?_⟩
      rw [PoolStep.apply, Pool.dropPeer]
      split
      · exact hshuns
      · next peer _ =>
          refine shuns_of_same hshuns ?_ (Discovery.dropped_banned peer.address now)
          exact fun _ haddress => ((List.eraseIdx_sublist _ index).map Peer.address).subset haddress
  | banned index =>
      rw [PoolStep.apply, Pool.banPeer]
      cases hpeer : pool.connected[index]? with
      | none =>
          refine ⟨fun _ peer hsome => ?_, fun _ => hshuns⟩
          rw [hpeer] at hsome
          cases hsome
      | some peer =>
          constructor
          · intro hlater found hfound other hother heq
            rw [hpeer, Option.some.injEq] at hfound
            refine hlater other hother (Discovery.mem_banned_ban.mpr (Or.inl ?_))
            rw [heq, hfound]
          · intro hcareful other hother hbanned
            rcases Discovery.mem_banned_ban.mp hbanned with heq | hbanned
            · exact hcareful peer hpeer other hother heq
            · exact hshuns other ((List.eraseIdx_sublist _ index).subset hother) hbanned

/-- What is banned stays banned. -/
theorem mem_banned_apply {ip : IpAddr} (h : pool.Orderly client) (step : PoolStep)
    (hip : ip ∈ pool.discovery.banned) : ip ∈ (step.apply client pool).discovery.banned := by
  cases step with
  | seeded now => exact hip
  | readmitted addresses =>
      show ip ∈ (pool.discovery.readmit addresses).banned
      rw [Discovery.readmit_banned]
      exact hip
  | offered address =>
      show ip ∈ (pool.discovery.offerGossip address).banned
      rw [Discovery.offerGossip_banned]
      exact hip
  | looked now =>
      show ip ∈ (pool.discovery.droughtWarns now).2.banned
      rw [Discovery.droughtWarns_banned]
      exact hip
  | handed now spawned =>
      rw [PoolStep.apply]
      split
      · have hhands := @Discovery.hands_next _ now h.discovery
        rw [← hhands.banned] at hip
        split
        · next discovery hnext =>
            rw [hnext] at hip
            exact hip
        · next address discovery hnext =>
            rw [hnext] at hip
            rw [Pool.dial]
            split <;> exact hip
      · exact hip
  | arrived which outcome clock =>
      rw [PoolStep.apply]
      split
      · exact hip
      · unfold Pool.arrive Pool.finish
        split
        · exact hip
        · split <;> exact hip
        · exact hip
  | warmed => exact hip
  | talked index left => exact hip
  | dropped index now =>
      rw [PoolStep.apply, Pool.dropPeer]
      split
      · exact hip
      · next peer _ =>
          show ip ∈ (pool.discovery.dropped peer.address now).banned
          rw [Discovery.dropped_banned]
          exact hip
  | banned index =>
      rw [PoolStep.apply, Pool.banPeer]
      split
      · exact hip
      · exact Discovery.mem_banned_ban.mpr (Or.inr hip)

/-! ### Runs -/

/-- **Every run keeps the pool in order.** -/
theorem Pool.Orderly.steps (h : pool.Orderly client) (steps : List PoolStep) :
    (pool.steps client steps).Orderly client := by
  induction steps generalizing pool with
  | nil => exact h
  | cons step steps ih => exact ih (h.apply step)

/-- What is banned stays banned over a run. -/
theorem mem_banned_steps {ip : IpAddr} (h : pool.Orderly client) (steps : List PoolStep)
    (hip : ip ∈ pool.discovery.banned) : ip ∈ (pool.steps client steps).discovery.banned := by
  induction steps generalizing pool with
  | nil => exact hip
  | cons step steps ih => exact ih (h.apply step) (mem_banned_apply h step hip)

/-- The pool that some steps reach from the start. -/
def Pool.reached (client : Client SocketAddr) (book : PeerBook) (ipv6Routable : Bool)
    (steps : List PoolStep) : Pool :=
  (Pool.new client book ipv6Routable).steps client steps

/-- What operations reach, steps reach. -/
theorem reached_operations (client : Client SocketAddr) (book : PeerBook) (ipv6Routable : Bool)
    (operations : List PoolOperation) :
    ∃ steps, operations.foldl (PoolOperation.perform client) (Pool.new client book ipv6Routable) =
      Pool.reached client book ipv6Routable steps := by
  have hleads : ∀ pool : Pool,
      pool.Leads client (operations.foldl (PoolOperation.perform client) pool) := by
    induction operations with
    | nil => exact Pool.Leads.refl
    | cons operation operations ih => exact fun pool => (leads_perform operation).trans (ih _)
  obtain ⟨steps, hsteps⟩ := hleads (Pool.new client book ipv6Routable)
  exact ⟨steps, hsteps.symm⟩

theorem orderly_reached (client : Client SocketAddr) (book : PeerBook) (ipv6Routable : Bool)
    (steps : List PoolStep) : (Pool.reached client book ipv6Routable steps).Orderly client :=
  (Pool.orderly_new client book ipv6Routable).steps steps

theorem reached_snoc (client : Client SocketAddr) (book : PeerBook) (ipv6Routable : Bool)
    (steps : List PoolStep) (step : PoolStep) :
    Pool.reached client book ipv6Routable (steps ++ [step]) =
      step.apply client (Pool.reached client book ipv6Routable steps) :=
  Pool.steps_append steps [step]

/-- **Bans.** In every state the lists of the pool are bounded and without duplicates, no banned IP
is in the pool or waits to be redialed, and none is handed out; what was banned stays banned. No
peer with a banned IP is connected in any state of a run if and only if all its steps are careful. -/
theorem bans_hold_iff_careful (client : Client SocketAddr) (book : PeerBook)
    (ipv6Routable : Bool) :
    (∀ steps, (Pool.reached client book ipv6Routable steps).Orderly client ∧
      ∀ now address, ((Pool.reached client book ipv6Routable steps).discovery.next now).1 =
        .address address →
          address.ip ∉ (Pool.reached client book ipv6Routable steps).discovery.banned) ∧
    (∀ steps index later peer,
      (Pool.reached client book ipv6Routable steps).connected[index]? = some peer →
        peer.address.ip ∈
          (Pool.reached client book ipv6Routable
            (steps ++ .banned index :: later)).discovery.banned) ∧
    ∀ steps, (∀ before, before <+: steps → (Pool.reached client book ipv6Routable before).Shuns) ↔
      ∀ before step, before ++ [step] <+: steps →
        step.Careful client (Pool.reached client book ipv6Routable before) := by
  have horderly := orderly_reached client book ipv6Routable
  refine ⟨?_, ?_, ?_⟩
  · intro steps
    exact ⟨horderly steps, fun now address hnext =>
      (Discovery.hands_next (horderly steps).discovery).allowed address hnext⟩
  · intro steps index later peer hpeer
    have hbanned : peer.address.ip ∈
        (Pool.reached client book ipv6Routable (steps ++ [.banned index])).discovery.banned := by
      rw [reached_snoc, PoolStep.apply, Pool.banPeer, hpeer]
      exact Discovery.mem_banned_ban.mpr (Or.inl rfl)
    rw [List.append_cons, Pool.reached, Pool.steps_append]
    exact mem_banned_steps (horderly _) later hbanned
  · intro steps
    constructor
    · intro hshuns before step hprefix
      have hbefore := hshuns before ((List.prefix_append before [step]).trans hprefix)
      have hlater := hshuns (before ++ [step]) hprefix
      rw [reached_snoc] at hlater
      exact (shuns_apply_iff (horderly before) hbefore step).mp hlater
    · intro hcareful before
      induction before using List.reverseRecOn with
      | nil => exact fun _ => Pool.shuns_new client book ipv6Routable
      | append_singleton before step ih =>
          intro hprefix
          have hbefore := ih ((List.prefix_append before [step]).trans hprefix)
          rw [reached_snoc]
          exact (shuns_apply_iff (horderly before) hbefore step).mpr (hcareful before step hprefix)

/-! ### A dial in flight -/

/-- One routable address that is learned is offered. -/
theorem absorbGossip_single {gossiped : Gossiped} {now : ℕ} (hpinned : client.pinned = [])
    (hroutable : routable gossiped.address = true) :
    pool.absorbGossip client [gossiped] (.ok now) =
      { pool with discovery := pool.discovery.offerGossip gossiped.address } := by
  rw [Pool.absorbGossip, hpinned, List.filter_singleton, hroutable]
  show pool.offerAll (([gossiped].mergeSort _).map Gossiped.address) = _
  rw [List.mergeSort_singleton]
  rfl

/-- The first time that peers are connected, the slower ones get a little longer. -/
theorem topUp_warms {settled : Pool} {dials : Pool.Dials}
    (hsettled : ((pool.settle client dials.before).launch client dials.launches).settle client
      dials.patience = settled)
    (hwarmed : settled.warmed = false) (hconnected : settled.connected.isEmpty = false) :
    pool.topUp client dials =
      ({ settled with warmed := true } : Pool).settle client dials.grace := by
  subst hsettled
  exact if_pos (by rw [hwarmed, hconnected]; rfl)

/-- The first peer is held. -/
theorem finish_nil {peer : Peer SocketAddr} (hroom : 0 < target client) :
    P2p.finish client [] peer = [peer] := by
  rw [P2p.finish, if_neg (by simpa using Nat.ne_of_gt hroom)]
  exact List.mergeSort_singleton peer

namespace Sample

/-- Two ports of one host. -/
def firstPort : SocketAddr := .v4 #v[8, 8, 4, 4] 19335

def secondPort : SocketAddr := .v4 #v[8, 8, 4, 4] 19336

/-- A client whose peers are not pinned. -/
def poolClient : Client SocketAddr where
  chain := .bitcoinRegtest
  pinned := []
  pow := .standard
  consensus := .standard
  blocks :=
    { deserialize := fun _ => none
      LitecoinTransaction := Unit
      litecoinDecode := fun _ => none
      litecoinSerialize := fun _ => []
      hasMwTx := fun _ => false
      isInputEmpty := fun _ => false
      clearHogEx := fun tx => tx
      deserializeBlock := fun _ => none
      deserializeHeader := fun _ => none
      varIntBytes := fun _ => none
      transactionBytes := fun _ => none
      LitecoinHeader := Unit
      litecoinHeader := ⟨fun _ => none, fun _ => []⟩
      litecoinTransactions := ⟨fun _ => none, fun _ => []⟩
      litecoinVarInt := ⟨fun _ => none, fun _ => []⟩
      litecoinByte := ⟨fun _ => none, fun _ => []⟩
      MwebBlock := Unit
      mwebBlock := ⟨fun _ => none, fun _ => []⟩
      isHogEx := fun _ => false }
  addressText _ := ""
  hashText _ := ""
  errorText _ := ""

/-- A dial that succeeds. -/
def succeeds : Arrival where
  which := 0
  outcome := .connected 1 100 ⟨[], []⟩
  clock := .ok 1000
  launches := []

/-- Both ports are learned from gossip and dialed. The first one connects and is banned while the
second dial is in flight. -/
def crossing : List PoolOperation :=
  [.absorbGossip [⟨firstPort, 1000⟩] (.ok 1000), .absorbGossip [⟨secondPort, 1000⟩] (.ok 1000),
    .topUp ⟨[], [⟨0, true⟩, ⟨0, true⟩], [succeeds], []⟩, .banPeer 0,
    .topUp ⟨[succeeds], [], [], []⟩]

/-- Both ports are in the pool. -/
def learned : Pool where
  discovery := { Discovery.new with pool := [firstPort, secondPort] }
  book := ⟨[]⟩
  dialing := []
  warmed := false
  connected := []

/-- Both dials are in flight. -/
def dialing : Pool where
  discovery := { Discovery.new with tried := [secondPort, firstPort] }
  book := ⟨[]⟩
  dialing := [firstPort, secondPort]
  warmed := false
  connected := []

/-- The peer of a port. -/
def peerAt (address : SocketAddr) : Peer SocketAddr :=
  .connect address 1 100 ⟨[], []⟩

/-- The first port is connected. -/
def halfway : Pool where
  discovery := dialing.discovery
  book := dialing.book.record firstPort 1000
  dialing := [secondPort]
  warmed := true
  connected := [peerAt firstPort]

/-- The first port is banned. -/
def alone : Pool :=
  { halfway with discovery := dialing.discovery.ban firstPort.ip, connected := [] }

end Sample

/-- **A banned address comes back** when its dial was in flight. -/
theorem banned_address_returns :
    ∃ peer ∈ (Sample.crossing.foldl (PoolOperation.perform Sample.poolClient)
        (Pool.new Sample.poolClient ⟨[]⟩ true)).connected,
      peer.address = Sample.secondPort ∧
      peer.address.ip ∈ (Sample.crossing.foldl (PoolOperation.perform Sample.poolClient)
        (Pool.new Sample.poolClient ⟨[]⟩ true)).discovery.banned := by
  have hlearned : ((Pool.new Sample.poolClient ⟨[]⟩ true).absorbGossip Sample.poolClient
      [⟨Sample.firstPort, 1000⟩] (.ok 1000)).absorbGossip Sample.poolClient
        [⟨Sample.secondPort, 1000⟩] (.ok 1000) = Sample.learned := by
    rw [absorbGossip_single rfl (by decide), absorbGossip_single rfl (by decide)]
    rfl
  have hdialing : Sample.learned.launch Sample.poolClient [⟨0, true⟩, ⟨0, true⟩] =
      Sample.dialing := rfl
  have hroom : 0 < target Sample.poolClient := by decide
  have hhalfway : Sample.learned.topUp Sample.poolClient
      ⟨[], [⟨0, true⟩, ⟨0, true⟩], [Sample.succeeds], []⟩ = Sample.halfway := by
    have hsettled : (Sample.learned.launch Sample.poolClient [⟨0, true⟩, ⟨0, true⟩]).settle
        Sample.poolClient [Sample.succeeds] = { Sample.halfway with warmed := false } := by
      rw [hdialing]
      show ({ Sample.halfway with
        warmed := false
        connected := P2p.finish Sample.poolClient [] (Sample.peerAt Sample.firstPort) } : Pool) = _
      rw [finish_nil hroom]
      rfl
    rw [topUp_warms hsettled rfl rfl]
    rfl
  have halone : Sample.halfway.banPeer 0 = Sample.alone := rfl
  have hback : (Sample.alone.topUp Sample.poolClient ⟨[Sample.succeeds], [], [], []⟩).connected =
      [Sample.peerAt Sample.secondPort] := finish_nil hroom
  have hbanned : (Sample.alone.topUp Sample.poolClient ⟨[Sample.succeeds], [], [], []⟩).discovery =
      Sample.alone.discovery := rfl
  have hcrossing : Sample.crossing.foldl (PoolOperation.perform Sample.poolClient)
      (Pool.new Sample.poolClient ⟨[]⟩ true) =
        Sample.alone.topUp Sample.poolClient ⟨[Sample.succeeds], [], [], []⟩ := by
    rw [← halone, ← hhalfway, ← hlearned]
    rfl
  rw [hcrossing, hback, hbanned]
  exact ⟨_, List.mem_singleton_self _, rfl, by decide⟩

end Urma.P2p
