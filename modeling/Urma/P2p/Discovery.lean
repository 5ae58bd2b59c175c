import Mathlib.Data.List.Nodup
import Urma.P2p.Addr

/-!
# Discovery

`urma_runtime::p2p::discovery`: the addresses that a peer pool may dial. Addresses are banned by
their IP, and everything else is remembered by socket address. Instants are in nanoseconds.
-/

namespace Urma.P2p

/-- `P2P_ADDRESS_POOL`. -/
def addressPool : ℕ := 1000

/-- Seconds as a `Duration`. -/
def seconds (count : ℕ) : ℕ := count * 1000000000

/-- `P2P_REDIAL_BACKOFF_SECS`. -/
def redialBackoff : ℕ := seconds 30

/-- `P2P_SEED_INTERVAL_SECS`. -/
def seedInterval : ℕ := seconds 60

/-- `Next`. -/
inductive Next where
  | address (address : SocketAddr)
  | exhausted
  deriving DecidableEq

/-- `Seeded`. -/
inductive Seeded where
  | never
  | at (when : ℕ)
  deriving DecidableEq

/-- `Drought`. -/
inductive Drought where
  | clear
  | since (start : ℕ)
  deriving DecidableEq

/-- `Discovery`; the sets are lists of their elements. -/
structure Discovery where
  pool : List SocketAddr
  tried : List SocketAddr
  banned : List IpAddr
  redial : List (ℕ × SocketAddr)
  skipV6 : Bool
  seeded : Seeded
  drought : Drought
  deriving DecidableEq

namespace Discovery

/-- `Discovery::new`. -/
def new : Discovery where
  pool := []
  tried := []
  banned := []
  redial := []
  skipV6 := false
  seeded := .never
  drought := .clear

variable (discovery : Discovery)

/-- `Discovery::seeding_due`. -/
def seedingDue (now : ℕ) : Bool :=
  if !discovery.pool.isEmpty then false
  else
    match discovery.seeded with
    | .never => true
    | .at when => seedInterval ≤ now - when

/-- `Discovery::mark_seeded`. -/
def markSeeded (now : ℕ) : Discovery :=
  { discovery with seeded := .at now }

/-- `Discovery::drought_warns`. -/
def droughtWarns (now : ℕ) : Bool × Discovery :=
  if !discovery.pool.isEmpty then (false, { discovery with drought := .clear })
  else
    match discovery.drought with
    | .clear => (false, { discovery with drought := .since now })
    | .since start =>
        if seedInterval ≤ now - start then (true, { discovery with drought := .since now })
        else (false, discovery)

/-- `Discovery::admissible`. -/
def admissible (address : SocketAddr) : Bool :=
  !(discovery.skipV6 && address.isIpv6) && !discovery.tried.contains address &&
    !discovery.banned.contains address.ip && !discovery.pool.contains address &&
      discovery.pool.length < addressPool

/-- One round of the loop of `Discovery::offer_seeded`. -/
def offerFront (discovery : Discovery) (address : SocketAddr) : Discovery :=
  if discovery.admissible address then { discovery with pool := address :: discovery.pool }
  else discovery

/-- `Discovery::offer_seeded`. -/
def offerSeeded (addresses : List SocketAddr) : Discovery :=
  addresses.reverse.foldl offerFront discovery

/-- `Discovery::readmit`. -/
def readmit (addresses : List SocketAddr) : Discovery :=
  let tried := discovery.tried.filter fun address => !addresses.contains address
  ({ discovery with tried } : Discovery).offerSeeded addresses

/-- `Discovery::offer_gossip`. -/
def offerGossip (address : SocketAddr) : Discovery :=
  if discovery.admissible address then { discovery with pool := discovery.pool ++ [address] }
  else discovery

/-- `Discovery::dropped`. -/
def dropped (address : SocketAddr) (now : ℕ) : Discovery :=
  if discovery.banned.contains address.ip ||
      discovery.redial.any (fun entry => entry.2 = address) then
    discovery
  else { discovery with redial := discovery.redial ++ [(now + redialBackoff, address)] }

/-- The end of `Discovery::next`: an address of the pool. -/
def nextPooled : Next × Discovery :=
  match discovery.pool with
  | [] => (.exhausted, discovery)
  | address :: pool =>
      (.address address, { discovery with pool, tried := discovery.tried.insert address })

/-- `Discovery::next`: the first address to redial, if it is due, and otherwise one of the pool. -/
def next (now : ℕ) : Next × Discovery :=
  match discovery.redial with
  | [] => discovery.nextPooled
  | (due, address) :: redial =>
      if due ≤ now then
        if !discovery.banned.contains address.ip && !(discovery.skipV6 && address.isIpv6) then
          (.address address, { discovery with redial, tried := discovery.tried.insert address })
        else ({ discovery with redial } : Discovery).nextPooled
      else discovery.nextPooled

/-- `Discovery::ban`. -/
def ban (ip : IpAddr) : Discovery :=
  { discovery with
    banned := discovery.banned.insert ip
    pool := discovery.pool.filter fun address => address.ip ≠ ip
    redial := discovery.redial.filter fun entry => entry.2.ip ≠ ip }

/-- `Discovery::unreachable_v6`. -/
def unreachableV6 : Discovery :=
  { discovery with
    skipV6 := true
    pool := discovery.pool.filter fun address => !address.isIpv6
    redial := discovery.redial.filter fun entry => !entry.2.isIpv6 }

/-! ## Well-formed discoveries -/

/-- **What always holds of a discovery**: the pool is bounded and without duplicates, no address is
waiting to be redialed twice, and no banned IP is anywhere. -/
structure Orderly (discovery : Discovery) : Prop where
  bounded : discovery.pool.length ≤ addressPool
  pool : discovery.pool.Nodup
  redial : (discovery.redial.map Prod.snd).Nodup
  pool_banned : ∀ address ∈ discovery.pool, address.ip ∉ discovery.banned
  redial_banned : ∀ entry ∈ discovery.redial, entry.2.ip ∉ discovery.banned

variable {discovery}

theorem orderly_new : Orderly new where
  bounded := Nat.zero_le _
  pool := List.nodup_nil
  redial := List.nodup_nil
  pool_banned _ h := absurd h List.not_mem_nil
  redial_banned _ h := absurd h List.not_mem_nil

/-- What is admissible is new, not banned, and there is room for it. -/
theorem admissible_eq_true {address : SocketAddr} (h : discovery.admissible address = true) :
    address.ip ∉ discovery.banned ∧ address ∉ discovery.pool ∧
      discovery.pool.length < addressPool := by
  simp only [admissible, Bool.and_eq_true, Bool.not_eq_true', decide_eq_true_eq,
    List.contains_eq_mem, decide_eq_false_iff_not] at h
  exact ⟨h.1.1.2, h.1.2, h.2⟩

/-- An admissible address is taken in, at either end. -/
theorem Orderly.takeIn {address : SocketAddr} {pool : List SocketAddr} (h : discovery.Orderly)
    (hadmissible : discovery.admissible address = true)
    (hpool : pool.Perm (address :: discovery.pool)) : Orderly { discovery with pool } := by
  obtain ⟨hbanned, hfresh, hroom⟩ := admissible_eq_true hadmissible
  refine ⟨?_, ?_, h.redial, ?_, h.redial_banned⟩
  · show pool.length ≤ addressPool
    rw [hpool.length_eq, List.length_cons]
    omega
  · exact hpool.nodup_iff.mpr (List.nodup_cons.mpr ⟨hfresh, h.pool⟩)
  · intro other hother
    rcases List.mem_cons.mp (hpool.mem_iff.mp hother) with rfl | hother
    · exact hbanned
    · exact h.pool_banned other hother

theorem Orderly.offerFront {address : SocketAddr} (h : discovery.Orderly) :
    (discovery.offerFront address).Orderly := by
  rw [Discovery.offerFront]
  split
  · next hadmissible => exact h.takeIn hadmissible (List.Perm.refl _)
  · exact h

theorem Orderly.offerGossip {address : SocketAddr} (h : discovery.Orderly) :
    (discovery.offerGossip address).Orderly := by
  rw [Discovery.offerGossip]
  split
  · next hadmissible =>
      exact h.takeIn hadmissible (@List.perm_append_comm _ discovery.pool [address])
  · exact h

theorem Orderly.offerSeeded {addresses : List SocketAddr} (h : discovery.Orderly) :
    (discovery.offerSeeded addresses).Orderly := by
  rw [Discovery.offerSeeded]
  induction addresses.reverse generalizing discovery with
  | nil => exact h
  | cons address addresses ih => exact ih h.offerFront

theorem Orderly.readmit {addresses : List SocketAddr} (h : discovery.Orderly) :
    (discovery.readmit addresses).Orderly :=
  Orderly.offerSeeded ⟨h.bounded, h.pool, h.redial, h.pool_banned, h.redial_banned⟩

theorem Orderly.markSeeded {now : ℕ} (h : discovery.Orderly) :
    (discovery.markSeeded now).Orderly :=
  ⟨h.bounded, h.pool, h.redial, h.pool_banned, h.redial_banned⟩

theorem Orderly.droughtWarns {now : ℕ} (h : discovery.Orderly) :
    (discovery.droughtWarns now).2.Orderly := by
  have hsame : ∀ drought, Orderly { discovery with drought } := fun _ =>
    ⟨h.bounded, h.pool, h.redial, h.pool_banned, h.redial_banned⟩
  rw [Discovery.droughtWarns]
  split
  · exact hsame _
  · split
    · exact hsame _
    · split
      · exact hsame _
      · exact h

theorem Orderly.dropped {address : SocketAddr} {now : ℕ} (h : discovery.Orderly) :
    (discovery.dropped address now).Orderly := by
  rw [Discovery.dropped]
  split
  · exact h
  · next hnew =>
      rw [Bool.or_eq_true, not_or, List.contains_eq_mem, decide_eq_true_eq,
        List.any_eq_true] at hnew
      obtain ⟨hbanned, hfresh⟩ := hnew
      refine ⟨h.bounded, h.pool, ?_, h.pool_banned, ?_⟩
      · show ((discovery.redial ++ [(now + redialBackoff, address)]).map Prod.snd).Nodup
        rw [List.map_append, List.nodup_append]
        refine ⟨h.redial, List.nodup_singleton _, ?_⟩
        intro other hother last hlast heq
        obtain ⟨entry, hentry, rfl⟩ := List.mem_map.mp hother
        rw [List.map_singleton, List.mem_singleton] at hlast
        exact hfresh ⟨entry, hentry, decide_eq_true (heq.trans hlast)⟩
      · intro entry hentry
        rcases List.mem_append.mp hentry with hentry | hentry
        · exact h.redial_banned entry hentry
        · rw [List.mem_singleton.mp hentry]
          exact hbanned

/-- What is taken away leaves the rest in order. -/
theorem Orderly.sublist {pool tried : List SocketAddr} {redial : List (ℕ × SocketAddr)}
    (h : discovery.Orderly) (hpool : pool.Sublist discovery.pool)
    (hredial : redial.Sublist discovery.redial) :
    Orderly { discovery with pool, tried, redial } where
  bounded := hpool.length_le.trans h.bounded
  pool := hpool.nodup h.pool
  redial := (hredial.map Prod.snd).nodup h.redial
  pool_banned address haddress := h.pool_banned address (hpool.subset haddress)
  redial_banned entry hentry := h.redial_banned entry (hredial.subset hentry)

/-- How `next` ends: with nothing, or with an address that is not banned and was taken out. -/
structure Hands (discovery : Discovery) (result : Next × Discovery) : Prop where
  orderly : result.2.Orderly
  banned : result.2.banned = discovery.banned
  allowed : ∀ address, result.1 = .address address → address.ip ∉ discovery.banned
  shorter : ∀ address, result.1 = .address address →
    result.2.pool.length + result.2.redial.length < discovery.pool.length + discovery.redial.length

theorem hands_nextPooled (h : discovery.Orderly) : Hands discovery discovery.nextPooled := by
  rw [nextPooled]
  split
  · exact ⟨h, rfl, nofun, nofun⟩
  · next address pool hpool =>
      refine ⟨h.sublist ?_ (List.Sublist.refl _), rfl, ?_, ?_⟩
      · rw [hpool]
        exact List.sublist_cons_self address pool
      · intro other heq
        cases heq
        exact h.pool_banned address (by rw [hpool]; exact List.mem_cons_self)
      · intro other _
        show pool.length + discovery.redial.length < discovery.pool.length + discovery.redial.length
        rw [hpool, List.length_cons]
        omega

/-- **No banned address is handed out.** -/
theorem hands_next {now : ℕ} (h : discovery.Orderly) : Hands discovery (discovery.next now) := by
  rw [next]
  split
  · exact hands_nextPooled h
  · next due address redial hredial =>
      have hsublist : redial.Sublist discovery.redial := by
        rw [hredial]
        exact List.sublist_cons_self _ _
      split
      · split
        · next hallowed =>
            rw [Bool.and_eq_true, Bool.not_eq_true', List.contains_eq_mem,
              decide_eq_false_iff_not] at hallowed
            refine ⟨h.sublist (List.Sublist.refl _) hsublist, rfl, ?_, ?_⟩
            · intro other heq
              cases heq
              exact hallowed.1
            · intro other _
              show discovery.pool.length + redial.length <
                discovery.pool.length + discovery.redial.length
              rw [hredial, List.length_cons]
              omega
        · have hrest : Orderly { discovery with redial } :=
            h.sublist (List.Sublist.refl _) hsublist
          have hhands := hands_nextPooled hrest
          refine ⟨hhands.orderly, hhands.banned, hhands.allowed, fun other heq => ?_⟩
          have hshorter := hhands.shorter other heq
          have hlength := hsublist.length_le
          show _ < discovery.pool.length + discovery.redial.length
          exact Nat.lt_of_lt_of_le hshorter (Nat.add_le_add_left hlength _)
      · exact hands_nextPooled h

theorem Orderly.ban {ip : IpAddr} (h : discovery.Orderly) : (discovery.ban ip).Orderly where
  bounded := List.filter_sublist.length_le.trans h.bounded
  pool := h.pool.filter _
  redial := (List.filter_sublist.map Prod.snd).nodup h.redial
  pool_banned address haddress := by
    obtain ⟨hmem, hip⟩ := List.mem_filter.mp haddress
    intro hbanned
    rcases List.mem_insert_iff.mp hbanned with heq | hbanned
    · exact of_decide_eq_true hip heq
    · exact h.pool_banned address hmem hbanned
  redial_banned entry hentry := by
    obtain ⟨hmem, hip⟩ := List.mem_filter.mp hentry
    intro hbanned
    rcases List.mem_insert_iff.mp hbanned with heq | hbanned
    · exact of_decide_eq_true hip heq
    · exact h.redial_banned entry hmem hbanned

theorem Orderly.unreachableV6 (h : discovery.Orderly) : discovery.unreachableV6.Orderly where
  bounded := List.filter_sublist.length_le.trans h.bounded
  pool := h.pool.filter _
  redial := (List.filter_sublist.map Prod.snd).nodup h.redial
  pool_banned address haddress := h.pool_banned address (List.mem_filter.mp haddress).1
  redial_banned entry hentry := h.redial_banned entry (List.mem_filter.mp hentry).1

end Discovery

end Urma.P2p
