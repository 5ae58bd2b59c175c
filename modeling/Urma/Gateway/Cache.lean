import Mathlib.Algebra.BigOperators.Group.List.Basic
import Mathlib.Logic.Function.Basic
import Urma.Core.Error

/-!
# The publication cache of the gateway

`gateway_state::Cache`: verified publications by their keys, the order in which they were put, and
the bytes they take. A put makes room by forgetting the oldest ones. Map, queue and counter are three
copies of one fact; `Books` says so, and every operation keeps it.
-/

namespace Urma.Gateway

/-! ## The cache -/

/-- `gateway_state::Entry`. -/
structure Entry (V : Type) where
  verified : V
  size : ℕ

/-- `gateway_state::Cache`. -/
structure Cache (K V : Type) where
  entries : K → Option (Entry V)
  order : List K
  bytes : ℕ

/-- Arithmetic that leaves `usize`. -/
inductive Fault where
  | overflow
  | underflow
  deriving DecidableEq

section Model

variable {K V : Type} [DecidableEq K]

/-- The cache of a new gateway. -/
def Cache.new : Cache K V :=
  ⟨fun _ => none, [], 0⟩

/-- `a + b` of `usize`. -/
def add (a b : ℕ) : Except Fault ℕ :=
  match checkedAdd a b with
  | some sum => .ok sum
  | none => .error .overflow

/-- `a - b` of `usize`. -/
def sub (a b : ℕ) : Except Fault ℕ :=
  match checkedSub a b with
  | some difference => .ok difference
  | none => .error .underflow

namespace Cache

/-- `Cache::get`. -/
def get (cache : Cache K V) (key : K) : Option V :=
  (cache.entries key).map Entry.verified

/-- `Cache::forget`. -/
def forget (cache : Cache K V) (key : K) : Except Fault (Cache K V) :=
  match cache.entries key with
  | none => .ok cache
  | some entry => do
      let bytes ← sub cache.bytes entry.size
      .ok {
        entries := Function.update cache.entries key none
        order := cache.order.filter (· ≠ key)
        bytes }

theorem forget_length_le {cache cache' : Cache K V} {key : K}
    (h : cache.forget key = .ok cache') : cache'.order.length ≤ cache.order.length := by
  rw [forget] at h
  split at h
  · cases h
    exact Nat.le_refl _
  · obtain ⟨bytes, _, hok⟩ := Except.bind_eq_ok.mp h
    cases hok
    exact List.length_filter_le _ _

/-- The loop of `Cache::put`, with the keys it pops. -/
def evict (size budget : ℕ) (cache : Cache K V) : Except Fault (Cache K V × List K) :=
  match add cache.bytes size with
  | .error fault => .error fault
  | .ok total =>
      if total ≤ budget then .ok (cache, [])
      else
        match _horder : cache.order with
        | [] => .ok (cache, [])
        | oldest :: rest =>
            match _hforget : forget { cache with order := rest } oldest with
            | .error fault => .error fault
            | .ok cache' => do
                let (cache', evicted) ← evict size budget cache'
                .ok (cache', oldest :: evicted)
termination_by cache.order.length
decreasing_by
  have hle := forget_length_le _hforget
  rw [_horder]
  exact Nat.lt_succ_of_le hle

/-- `Cache::put`, with the keys it evicts. -/
def put (cache : Cache K V) (key : K) (verified : V) (size budget : ℕ) :
    Except Fault (Cache K V × List K) := do
  let cache ← cache.forget key
  let (cache, evicted) ← evict size budget cache
  let bytes ← add cache.bytes size
  .ok ({
    entries := Function.update cache.entries key (some ⟨verified, size⟩)
    order := cache.order ++ [key]
    bytes }, evicted)

end Cache

/-! ## Sizes -/

/-- The loop of `footprint`. -/
def footprintFrom : List ℕ → ℕ → Option ℕ
  | [], total => some total
  | size :: sizes, total => (checkedAdd total size).bind (footprintFrom sizes)

variable (fileSizes : V → List ℕ)

/-- `footprint`, of a publication with files of these sizes. -/
def footprint (verified : V) : Option ℕ :=
  footprintFrom (fileSizes verified) 0

/-! ## Runs -/

/-- What is done to the cache. -/
inductive Op (K V : Type) where
  | remember (key : K) (verified : V)
  | forget (key : K)

/-- What happens to the entries. -/
inductive Event (K V : Type) where
  | put (key : K) (verified : V)
  | forgotten (key : K)
  | evicted (key : K)

/-- `Gateway::remember` and the `forget` of `Gateway::refetch`. A publication that does not fit is
not remembered. -/
def Cache.step (budget : ℕ) (cache : Cache K V) :
    Op K V → Except Fault (Cache K V × List (Event K V))
  | .remember key verified =>
      match footprint fileSizes verified with
      | none => .ok (cache, [])
      | some size =>
          if size ≤ budget then do
            let (cache, evicted) ← cache.put key verified size budget
            .ok (cache, evicted.map .evicted ++ [.put key verified])
          else .ok (cache, [])
  | .forget key => do
      let cache ← cache.forget key
      .ok (cache, [.forgotten key])

/-- One operation after another. -/
def Cache.run (budget : ℕ) (cache : Cache K V) :
    List (Op K V) → Except Fault (Cache K V × List (Event K V))
  | [] => .ok (cache, [])
  | op :: ops => do
      let (cache, events) ← cache.step fileSizes budget op
      let (cache, more) ← cache.run budget ops
      .ok (cache, events ++ more)

/-! ## What the events leave -/

/-- The value of a key after one event. -/
def Event.value (key : K) (held : Option V) : Event K V → Option V
  | .put other verified => if other = key then some verified else held
  | .forgotten other | .evicted other => if other = key then none else held

/-- The keys after one event. -/
def Event.keys (held : List K) : Event K V → List K
  | .put key _ => held.filter (· ≠ key) ++ [key]
  | .forgotten key | .evicted key => held.filter (· ≠ key)

/-- The keys that are left, in the order in which they were put. -/
def inserted (events : List (Event K V)) : List K :=
  events.foldl Event.keys []

/-! ## The books -/

/-- The bytes of the entry of a key. -/
def Cache.sizeOf (cache : Cache K V) (key : K) : ℕ :=
  (cache.entries key).elim 0 Entry.size

/-- Map, queue and counter agree, within the budget. -/
structure Cache.Books (budget : ℕ) (cache : Cache K V) : Prop where
  nodup : cache.order.Nodup
  keys : ∀ key, key ∈ cache.order ↔ (cache.entries key).isSome
  bytes : cache.bytes = (cache.order.map cache.sizeOf).sum
  within : cache.bytes ≤ budget

variable {fileSizes}

theorem add_eq_ok {a b sum : ℕ} (h : add a b = .ok sum) : sum = a + b := by
  rw [add] at h
  split at h
  · next total htotal =>
    cases h
    exact (checkedAdd_eq_some.mp htotal).2
  · cases h

theorem add_eq_error {a b : ℕ} {fault : Fault} (h : add a b = .error fault) :
    fault = .overflow ∧ u64Max < a + b := by
  rw [add, checkedAdd] at h
  split at h
  · cases h
  · next hover =>
    cases h
    split at hover
    · cases hover
    · next hnot => exact ⟨rfl, Nat.lt_of_not_le hnot⟩

namespace Cache

variable {budget : ℕ} {cache cache' : Cache K V} {key : K}

omit [DecidableEq K] in
theorem books_new : (new : Cache K V).Books budget where
  nodup := List.nodup_nil
  keys _ := ⟨fun h => (List.not_mem_nil h).elim, fun h => (Bool.false_ne_true h).elim⟩
  bytes := rfl
  within := Nat.zero_le budget

/-- The bytes of the keys without one of them. -/
theorem sum_filter (f : K → ℕ) {keys : List K} (hnodup : keys.Nodup) (hmem : key ∈ keys) :
    f key + ((keys.filter (· ≠ key)).map f).sum = (keys.map f).sum := by
  have herase : keys.filter (· ≠ key) = keys.erase key := by
    rw [hnodup.erase_eq_filter]
    congr 1
    funext other
    rw [bne, decide_not]
    rfl
  rw [herase]
  exact List.sum_map_erase f hmem

/-- **Forgetting a key** takes it from the map, the order and the count. -/
theorem Books.forget (h : cache.Books budget) (key : K) :
    ∃ cache', cache.forget key = .ok cache' ∧ cache'.Books budget ∧
      cache'.order = cache.order.filter (· ≠ key) ∧
      cache'.entries = Function.update cache.entries key none ∧ cache'.bytes ≤ cache.bytes := by
  cases hentry : cache.entries key with
  | none =>
      have hnot : key ∉ cache.order := by
        rw [h.keys, hentry]
        exact Bool.false_ne_true
      have hfilter : cache.order.filter (· ≠ key) = cache.order := by
        rw [List.filter_eq_self]
        intro other hother
        exact decide_eq_true fun heq => hnot (heq ▸ hother)
      refine ⟨cache, by rw [Cache.forget, hentry], h, hfilter.symm, ?_, Nat.le_refl _⟩
      rw [← hentry, Function.update_eq_self]
  | some entry =>
      have hmem : key ∈ cache.order := (h.keys key).mpr (by rw [hentry]; rfl)
      have hsize : cache.sizeOf key = entry.size := by rw [sizeOf, hentry]; rfl
      have hsum := sum_filter cache.sizeOf h.nodup hmem
      rw [hsize, ← h.bytes] at hsum
      have hsub : sub cache.bytes entry.size = .ok (cache.bytes - entry.size) := by
        rw [sub, checkedSub_eq_some.mpr ⟨by omega, rfl⟩]
      refine ⟨⟨Function.update cache.entries key none, cache.order.filter (· ≠ key),
        cache.bytes - entry.size⟩, ?_, ?_, rfl, rfl, Nat.sub_le _ _⟩
      · rw [Cache.forget, hentry]
        simp only [hsub, Except.ok_bind]
      -- the other keys keep their entries
      have hothers : ∀ other ∈ cache.order.filter (· ≠ key),
          (Function.update cache.entries key none other).elim 0 Entry.size =
            cache.sizeOf other := by
        intro other hother
        have hne := of_decide_eq_true (List.mem_filter.mp hother).2
        rw [Function.update_of_ne hne, sizeOf]
      exact
        { nodup := h.nodup.filter _
          keys := by
            intro other
            show other ∈ cache.order.filter (· ≠ key) ↔
              (Function.update cache.entries key none other).isSome
            rw [List.mem_filter, decide_eq_true_eq]
            by_cases heq : other = key
            · rw [heq, Function.update_self]
              exact ⟨fun hboth => absurd rfl hboth.2, fun hsome => nomatch hsome⟩
            · rw [Function.update_of_ne heq, h.keys]
              exact ⟨And.left, fun hsome => ⟨hsome, heq⟩⟩
          bytes := by
            have hleft : cache.bytes - entry.size =
                ((cache.order.filter (· ≠ key)).map cache.sizeOf).sum := by omega
            exact hleft.trans (congrArg List.sum (List.map_congr_left hothers).symm)
          within := Nat.le_trans (Nat.sub_le _ _) h.within }

/-- The oldest key is forgotten as if it were still in the order. -/
theorem forget_oldest {oldest : K} {rest : List K} (h : cache.Books budget)
    (horder : cache.order = oldest :: rest) :
    Cache.forget { cache with order := rest } oldest = cache.forget oldest := by
  have hsome : (cache.entries oldest).isSome := by
    rw [← h.keys, horder]
    exact List.mem_cons_self
  obtain ⟨entry, hentry⟩ := Option.isSome_iff_exists.mp hsome
  rw [Cache.forget, Cache.forget]
  simp only [hentry, horder]
  rw [List.filter_cons_of_neg (by simp)]

/-- **The loop of a put** ends with room, or the arithmetic overflows. It forgets the oldest keys. -/
theorem Books.evict {size : ℕ} (hsize : size ≤ budget) (h : cache.Books budget) :
    (∃ cleared evicted, Cache.evict size budget cache = .ok (cleared, evicted) ∧
      cleared.Books budget ∧ cleared.bytes + size ≤ budget ∧
      cache.order = evicted ++ cleared.order ∧
      ∀ key, cleared.entries key = if key ∈ evicted then none else cache.entries key) ∨
    Cache.evict size budget cache = .error .overflow ∧ u64Max < 2 * budget := by
  induction hlength : cache.order.length using Nat.strongRecOn generalizing cache with
  | ind length ih =>
  rw [Cache.evict]
  cases hadd : add cache.bytes size with
  | error fault =>
      obtain ⟨hfault, hover⟩ := add_eq_error hadd
      have hwithin := h.within
      exact .inr ⟨by rw [hfault], by omega⟩
  | ok total =>
      have htotal := add_eq_ok hadd
      dsimp only
      split
      · next hroom =>
        exact .inl ⟨cache, [], rfl, h, by omega, rfl, fun key => (if_neg List.not_mem_nil).symm⟩
      · next hfull =>
        split
        · next hempty =>
          have hbytes := h.bytes
          rw [hempty] at hbytes
          exact absurd (show total ≤ budget by rw [htotal, hbytes]; simpa using hsize) hfull
        · next oldest rest horder =>
          have hnext := forget_oldest h horder
          obtain ⟨cache', hforget, hbooks, horder', hentries, -⟩ := h.forget oldest
          have hrest : cache'.order = rest := by
            have hnodup := h.nodup
            rw [horder] at hnodup
            rw [horder', horder, List.filter_cons_of_neg (by simp), List.filter_eq_self]
            intro other hother
            exact decide_eq_true fun heq => (List.nodup_cons.mp hnodup).1 (heq ▸ hother)
          have hshort : cache'.order.length < length := by
            rw [hrest, ← hlength, horder]
            exact Nat.lt_succ_self _
          split
          · next fault hfault =>
            rw [hnext, hforget] at hfault
            cases hfault
          · next forgotten hforgotten =>
            rw [hnext, hforget] at hforgotten
            cases hforgotten
            rcases ih _ hshort hbooks rfl with ⟨cleared, evicted, hok, hcleared, hroom, hsplit,
              hleft⟩ | ⟨herror, hover⟩
            · refine .inl ⟨cleared, oldest :: evicted, ?_, hcleared, hroom, ?_, ?_⟩
              · rw [hok, Except.ok_bind]
              · rw [horder, ← hrest, hsplit]
                rfl
              · intro key
                rw [hleft, hentries]
                by_cases hkey : key = oldest
                · rw [hkey, Function.update_self, ite_self, if_pos List.mem_cons_self]
                · rw [Function.update_of_ne hkey]
                  simp only [List.mem_cons, hkey, false_or]
            · exact .inr ⟨by rw [herror, Except.error_bind], hover⟩

/-- **A put** keeps the books, and its key is the last one. -/
theorem Books.put {size : ℕ} (hsize : size ≤ budget) (h : cache.Books budget) (key : K)
    (verified : V) :
    (∃ cache' evicted, cache.put key verified size budget = .ok (cache', evicted) ∧
      cache'.Books budget ∧
      evicted ++ cache'.order = cache.order.filter (· ≠ key) ++ [key] ∧ key ∉ evicted ∧
      ∀ other, cache'.entries other =
        if other = key then some ⟨verified, size⟩
        else if other ∈ evicted then none else cache.entries other) ∨
    cache.put key verified size budget = .error .overflow ∧ u64Max < 2 * budget := by
  obtain ⟨forgotten, hforget, hbooks, horder, hentries, -⟩ := h.forget key
  rcases hbooks.evict hsize with ⟨cleared, evicted, hevict, hcleared, hroom, hsplit, hleft⟩ |
    ⟨herror, hover⟩
  · have hnone : cleared.entries key = none := by
      rw [hleft, hentries, Function.update_self, ite_self]
    have hnew : key ∉ cleared.order := by
      rw [hcleared.keys, hnone]
      exact Bool.false_ne_true
    have hnot : key ∉ evicted := by
      intro hmem
      have hin : key ∈ forgotten.order := by
        rw [hsplit]
        exact List.mem_append_left _ hmem
      rw [horder, List.mem_filter] at hin
      exact of_decide_eq_true hin.2 rfl
    cases hadd : add cleared.bytes size with
    | error fault =>
        obtain ⟨hfault, hover⟩ := add_eq_error hadd
        refine .inr ⟨?_, by omega⟩
        simp only [Cache.put, hforget, hevict, hadd, hfault, Except.ok_bind, Except.error_bind]
    | ok total =>
        have htotal := add_eq_ok hadd
        refine .inl ⟨⟨Function.update cleared.entries key (some ⟨verified, size⟩),
          cleared.order ++ [key], total⟩, evicted, ?_, ?_, ?_, hnot, ?_⟩
        · simp only [Cache.put, hforget, hevict, hadd, Except.ok_bind]
        · have hothers : ∀ other ∈ cleared.order,
              (Function.update cleared.entries key (some ⟨verified, size⟩) other).elim 0
                Entry.size = cleared.sizeOf other := by
            intro other hother
            have hne : other ≠ key := fun heq => hnew (heq ▸ hother)
            rw [Function.update_of_ne hne, sizeOf]
          exact
            { nodup := by
                rw [List.nodup_append]
                refine ⟨hcleared.nodup, List.pairwise_singleton _ key, ?_⟩
                intro other hother _ hkey heq
                rw [List.mem_singleton.mp hkey] at heq
                exact hnew (heq ▸ hother)
              keys := by
                intro other
                show other ∈ cleared.order ++ [key] ↔
                  (Function.update cleared.entries key _ other).isSome
                rw [List.mem_append, List.mem_singleton]
                by_cases heq : other = key
                · rw [heq, Function.update_self]
                  exact ⟨fun _ => rfl, fun _ => .inr rfl⟩
                · rw [Function.update_of_ne heq, ← hcleared.keys]
                  exact ⟨fun hor => hor.resolve_right heq, .inl⟩
              bytes := by
                have hsums := congrArg List.sum (List.map_congr_left hothers)
                have hlast : (Function.update cleared.entries key (some ⟨verified, size⟩) key).elim
                    0 Entry.size = size := by rw [Function.update_self]; rfl
                show total = ((cleared.order ++ [key]).map fun other =>
                  (Function.update cleared.entries key (some ⟨verified, size⟩) other).elim 0
                    Entry.size).sum
                rw [List.map_append, List.sum_append, hsums, List.map_singleton,
                  List.sum_singleton, hlast, htotal, hcleared.bytes]
              within := by
                show total ≤ budget
                rw [htotal]
                exact hroom }
        · show evicted ++ (cleared.order ++ [key]) = _
          rw [← List.append_assoc, ← hsplit, horder]
        · intro other
          show Function.update cleared.entries key _ other = _
          by_cases heq : other = key
          · rw [heq, Function.update_self, if_pos rfl]
          · rw [Function.update_of_ne heq, if_neg heq, hleft, hentries, Function.update_of_ne heq]
  · exact .inr ⟨by rw [Cache.put, hforget, Except.ok_bind, herror, Except.error_bind], hover⟩

end Cache

/-! ## What a run leaves -/

section Runs

variable {budget : ℕ} {cache : Cache K V} {past : List (Event K V)}

end Runs

end Model

end Urma.Gateway
