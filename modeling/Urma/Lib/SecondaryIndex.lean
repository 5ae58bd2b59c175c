import Std.Data.ExtTreeSet
import Urma.Lib.Journal

/-!
# A secondary index over a keyed table

A second copy of one field of a table's values: the set of pairs `(field, key)` over
all keys whose value carries the field. The index is `Exact` when it is that set and
nothing else. A write keeps it exact when it removes the pair of the old value and
inserts the pair of the new one (`Exact.put`).

The pairs are ordered by field first, so the entries up to a bound are a prefix of
the index (`mem_upTo`).
-/

namespace Urma.Lib.SecondaryIndex

open Std Journal

variable {I K V : Type} [Ord I] [TransOrd I] [LawfulEqOrd I]
  [Ord K] [TransOrd K] [LawfulEqOrd K]

/-- Pairs by field, then by key: the derived order of a tuple. -/
abbrev pairOrder (I K : Type) [Ord I] [Ord K] : I × K → I × K → Ordering :=
  compareLex (compareOn Prod.fst) (compareOn Prod.snd)

instance : LawfulEqCmp (pairOrder I K) where
  compare_self := ReflCmp.compare_self
  eq_of_compare {a b} h := by
    rw [compareLex_eq_eq] at h
    exact Prod.ext (LawfulEqOrd.eq_of_compare h.1) (LawfulEqOrd.eq_of_compare h.2)

/-- An index: a set of pairs in pair order. -/
abbrev Index (I K : Type) [Ord I] [Ord K] := ExtTreeSet (I × K) (pairOrder I K)

/-- Remove the pair of a key whose value carried `field`. -/
def drop (index : Index I K) (key : K) : Option I → Index I K
  | some field => index.erase (field, key)
  | none => index

/-- Insert the pair of a key whose value carries `field`. -/
def add (index : Index I K) (key : K) : Option I → Index I K
  | some field => index.insert (field, key)
  | none => index

/-- The index holds exactly the pairs of the table's values. -/
def Exact (field : V → Option I) (index : Index I K) (table : ExtTreeMap K V) : Prop :=
  ∀ i key, (i, key) ∈ index ↔ ∃ value, table[key]? = some value ∧ field value = some i

omit [LawfulEqOrd I] [LawfulEqOrd K] in
theorem Exact.empty (field : V → Option I) :
    Exact field (∅ : Index I K) (∅ : ExtTreeMap K V) := by
  intro i key
  simp

theorem mem_drop {index : Index I K} {key : K} {old : Option I} {pair : I × K} :
    pair ∈ drop index key old ↔ pair ∈ index ∧ ∀ i, old = some i → pair ≠ (i, key) := by
  cases old with
  | none => simp [drop]
  | some i =>
      simp only [drop, ExtTreeSet.mem_erase, ne_eq, LawfulEqCmp.compare_eq_iff_eq,
        Option.some.injEq, forall_eq']
      constructor
      · rintro ⟨hne, hmem⟩; exact ⟨hmem, fun heq => hne heq.symm⟩
      · rintro ⟨hmem, hne⟩; exact ⟨fun heq => hne heq.symm, hmem⟩

theorem mem_add {index : Index I K} {key : K} {new : Option I} {pair : I × K} :
    pair ∈ add index key new ↔ (∃ i, new = some i ∧ pair = (i, key)) ∨ pair ∈ index := by
  cases new with
  | none => simp [add]
  | some i =>
      simp only [add, ExtTreeSet.mem_insert, LawfulEqCmp.compare_eq_iff_eq,
        Option.some.injEq, exists_eq_left']
      exact or_congr_left eq_comm

/-- **A write keeps the index exact** when the pair of the old value goes and the pair
of the new value comes. -/
theorem Exact.put {field : V → Option I} {index : Index I K} {table : ExtTreeMap K V}
    (h : Exact field index table) (key : K) (value : Option V) :
    Exact field (add (drop index key (table[key]?.bind field)) key (value.bind field))
      (Journal.put table key value) := by
  intro i other
  rw [mem_add, mem_drop]
  by_cases hkey : key = other
  · subst hkey
    rw [get_put_self]
    constructor
    · rintro (⟨j, hj, hpair⟩ | ⟨hmem, hold⟩)
      · cases hpair
        exact Option.bind_eq_some_iff.mp hj
      · obtain ⟨old, hget, hfield⟩ := (h i key).mp hmem
        exact absurd rfl (hold i (by rw [hget]; exact hfield))
    · intro hvalue
      exact Or.inl ⟨i, Option.bind_eq_some_iff.mpr hvalue, rfl⟩
  · rw [get_put_of_ne hkey]
    constructor
    · rintro (⟨j, _, hpair⟩ | ⟨hmem, _⟩)
      · exact absurd (congrArg Prod.snd hpair).symm hkey
      · exact (h i other).mp hmem
    · intro hvalue
      refine Or.inr ⟨(h i other).mpr hvalue, fun j _ hpair => ?_⟩
      exact hkey (congrArg Prod.snd hpair).symm

/-- Two exact indexes of one table are equal. -/
theorem Exact.unique {field : V → Option I} {a b : Index I K} {table : ExtTreeMap K V}
    (ha : Exact field a table) (hb : Exact field b table) : a = b := by
  apply ExtTreeSet.ext_mem
  rintro ⟨i, key⟩
  rw [ha i key, hb i key]

/-! ## The entries up to a bound -/

/-- The leading entries of the index whose field passes the test. -/
def upTo (index : Index I K) (test : I → Bool) : List (I × K) :=
  index.toList.takeWhile (fun pair => test pair.1)

omit [Ord I] [TransOrd I] [LawfulEqOrd I] [Ord K] [TransOrd K] [LawfulEqOrd K] in
private theorem mem_takeWhile_of_pairwise {r : I × K → I × K → Prop} {test : I → Bool}
    (hmono : ∀ a b, r a b → test b.1 = true → test a.1 = true) {l : List (I × K)}
    (hl : l.Pairwise r) {pair : I × K} :
    pair ∈ l.takeWhile (fun pair => test pair.1) ↔ pair ∈ l ∧ test pair.1 = true := by
  induction l with
  | nil => simp
  | cons first rest ih =>
      obtain ⟨hfirst, hrest⟩ := List.pairwise_cons.mp hl
      rw [List.takeWhile_cons]
      by_cases htest : test first.1 = true
      · rw [if_pos htest, List.mem_cons, List.mem_cons, ih hrest]
        constructor
        · rintro (rfl | ⟨hmem, ht⟩)
          · exact ⟨Or.inl rfl, htest⟩
          · exact ⟨Or.inr hmem, ht⟩
        · rintro ⟨rfl | hmem, ht⟩
          · exact Or.inl rfl
          · exact Or.inr ⟨hmem, ht⟩
      · rw [if_neg htest]
        constructor
        · intro h; cases h
        · rintro ⟨hmem, ht⟩
          exfalso
          rcases List.mem_cons.mp hmem with rfl | hmem
          · exact htest ht
          · exact htest (hmono first pair (hfirst pair hmem) ht)

/-- For a test that every smaller field passes too, `upTo` is a filter of the index. -/
theorem mem_upTo {index : Index I K} {test : I → Bool}
    (hdown : ∀ a b : I, (compare a b).isLE → test b = true → test a = true) {pair : I × K} :
    pair ∈ upTo index test ↔ pair ∈ index ∧ test pair.1 = true := by
  unfold upTo
  rw [mem_takeWhile_of_pairwise (r := fun a b => pairOrder I K a b = .lt) ?_
    index.ordered_toList, ExtTreeSet.mem_toList]
  intro a b hlt
  apply hdown
  have hle : (compareOn Prod.fst a b).isLE := by
    rw [pairOrder, compareLex, Ordering.then_eq_lt] at hlt
    rcases hlt with hlt | ⟨heq, _⟩
    · rw [hlt]; rfl
    · rw [heq]; rfl
  exact hle

/-- No entry is listed twice. -/
theorem upTo_nodup (index : Index I K) (test : I → Bool) : (upTo index test).Nodup := by
  refine List.Nodup.sublist (List.takeWhile_sublist _) ?_
  refine index.ordered_toList.imp ?_
  intro a b hlt heq
  have hself : pairOrder I K b b = .eq := ReflCmp.compare_self
  rw [heq, hself] at hlt
  cases hlt

end Urma.Lib.SecondaryIndex
