import Mathlib.Data.Nat.Notation
import Mathlib.Data.List.Basic
import Mathlib.Data.List.Induction
import Mathlib.Data.List.Nodup

/-!
# An index of offsets beside a list

A list is kept together with a map from a key of its elements to their offsets. While the keys are
distinct, the map says no more and no less than the list: pushing, truncating and overwriting the
end of both keep them in step.
-/

namespace Urma.Lib.OffsetIndex

variable {κ α : Type*} [DecidableEq κ]

/-- A map from keys to offsets. -/
abbrev Index (κ : Type*) := κ → Option ℕ

/-- The map with one more entry, or another one for the key. -/
def insert (index : Index κ) (key : κ) (offset : ℕ) : Index κ :=
  fun other => if other = key then some offset else index other

/-- The map without an entry for the key. -/
def remove (index : Index κ) (key : κ) : Index κ :=
  fun other => if other = key then none else index other

section
variable (key : α → κ)

/-- The map without the keys of the listed elements. -/
def removeAll (index : Index κ) (dropped : List α) : Index κ :=
  dropped.foldl (fun index x => remove index (key x)) index

/-- The map with the listed elements at their offsets. -/
def insertAll (index : Index κ) (entries : List (α × ℕ)) : Index κ :=
  entries.foldl (fun index entry => insert index (key entry.1) entry.2) index

/-- The map has exactly the keys of the list, each with the offset of its element. -/
def Exact (index : Index κ) (xs : List α) : Prop :=
  ∀ k offset, index k = some offset ↔ ∃ x, xs[offset]? = some x ∧ key x = k

/-- The map has for every key of the list the offset of the last element with it. -/
def Latest (index : Index κ) (xs : List α) : Prop :=
  ∀ k offset, index k = some offset ↔
    (∃ x, xs[offset]? = some x ∧ key x = k) ∧
      ∀ later x, offset < later → xs[later]? = some x → key x ≠ k

end

variable {key : α → κ} {index : Index κ} {xs : List α}

theorem removeAll_apply (dropped : List α) (k : κ) :
    removeAll key index dropped k = if k ∈ dropped.map key then none else index k := by
  induction dropped generalizing index with
  | nil => rfl
  | cons x dropped ih =>
      rw [removeAll, List.foldl_cons, ← removeAll, ih, List.map_cons, remove]
      by_cases hmem : k ∈ dropped.map key
      · rw [if_pos hmem, if_pos (List.mem_cons_of_mem _ hmem)]
      · rw [if_neg hmem]
        by_cases heq : k = key x
        · rw [if_pos heq, if_pos (heq ▸ List.mem_cons_self)]
        · rw [if_neg heq, if_neg (by rw [List.mem_cons]; tauto)]

omit [DecidableEq κ] in
/-- There is one exact map for a list. -/
theorem Exact.unique {other : Index κ} (h : Exact key index xs) (h' : Exact key other xs) :
    index = other := by
  funext k
  apply Option.ext
  intro offset
  rw [h k offset, h' k offset]

omit [DecidableEq κ] in
theorem Exact.lt_of_eq_some {k : κ} {offset : ℕ} (h : Exact key index xs)
    (hget : index k = some offset) : offset < xs.length := by
  obtain ⟨x, hx, _⟩ := (h k offset).mp hget
  exact (List.getElem?_eq_some_iff.mp hx).1

theorem exact_singleton (x : α) : Exact key (insert (fun _ => none) (key x) 0) [x] := by
  intro k offset
  rw [insert]
  cases offset with
  | zero =>
      constructor
      · intro h
        split at h
        · next heq => exact ⟨x, rfl, heq.symm⟩
        · cases h
      · rintro ⟨y, hy, rfl⟩
        cases hy
        rw [if_pos rfl]
  | succ offset =>
      constructor
      · intro h
        split at h <;> cases h
      · rintro ⟨y, hy, _⟩
        cases hy

/-- **Pushing** an element with a key of its own keeps the map exact. -/
theorem Exact.push {x : α} (h : Exact key index xs) (hnew : ∀ y ∈ xs, key y ≠ key x) :
    Exact key (insert index (key x) xs.length) (xs ++ [x]) := by
  intro k offset
  rw [insert]
  by_cases heq : k = key x
  · rw [if_pos heq, Option.some.injEq]
    constructor
    · rintro rfl
      exact ⟨x, by simp, heq.symm⟩
    · rintro ⟨y, hy, hkey⟩
      by_contra hne
      have hlt : offset < xs.length := by
        have := (List.getElem?_eq_some_iff.mp hy).1
        rw [List.length_append, List.length_singleton] at this
        omega
      rw [List.getElem?_append_left hlt] at hy
      exact hnew y (List.mem_of_getElem? hy) (hkey.trans heq)
  · rw [if_neg heq, h k offset]
    constructor
    · rintro ⟨y, hy, hkey⟩
      have hlt := (List.getElem?_eq_some_iff.mp hy).1
      exact ⟨y, by rw [List.getElem?_append_left hlt]; exact hy, hkey⟩
    · rintro ⟨y, hy, hkey⟩
      rcases Nat.lt_or_ge offset xs.length with hlt | hge
      · rw [List.getElem?_append_left hlt] at hy
        exact ⟨y, hy, hkey⟩
      · have hlast : y = x := by
          have hlength := (List.getElem?_eq_some_iff.mp hy).1
          rw [List.length_append, List.length_singleton] at hlength
          have hoffset : offset = xs.length := by omega
          rw [hoffset, List.getElem?_concat_length] at hy
          exact (Option.some.inj hy).symm
        exact absurd (hkey.symm.trans (congrArg key hlast)) heq

/-- **Truncating** the list and removing the keys of its end keeps the map exact. -/
theorem Exact.truncate {kept dropped : List α} (h : Exact key index (kept ++ dropped))
    (hdistinct : ∀ x ∈ kept, ∀ y ∈ dropped, key x ≠ key y) :
    Exact key (removeAll key index dropped) kept := by
  intro k offset
  rw [removeAll_apply]
  split
  · next hmem =>
      obtain ⟨y, hy, hkey⟩ := List.mem_map.mp hmem
      constructor
      · intro hnone
        cases hnone
      · rintro ⟨x, hx, hkey'⟩
        exact absurd (hkey'.trans hkey.symm) (hdistinct x (List.mem_of_getElem? hx) y hy)
  · next hnot =>
      rw [h k offset]
      constructor
      · rintro ⟨x, hx, hkey⟩
        rcases Nat.lt_or_ge offset kept.length with hlt | hge
        · rw [List.getElem?_append_left hlt] at hx
          exact ⟨x, hx, hkey⟩
        · rw [List.getElem?_append_right hge] at hx
          exact absurd (List.mem_map.mpr ⟨x, List.mem_of_getElem? hx, hkey⟩) hnot
      · rintro ⟨x, hx, hkey⟩
        have hlt := (List.getElem?_eq_some_iff.mp hx).1
        exact ⟨x, by rw [List.getElem?_append_left hlt]; exact hx, hkey⟩

/-- **Overwriting** the end: with the new elements at their offsets the map is exact again. -/
theorem Exact.insertAll {kept fresh : List α} (h : Exact key index kept)
    (hdistinct : ((kept ++ fresh).map key).Nodup) :
    Exact key (insertAll key index ((kept ++ fresh).zipIdx.drop kept.length)) (kept ++ fresh) := by
  have hdrop : (kept ++ fresh).zipIdx.drop kept.length = fresh.zipIdx kept.length := by
    rw [List.zipIdx_append, List.drop_left' (by rw [List.length_zipIdx]), Nat.zero_add]
  rw [hdrop]
  clear hdrop
  induction fresh generalizing kept index with
  | nil =>
      rw [List.append_nil]
      exact h
  | cons x fresh ih =>
      have hsplit : kept ++ x :: fresh = (kept ++ [x]) ++ fresh := by
        rw [List.append_assoc, List.singleton_append]
      rw [hsplit] at hdistinct ⊢
      have hnew : ∀ y ∈ kept, key y ≠ key x := by
        rw [List.map_append, List.map_append] at hdistinct
        have hleft := (List.nodup_append.mp hdistinct).1
        intro y hy
        exact (List.nodup_append.mp hleft).2.2 _ (List.mem_map_of_mem hy) _
          (List.mem_map_of_mem (List.mem_singleton.mpr rfl))
      have hpush := ih (h.push hnew) hdistinct
      rw [List.length_append, List.length_singleton] at hpush
      rw [List.zipIdx_cons]
      exact hpush

/-- **Building** the map from a list, of which the last element with a key stays. -/
theorem latest_insertAll (xs : List α) :
    Latest key (insertAll key (fun _ => none) xs.zipIdx) xs := by
  induction xs using List.reverseRecOn with
  | nil => simp [Latest, insertAll]
  | append_singleton xs x ih =>
      intro k offset
      have hstep : insertAll key (fun _ => none) (xs ++ [x]).zipIdx =
          insert (insertAll key (fun _ => none) xs.zipIdx) (key x) xs.length := by
        rw [List.zipIdx_append, insertAll, List.foldl_append, Nat.zero_add]
        rfl
      rw [hstep, insert]
      by_cases hkey : k = key x
      · rw [if_pos hkey, Option.some.injEq]
        constructor
        · rintro rfl
          refine ⟨⟨x, by simp, hkey.symm⟩, fun later y hlater hy => ?_⟩
          have hlt := (List.getElem?_eq_some_iff.mp hy).1
          rw [List.length_append, List.length_singleton] at hlt
          omega
        · rintro ⟨⟨y, hy, _⟩, hlast⟩
          have hlt := (List.getElem?_eq_some_iff.mp hy).1
          rw [List.length_append, List.length_singleton] at hlt
          by_contra hne
          exact hlast xs.length x (by omega) (by simp) hkey.symm
      · rw [if_neg hkey, ih k offset]
        have hmem : ∀ (place : ℕ) (y : α), key y = k →
            ((xs ++ [x])[place]? = some y ↔ xs[place]? = some y) := by
          intro place y hy
          rcases Nat.lt_or_ge place xs.length with hlt | hge
          · rw [List.getElem?_append_left hlt]
          · rw [List.getElem?_append_right hge, List.getElem?_eq_none hge]
            constructor
            · intro hsome
              have hxy : x = y := by
                cases hplace : place - xs.length with
                | zero => simpa [hplace] using hsome
                | succ n => simp [hplace] at hsome
              exact absurd (hxy ▸ hy).symm hkey
            · nofun
        constructor
        · rintro ⟨⟨y, hy, hk⟩, hlast⟩
          exact ⟨⟨y, (hmem offset y hk).mpr hy, hk⟩, fun later z hlater hz hzk =>
            hlast later z hlater ((hmem later z hzk).mp hz) hzk⟩
        · rintro ⟨⟨y, hy, hk⟩, hlast⟩
          exact ⟨⟨y, (hmem offset y hk).mp hy, hk⟩, fun later z hlater hz hzk =>
            hlast later z hlater ((hmem later z hzk).mpr hz) hzk⟩

omit [DecidableEq κ] in
/-- While the keys are distinct, the last element with a key is the only one. -/
theorem Latest.exact (h : Latest key index xs) (hdistinct : (xs.map key).Nodup) :
    Exact key index xs := by
  intro k offset
  rw [h k offset]
  constructor
  · exact fun hlatest => hlatest.1
  · rintro ⟨x, hx, rfl⟩
    refine ⟨⟨x, hx, rfl⟩, fun later y hlater hy heq => ?_⟩
    have hx' : (xs.map key)[offset]? = some (key x) := by rw [List.getElem?_map, hx]; rfl
    have hy' : (xs.map key)[later]? = some (key x) := by rw [List.getElem?_map, hy, ← heq]; rfl
    obtain ⟨hlt, hget⟩ := List.getElem?_eq_some_iff.mp hx'
    obtain ⟨hlt', hget'⟩ := List.getElem?_eq_some_iff.mp hy'
    have hsame := (List.Nodup.getElem_inj_iff hdistinct).mp (hget.trans hget'.symm)
    omega

end Urma.Lib.OffsetIndex
