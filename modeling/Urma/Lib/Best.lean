import Mathlib.Data.List.Dedup
import Mathlib.Data.List.Perm.Subperm

/-!
# The best of a stream

A stream of items is read once, and the best so many of them are held in a sorted list. An item that
is held is passed over, one that is not is inserted at its rank, and what then is beyond the bound
is dropped. A dropped item may come again: it is not held, and it is not among the best.
-/

namespace Urma.Lib.Best

open Std

variable {α : Type}

/-- `slice::partition_point`, of a slice that the predicate partitions. -/
def partitionPoint (p : α → Bool) (items : List α) : ℕ :=
  (items.takeWhile p).length

variable (cmp : α → α → Ordering) (same : α → α → Bool) (bound : ℕ)

/-- An item is offered to the held ones. -/
def offer (held : List α) (item : α) : List α :=
  if held.any (same · item) then held
  else
    let position := partitionPoint (cmp · item == .lt) held
    if position < bound then (held.insertIdx position item).take bound else held

/-- The items are apart: equal rank is equality, and the test for sameness is. -/
structure Apart (items : List α) : Prop where
  eq_of_cmp : ∀ a ∈ items, ∀ b ∈ items, cmp a b = .eq → a = b
  same_iff : ∀ a ∈ items, ∀ b ∈ items, same a b = true ↔ a = b

/-- **The best of the items**: sorted, of them, within the bound, and any other item is behind a
full list. -/
structure IsBest (items held : List α) : Prop where
  sorted : held.Pairwise (cmp · · = .lt)
  mem : ∀ a ∈ held, a ∈ items
  length : held.length ≤ bound
  rest : ∀ a ∈ items, a ∉ held → held.length = bound ∧ ∀ b ∈ held, cmp b a = .lt

variable {cmp same bound} {items held : List α} {item : α}

theorem Apart.mono {others : List α} (h : Apart cmp same items) (hsub : ∀ a ∈ others, a ∈ items) :
    Apart cmp same others where
  eq_of_cmp a ha b hb := h.eq_of_cmp a (hsub a ha) b (hsub b hb)
  same_iff a ha b hb := h.same_iff a (hsub a ha) b (hsub b hb)

theorem isBest_nil : IsBest cmp bound ([] : List α) [] where
  sorted := List.Pairwise.nil
  mem _ h := absurd h List.not_mem_nil
  length := Nat.zero_le _
  rest _ h := absurd h List.not_mem_nil

/-! ## Insertion -/

/-- An insertion at a partition point is between the two parts. -/
theorem insertIdx_partitionPoint (p : α → Bool) (items : List α) (item : α) :
    items.insertIdx (partitionPoint p items) item =
      items.takeWhile p ++ item :: items.dropWhile p := by
  induction items with
  | nil => rfl
  | cons first rest ih =>
      rw [partitionPoint, List.takeWhile_cons, List.dropWhile_cons]
      cases p first with
      | true =>
          rw [if_pos rfl, if_pos rfl, List.length_cons, List.insertIdx_succ_cons]
          exact congrArg (first :: ·) ih
      | false => rfl

variable [TransCmp cmp]

theorem ne_of_lt {a b : α} (h : cmp a b = .lt) : a ≠ b := by
  rintro rfl
  rw [@ReflCmp.compare_self _ cmp] at h
  cases h

theorem not_lt_of_lt {a b : α} (h : cmp a b = .lt) : cmp b a ≠ .lt := by
  intro hback
  exact ne_of_lt (TransCmp.lt_trans h hback) rfl

/-- Of two items that are apart, one is before the other. -/
theorem Apart.lt_or_gt (h : Apart cmp same items) {a b : α} (ha : a ∈ items) (hb : b ∈ items)
    (hne : a ≠ b) : cmp a b = .lt ∨ cmp b a = .lt := by
  cases hcmp : cmp a b with
  | lt => exact Or.inl rfl
  | eq => exact absurd (h.eq_of_cmp a ha b hb hcmp) hne
  | gt => exact Or.inr (OrientedCmp.gt_iff_lt.mp hcmp)

/-- What is held is without repetition. -/
theorem nodup_of_sorted (h : held.Pairwise (cmp · · = .lt)) : held.Nodup :=
  h.imp fun hlt => ne_of_lt hlt

/-- In a sorted list that an item is not in, what is not before the item is after it. -/
theorem dropWhile_after (hapart : Apart cmp same items)
    (hsorted : held.Pairwise (cmp · · = .lt)) (hmem : ∀ a ∈ held, a ∈ items) (hitem : item ∈ items)
    (hfresh : item ∉ held) : ∀ a ∈ held.dropWhile (cmp · item == .lt), cmp item a = .lt := by
  induction held with
  | nil => exact fun a ha => absurd ha List.not_mem_nil
  | cons first rest ih =>
      rw [List.pairwise_cons] at hsorted
      rw [List.mem_cons, not_or] at hfresh
      rw [List.dropWhile_cons]
      split
      · exact ih hsorted.2 (fun a ha => hmem a (List.mem_cons_of_mem _ ha)) hfresh.2
      · next hfirst =>
          rw [beq_iff_eq] at hfirst
          have hafter : cmp item first = .lt := by
            rcases hapart.lt_or_gt hitem (hmem first List.mem_cons_self) hfresh.1 with hlt | hgt
            · exact hlt
            · exact absurd hgt hfirst
          intro a ha
          rcases List.mem_cons.mp ha with rfl | ha
          · exact hafter
          · exact TransCmp.lt_trans hafter (hsorted.1 a ha)

omit [TransCmp cmp] in
theorem takeWhile_before (held : List α) (item : α) :
    ∀ a ∈ held.takeWhile (cmp · item == .lt), cmp a item = .lt := by
  intro a ha
  exact beq_iff_eq.mp (List.all_eq_true.mp List.all_takeWhile a ha)

/-- A list with an item at its place is sorted. -/
theorem sorted_insert (hapart : Apart cmp same items)
    (hsorted : held.Pairwise (cmp · · = .lt)) (hmem : ∀ a ∈ held, a ∈ items) (hitem : item ∈ items)
    (hfresh : item ∉ held) :
    (held.takeWhile (cmp · item == .lt) ++ item :: held.dropWhile (cmp · item == .lt)).Pairwise
      (cmp · · = .lt) := by
  have hafter := dropWhile_after hapart hsorted hmem hitem hfresh
  have hbefore := @takeWhile_before _ cmp held item
  refine List.pairwise_append.mpr ⟨hsorted.sublist (List.takeWhile_sublist _),
    List.pairwise_cons.mpr ⟨hafter, hsorted.sublist (List.dropWhile_sublist _)⟩, ?_⟩
  intro a ha b hb
  rcases List.mem_cons.mp hb with rfl | hb
  · exact hbefore a ha
  · exact TransCmp.lt_trans (hbefore a ha) (hafter b hb)

/-! ## The step -/

omit [TransCmp cmp] in
/-- The test for an item that is held. -/
theorem any_same_iff (hapart : Apart cmp same (item :: items)) (hmem : ∀ a ∈ held, a ∈ items) :
    held.any (same · item) = true ↔ item ∈ held := by
  rw [List.any_eq_true]
  constructor
  · intro h
    obtain ⟨a, ha, hsame⟩ := h
    have heq := (hapart.same_iff a (List.mem_cons_of_mem _ (hmem a ha)) item
      List.mem_cons_self).mp hsame
    rwa [← heq]
  · intro h
    exact ⟨item, h, (hapart.same_iff item List.mem_cons_self item List.mem_cons_self).mpr rfl⟩

/-- An item is inserted between two parts of the best, and the last ones are dropped that do not
fit then. -/
theorem IsBest.inserted {front back : List α} {room : ℕ}
    (h : IsBest cmp bound items (front ++ back))
    (hsorted : (front ++ item :: back).Pairwise (cmp · · = .lt))
    (hroom : front.length + room + 1 = bound) :
    IsBest cmp bound (item :: items) (front ++ item :: back.take room) := by
  have hsplit : front ++ item :: back = (front ++ item :: back.take room) ++ back.drop room := by
    rw [List.append_assoc, List.cons_append, List.take_append_drop]
  rw [hsplit, List.pairwise_append] at hsorted
  obtain ⟨hkept, _, hdropped⟩ := hsorted
  have hlength : (front ++ item :: back.take room).length =
      front.length + (min room back.length + 1) := by
    rw [List.length_append, List.length_cons, List.length_take]
  refine ⟨hkept, ?_, ?_, ?_⟩
  · intro a ha
    rcases List.mem_append.mp ha with ha | ha
    · exact List.mem_cons_of_mem _ (h.mem a (List.mem_append_left _ ha))
    · rcases List.mem_cons.mp ha with rfl | ha
      · exact List.mem_cons_self
      · exact List.mem_cons_of_mem _
          (h.mem a (List.mem_append_right _ (List.take_subset _ _ ha)))
  · rw [hlength]
    omega
  · intro a ha hfresh
    have hne : a ≠ item := by
      rintro rfl
      exact hfresh (List.mem_append_right _ List.mem_cons_self)
    have haitems : a ∈ items := (List.mem_cons.mp ha).resolve_left hne
    by_cases haheld : a ∈ front ++ back
    · -- the item took the last place
      have hall : a ∈ front ++ item :: back := by
        rcases List.mem_append.mp haheld with hafront | haback
        · exact List.mem_append_left _ hafront
        · exact List.mem_append_right _ (List.mem_cons_of_mem _ haback)
      rw [hsplit] at hall
      have hadrop := (List.mem_append.mp hall).resolve_left hfresh
      have hlong := List.length_pos_of_mem hadrop
      rw [List.length_drop] at hlong
      exact ⟨by omega, fun b hb => hdropped b hb a hadrop⟩
    · -- the list was full already, and has the item before its last one now
      obtain ⟨hbound, hbehind⟩ := h.rest a haitems haheld
      rw [List.length_append] at hbound
      have hback : 0 < (back.drop room).length := by
        rw [List.length_drop]
        omega
      obtain ⟨last, hlast⟩ := List.exists_mem_of_length_pos hback
      have hlastBehind := hbehind last (List.mem_append_right _ (List.drop_subset _ _ hlast))
      exact ⟨by omega, fun b hb => TransCmp.lt_trans (hdropped b hb last hlast) hlastBehind⟩

omit [TransCmp cmp] in
/-- An item behind a full list is passed over. -/
theorem IsBest.passed (h : IsBest cmp bound items held) (hfull : held.length = bound)
    (hbehind : ∀ a ∈ held, cmp a item = .lt) : IsBest cmp bound (item :: items) held where
  sorted := h.sorted
  mem a ha := List.mem_cons_of_mem _ (h.mem a ha)
  length := h.length
  rest a ha hfresh := by
    rcases List.mem_cons.mp ha with rfl | ha
    · exact ⟨hfull, hbehind⟩
    · exact h.rest a ha hfresh

/-- **An offer keeps the best.** The cases are those of the offer: the item is held, is inserted
with the last one dropped where the list was full, or ranks behind a full list. -/
theorem IsBest.offered (h : IsBest cmp bound items held)
    (hapart : Apart cmp same (item :: items)) :
    IsBest cmp bound (item :: items) (offer cmp same bound held item) := by
  have hmem : ∀ a ∈ held, a ∈ item :: items := fun a ha => List.mem_cons_of_mem _ (h.mem a ha)
  rw [offer]
  by_cases hheld : item ∈ held
  · rw [if_pos ((any_same_iff hapart h.mem).mpr hheld)]
    refine ⟨h.sorted, hmem, h.length, ?_⟩
    intro a ha hfresh
    rcases List.mem_cons.mp ha with rfl | ha
    · exact absurd hheld hfresh
    · exact h.rest a ha hfresh
  · rw [if_neg (by rw [any_same_iff hapart h.mem]; exact hheld)]
    have hparts := @List.takeWhile_append_dropWhile _ (cmp · item == .lt) held
    have hsorted := sorted_insert hapart h.sorted hmem List.mem_cons_self hheld
    simp only [insertIdx_partitionPoint]
    by_cases hposition : partitionPoint (cmp · item == .lt) held < bound
    · rw [if_pos hposition]
      rw [partitionPoint] at hposition
      obtain ⟨room, hroom⟩ := Nat.exists_eq_add_of_lt hposition
      rw [hroom, Nat.add_assoc, List.take_length_add_append, List.take_succ_cons]
      rw [← hparts] at h
      rw [← Nat.add_assoc, ← hroom]
      exact h.inserted hsorted hroom.symm
    · rw [if_neg hposition]
      rw [partitionPoint] at hposition
      have hlength := congrArg List.length hparts
      rw [List.length_append] at hlength
      have hbound := h.length
      have hback : held.dropWhile (cmp · item == .lt) = [] :=
        List.length_eq_zero_iff.mp (by omega)
      rw [hback, List.append_nil] at hparts
      refine h.passed (by omega) ?_
      intro a ha
      rw [← hparts] at ha
      exact takeWhile_before held item a ha

/-! ## The best are determined -/

/-- A list of the best contains another one of the same items. -/
theorem IsBest.subset {others otherHeld : List α} (h : IsBest cmp bound items held)
    (hother : IsBest cmp bound others otherHeld) (hsame : ∀ a, a ∈ items ↔ a ∈ others) :
    held ⊆ otherHeld := by
  classical
  intro a ha
  by_contra hfresh
  obtain ⟨hbound, hbehind⟩ := hother.rest a ((hsame a).mp (h.mem a ha)) hfresh
  -- all the others are before it, so they are held too, and the list is too long
  have hsub : a :: otherHeld ⊆ held := by
    intro b hb
    rcases List.mem_cons.mp hb with rfl | hb
    · exact ha
    · by_contra hbfresh
      have hafter := (h.rest b ((hsame b).mpr (hother.mem b hb)) hbfresh).2 a ha
      exact not_lt_of_lt hafter (hbehind b hb)
  have hnodup : (a :: otherHeld).Nodup :=
    List.nodup_cons.mpr ⟨hfresh, nodup_of_sorted hother.sorted⟩
  have hle := (hnodup.subperm hsub).length_le
  have hlength := h.length
  rw [List.length_cons] at hle
  omega

/-- **Items have one list of the best**, whatever order they come in and however often. -/
theorem IsBest.unique {others otherHeld : List α} (h : IsBest cmp bound items held)
    (hother : IsBest cmp bound others otherHeld) (hsame : ∀ a, a ∈ items ↔ a ∈ others) :
    held = otherHeld := by
  have hsub := h.subset hother hsame
  have hback := hother.subset h (fun a => (hsame a).symm)
  have hperm : held.Perm otherHeld :=
    (List.perm_ext_iff_of_nodup (nodup_of_sorted h.sorted) (nodup_of_sorted hother.sorted)).mpr
      fun a => ⟨fun ha => hsub ha, fun ha => hback ha⟩
  exact hperm.eq_of_pairwise (fun a b _ _ (hab : cmp a b = .lt) hba => absurd hba (not_lt_of_lt hab)) h.sorted
    hother.sorted

section Sorted

variable [DecidableEq α]

variable (cmp bound) in
/-- The distinct items in their order, up to the bound. -/
def best (items : List α) : List α :=
  (items.dedup.mergeSort fun a b => (cmp a b).isLE).take bound

/-- The sorted front of the distinct items is their best. -/
theorem isBest_best (hapart : Apart cmp same items) : IsBest cmp bound items (best cmp bound items) := by
  have hperm := List.mergeSort_perm items.dedup fun a b => (cmp a b).isLE
  have hmem : ∀ a, a ∈ items.dedup.mergeSort (fun a b => (cmp a b).isLE) ↔ a ∈ items := fun a =>
    hperm.mem_iff.trans List.mem_dedup
  have hnodup : (items.dedup.mergeSort fun a b => (cmp a b).isLE).Nodup :=
    hperm.nodup_iff.mpr (List.nodup_dedup items)
  have hle : (items.dedup.mergeSort fun a b => (cmp a b).isLE).Pairwise
      fun a b => (cmp a b).isLE = true := by
    refine List.pairwise_mergeSort ?_ ?_ _
    · intro a b c hab hbc
      exact TransCmp.isLE_trans hab hbc
    · intro a b
      rw [Bool.or_eq_true]
      cases hcmp : cmp a b with
      | lt => exact Or.inl rfl
      | eq => exact Or.inl rfl
      | gt => exact Or.inr (by rw [OrientedCmp.gt_iff_lt.mp hcmp]; rfl)
  have hsorted : (items.dedup.mergeSort fun a b => (cmp a b).isLE).Pairwise (cmp · · = .lt) := by
    refine (hle.and hnodup).imp_of_mem ?_
    intro a b ha hb hab
    cases hcmp : cmp a b with
    | lt => rfl
    | eq => exact absurd (hapart.eq_of_cmp a ((hmem a).mp ha) b ((hmem b).mp hb) hcmp) hab.2
    | gt =>
        rw [hcmp] at hab
        cases hab.1
  refine ⟨hsorted.sublist (List.take_sublist _ _), ?_, List.length_take_le _ _, ?_⟩
  · intro a ha
    exact (hmem a).mp (List.take_subset _ _ ha)
  · intro a ha hfresh
    have hparts := List.take_append_drop bound (items.dedup.mergeSort fun a b => (cmp a b).isLE)
    have hall := (hmem a).mpr ha
    rw [← hparts] at hall hsorted
    have hdrop := (List.mem_append.mp hall).resolve_left hfresh
    have hlong := List.length_pos_of_mem hdrop
    rw [List.length_drop] at hlong
    refine ⟨?_, fun b hb => (List.pairwise_append.mp hsorted).2.2 b hb a hdrop⟩
    rw [best, List.length_take]
    omega

/-- **An item is among the best exactly when fewer than the bound rank before it.** -/
theorem IsBest.mem_iff (h : IsBest cmp bound items held) (hitem : item ∈ items) :
    item ∈ held ↔ (items.filter (cmp · item == .lt)).dedup.length < bound := by
  have hmem : ∀ a, a ∈ (items.filter (cmp · item == .lt)).dedup ↔ a ∈ items ∧ cmp a item = .lt := by
    intro a
    rw [List.mem_dedup, List.mem_filter, beq_iff_eq]
  constructor
  · intro hheld
    have hsub : item :: (items.filter (cmp · item == .lt)).dedup ⊆ held := by
      intro a ha
      rcases List.mem_cons.mp ha with rfl | ha
      · exact hheld
      · obtain ⟨haitems, hbefore⟩ := (hmem a).mp ha
        by_contra hfresh
        exact not_lt_of_lt hbefore ((h.rest a haitems hfresh).2 item hheld)
    have hnodup : (item :: (items.filter (cmp · item == .lt)).dedup).Nodup := by
      refine List.nodup_cons.mpr ⟨?_, List.nodup_dedup _⟩
      intro hself
      exact ne_of_lt ((hmem item).mp hself).2 rfl
    have hle := (hnodup.subperm hsub).length_le
    have hlength := h.length
    rw [List.length_cons] at hle
    omega
  · intro hfew
    by_contra hfresh
    obtain ⟨hbound, hbehind⟩ := h.rest item hitem hfresh
    have hsub : held ⊆ (items.filter (cmp · item == .lt)).dedup := fun a ha =>
      (hmem a).mpr ⟨h.mem a ha, hbehind a ha⟩
    have hle := ((nodup_of_sorted h.sorted).subperm hsub).length_le
    omega

end Sorted

/-! ## A stream -/

variable (cmp same bound) in
/-- How many of the offered items were not held when they came. -/
def counted (held : List α) : List α → ℕ
  | [] => 0
  | item :: rest =>
      (if held.any (same · item) then 0 else 1) + counted (offer cmp same bound held item) rest

/-- **What is held after a stream is the best of it.** -/
theorem IsBest.stream {seen stream : List α} (h : IsBest cmp bound seen held)
    (hapart : Apart cmp same (stream ++ seen)) :
    IsBest cmp bound (stream ++ seen) (stream.foldl (offer cmp same bound) held) := by
  induction stream generalizing seen held with
  | nil => exact h
  | cons item rest ih =>
      have hsame : ∀ a, a ∈ rest ++ item :: seen ↔ a ∈ item :: rest ++ seen := by
        intro a
        simp only [List.mem_append, List.mem_cons]
        tauto
      have hnext : IsBest cmp bound (item :: seen) (offer cmp same bound held item) :=
        h.offered (hapart.mono fun a ha => (hsame a).mp (List.mem_append_right _ ha))
      have hrest := ih hnext (hapart.mono fun a ha => (hsame a).mp ha)
      exact ⟨hrest.sorted, fun a ha => (hsame a).mp (hrest.mem a ha), hrest.length,
        fun a ha => hrest.rest a ((hsame a).mpr ha)⟩

section Counting

variable [DecidableEq α]

/-- The number of distinct items grows by the new ones. -/
theorem distinct_cons (item : α) (items : List α) :
    (item :: items).dedup.length = (if item ∈ items then 0 else 1) + items.dedup.length := by
  by_cases hmem : item ∈ items
  · rw [List.dedup_cons_of_mem hmem, if_pos hmem, Nat.zero_add]
  · rw [List.dedup_cons_of_notMem hmem, if_neg hmem, List.length_cons, Nat.add_comm]

/-- An item that comes again is among the best of what came before. -/
def Remembered (cmp : α → α → Ordering) (bound : ℕ) (seen : List α) (stream : List α) : Prop :=
  ∀ before item after, stream = before ++ item :: after → item ∈ before ++ seen →
    ((before ++ seen).filter (cmp · item == .lt)).dedup.length < bound

omit [TransCmp cmp] in
/-- The first item of a stream is remembered, and so are the others after it. -/
theorem remembered_cons {seen rest : List α} :
    Remembered cmp bound seen (item :: rest) ↔
      (item ∈ seen → (seen.filter (cmp · item == .lt)).dedup.length < bound) ∧
        Remembered cmp bound (item :: seen) rest := by
  have hmem (before : List α) (a : α) : a ∈ item :: before ++ seen ↔ a ∈ before ++ item :: seen := by
    simp only [List.mem_append, List.mem_cons]
    tauto
  have hlength (before : List α) (a : α) :
      ((item :: before ++ seen).filter (cmp · a == .lt)).dedup.length =
        ((before ++ item :: seen).filter (cmp · a == .lt)).dedup.length := by
    refine List.Perm.length_eq (List.Perm.dedup (List.Perm.filter _ ?_))
    exact List.perm_middle.symm
  constructor
  · intro h
    refine ⟨h [] item rest rfl, ?_⟩
    intro before other after hrest hother
    rw [← hlength]
    exact h (item :: before) other after (by rw [hrest]; rfl) ((hmem before other).mpr hother)
  · intro h before other after hstream hother
    obtain ⟨hfirst, hrest⟩ := h
    cases before with
    | nil =>
        cases hstream
        exact hfirst hother
    | cons first before =>
        obtain ⟨rfl, htail⟩ := List.cons.inj hstream
        rw [hlength]
        exact hrest before other after htail ((hmem before other).mp hother)

/-- **The count of a stream** is at least the number of its distinct items, and is that number
exactly when each item that comes again is remembered. -/
theorem counted_eq_iff {seen stream : List α} (h : IsBest cmp bound seen held)
    (hapart : Apart cmp same (stream ++ seen)) :
    (stream ++ seen).dedup.length ≤ seen.dedup.length + counted cmp same bound held stream ∧
      (seen.dedup.length + counted cmp same bound held stream = (stream ++ seen).dedup.length ↔
        Remembered cmp bound seen stream) := by
  induction stream generalizing seen held with
  | nil =>
      refine ⟨Nat.le_refl _, iff_of_true rfl ?_⟩
      intro before item after hnil
      cases before <;> cases hnil
  | cons item rest ih =>
      have hperm : (rest ++ item :: seen).Perm (item :: rest ++ seen) := List.perm_middle
      have hall : (rest ++ item :: seen).dedup.length = (item :: rest ++ seen).dedup.length :=
        hperm.dedup.length_eq
      have hseen : Apart cmp same (item :: seen) :=
        hapart.mono fun a ha => hperm.mem_iff.mp (List.mem_append_right _ ha)
      obtain ⟨hle, hiff⟩ := ih (h.offered hseen) (hapart.mono fun a ha => hperm.mem_iff.mp ha)
      rw [hall, distinct_cons] at hle hiff
      rw [counted, remembered_cons]
      by_cases hitem : item ∈ seen
      · rw [if_pos hitem, Nat.zero_add] at hle hiff
        by_cases hheld : item ∈ held
        · rw [if_pos ((any_same_iff hseen h.mem).mpr hheld), Nat.zero_add]
          refine ⟨hle, hiff.trans ?_⟩
          exact (and_iff_right fun _ => (h.mem_iff hitem).mp hheld).symm
        · rw [if_neg (by rw [any_same_iff hseen h.mem]; exact hheld)]
          refine ⟨by omega, ?_⟩
          constructor
          · intro heq
            omega
          · intro hall
            exact absurd ((h.mem_iff hitem).mpr (hall.1 hitem)) hheld
      · have hheld : item ∉ held := fun hheld => hitem (h.mem item hheld)
        rw [if_neg hitem] at hle hiff
        rw [if_neg (by rw [any_same_iff hseen h.mem]; exact hheld)]
        refine ⟨by omega, ?_⟩
        rw [and_iff_right (fun hmem => absurd hmem hitem), ← hiff]
        omega

end Counting

end Urma.Lib.Best
