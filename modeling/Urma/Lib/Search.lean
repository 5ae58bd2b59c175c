import Mathlib.Data.Nat.Notation

/-!
# Searching a text for a pattern

A pattern is given by the match it has at the start of a text. A search goes through the text from
the left: where there is a match it is taken, and the search goes on behind it.

Where there is a match, the search finds it or is in the middle of another one (`findIter_covers`).
This holds also of a search through a part of the text, where what decides whether there is a match
is still in that part (`findIter_window`).
-/

namespace Urma.Lib.Search

variable {α : Type}

/-- A pattern without look-around, which takes at least one element. -/
structure Pattern (α : Type) where
  /-- The length of the match that starts a text. -/
  pick : List α → Option ℕ
  pos : ∀ text n, pick text = some n → 0 < n
  le : ∀ text n, pick text = some n → n ≤ text.length
  /-- What follows does not undo a match, but it may change its length. -/
  more : ∀ text rest, (pick text).isSome → (pick (text ++ rest)).isSome

namespace Pattern

variable (pattern : Pattern α)

/-- Whether there is a match is decided by so many elements. -/
def Decided (reach : ℕ) : Prop :=
  ∀ text, (pattern.pick text).isSome → (pattern.pick (text.take reach)).isSome

theorem pick_nil : pattern.pick [] = none := by
  cases h : pattern.pick [] with
  | none => rfl
  | some n => exact absurd (pattern.le [] n h) (Nat.not_le.mpr (pattern.pos [] n h))

/-- The search from a position on, after so many elements that belong to the last match. -/
def findFrom : ℕ → ℕ → List α → List (ℕ × ℕ)
  | _, _, [] => []
  | position, skip + 1, _ :: text => findFrom (position + 1) skip text
  | position, 0, a :: text =>
      match pattern.pick (a :: text) with
      | some n => (position, n) :: findFrom (position + 1) (n - 1) text
      | none => findFrom (position + 1) 0 text

/-- The starts and the lengths of the matches that a search finds. -/
def findIter (text : List α) : List (ℕ × ℕ) :=
  pattern.findFrom 0 0 text

variable {pattern}

/-! ## What is found -/

theorem findFrom_sound {position skip q n : ℕ} {text : List α}
    (h : (q, n) ∈ pattern.findFrom position skip text) :
    position ≤ q ∧ pattern.pick (text.drop (q - position)) = some n := by
  induction text generalizing position skip with
  | nil => cases h
  | cons a text ih =>
      have hnext : ∀ skip, (q, n) ∈ pattern.findFrom (position + 1) skip text →
          position ≤ q ∧ pattern.pick ((a :: text).drop (q - position)) = some n := by
        intro skip hmem
        obtain ⟨hle, hpick⟩ := ih hmem
        obtain ⟨further, rfl⟩ := Nat.exists_eq_add_of_le hle
        refine ⟨by omega, ?_⟩
        rw [show position + 1 + further - position = further + 1 by omega, List.drop_succ_cons]
        rwa [Nat.add_sub_cancel_left] at hpick
      cases skip with
      | succ skip => exact hnext skip h
      | zero =>
          rw [findFrom] at h
          split at h
          · next found hfound =>
            rcases List.mem_cons.mp h with heq | hmem
            · cases heq
              exact ⟨Nat.le_refl q, by rw [Nat.sub_self]; exact hfound⟩
            · exact hnext _ hmem
          · exact hnext 0 h

/-- What is found is a match. -/
theorem findIter_sound {q n : ℕ} {text : List α} (h : (q, n) ∈ pattern.findIter text) :
    pattern.pick (text.drop q) = some n :=
  (findFrom_sound h).2

theorem findFrom_covers {position skip s : ℕ} {text : List α}
    (h : (pattern.pick (text.drop s)).isSome) (hskip : skip ≤ s) :
    ∃ q n, (q, n) ∈ pattern.findFrom position skip text ∧ q ≤ position + s ∧
      position + s < q + n := by
  induction text generalizing position skip s with
  | nil =>
      rw [List.drop_nil, pick_nil] at h
      cases h
  | cons a text ih =>
      cases skip with
      | succ skip =>
          obtain ⟨s, rfl⟩ : ∃ before, s = before + 1 :=
            Nat.exists_eq_add_one.mpr (Nat.lt_of_lt_of_le (Nat.succ_pos skip) hskip)
          obtain ⟨q, n, hmem, hle, hlt⟩ :=
            @ih (position + 1) skip s h (Nat.le_of_succ_le_succ hskip)
          exact ⟨q, n, hmem, by omega, by omega⟩
      | zero =>
          rw [findFrom]
          cases hfound : pattern.pick (a :: text) with
          | some n =>
              -- the match is taken, and reaches the position or ends before it
              rcases Nat.lt_or_ge s n with hlt | hge
              · exact ⟨position, n, List.mem_cons_self, Nat.le_add_right _ _,
                  Nat.add_lt_add_left hlt _⟩
              · have hpos := pattern.pos _ _ hfound
                obtain ⟨s, rfl⟩ : ∃ before, s = before + 1 :=
                  Nat.exists_eq_add_one.mpr (Nat.lt_of_lt_of_le hpos hge)
                obtain ⟨q, m, hmem, hle, hlt⟩ := @ih (position + 1) (n - 1) s h (by omega)
                exact ⟨q, m, List.mem_cons_of_mem _ hmem, by omega, by omega⟩
          | none =>
              cases s with
              | zero =>
                  rw [List.drop_zero, hfound] at h
                  cases h
              | succ s =>
                  obtain ⟨q, n, hmem, hle, hlt⟩ := @ih (position + 1) 0 s h (Nat.zero_le s)
                  exact ⟨q, n, hmem, by omega, by omega⟩

/-- **Every match is found**, or is in the middle of one that is. -/
theorem findIter_covers {s : ℕ} {text : List α} (h : (pattern.pick (text.drop s)).isSome) :
    ∃ q n, (q, n) ∈ pattern.findIter text ∧ q ≤ s ∧ s < q + n := by
  obtain ⟨q, n, hmem, hle, hlt⟩ := @findFrom_covers _ _ 0 0 s text h (Nat.zero_le s)
  rw [Nat.zero_add] at hle hlt
  exact ⟨q, n, hmem, hle, hlt⟩

/-! ## A part of a text -/

/-- What is found in a part is a match in the text. -/
theorem findIter_part {text : List α} {start size q n : ℕ}
    (h : (q, n) ∈ pattern.findIter ((text.drop start).take size)) :
    (pattern.pick (text.drop (start + q))).isSome := by
  have hpart := findIter_sound h
  have hsplit : text.drop (start + q) =
      ((text.drop start).take size).drop q ++ (text.drop (start + q)).drop (size - q) := by
    rw [List.drop_take, List.drop_drop, List.take_append_drop]
  rw [hsplit]
  exact pattern.more _ _ (by rw [hpart]; rfl)

/-- **A match is found in a part** that holds what decides it, or goes to the end. -/
theorem findIter_window {reach : ℕ} (hdecided : pattern.Decided reach) {text : List α}
    {start size s : ℕ} (hstart : start ≤ s)
    (hend : s + reach ≤ start + size ∨ text.length ≤ start + size)
    (h : (pattern.pick (text.drop s)).isSome) :
    ∃ q n, (q, n) ∈ pattern.findIter ((text.drop start).take size) ∧ start + q ≤ s ∧
      s < start + q + n := by
  obtain ⟨further, rfl⟩ := Nat.exists_eq_add_of_le hstart
  have hpart : ((text.drop start).take size).drop further =
      (text.drop (start + further)).take (size - further) := by
    rw [List.drop_take, List.drop_drop]
  have hstarts : (pattern.pick (((text.drop start).take size).drop further)).isSome := by
    rw [hpart]
    rcases hend with hreach | hlength
    · have hsplit : (text.drop (start + further)).take (size - further) =
          (text.drop (start + further)).take reach ++
            ((text.drop (start + further)).take (size - further)).drop reach := by
        have htake : ((text.drop (start + further)).take (size - further)).take reach =
            (text.drop (start + further)).take reach := by
          rw [List.take_take, Nat.min_eq_left (by omega)]
        rw [← htake, List.take_append_drop]
      rw [hsplit]
      exact pattern.more _ _ (hdecided _ h)
    · rw [List.take_of_length_le]
      · exact h
      · rw [List.length_drop]
        omega
  obtain ⟨q, n, hmem, hle, hlt⟩ := findIter_covers hstarts
  exact ⟨q, n, hmem, by omega, by omega⟩

end Pattern

end Urma.Lib.Search
