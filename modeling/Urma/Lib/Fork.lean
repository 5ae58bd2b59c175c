import Mathlib.Data.List.Basic
import Mathlib.Data.List.Chain
import Mathlib.Data.Nat.Notation

/-!
# Forks of linked lists

Two lists that start with one element and grow by a relation under which every element has one
parent agree up to a fork and have no element in common after it. `shared` counts the elements up
to the fork.
-/

namespace Urma.Lib.Fork

variable {α : Type*} [DecidableEq α] {xs ys : List α}

/-! ## What two lists share -/

/-- The number of leading elements that two lists have in common. -/
def shared : List α → List α → ℕ
  | x :: xs, y :: ys => if x = y then shared xs ys + 1 else 0
  | _, _ => 0

@[simp] theorem shared_nil_left : shared [] ys = 0 := rfl

@[simp] theorem shared_nil_right : shared xs [] = 0 := by
  cases xs <;> rfl

@[simp] theorem shared_cons_self (x : α) : shared (x :: xs) (x :: ys) = shared xs ys + 1 :=
  if_pos rfl

theorem shared_cons_of_ne {x y : α} (h : x ≠ y) : shared (x :: xs) (y :: ys) = 0 :=
  if_neg h

theorem shared_comm (xs ys : List α) : shared xs ys = shared ys xs := by
  induction xs generalizing ys with
  | nil => rw [shared_nil_left, shared_nil_right]
  | cons x xs ih =>
      cases ys with
      | nil => rfl
      | cons y ys =>
          by_cases h : x = y
          · rw [h, shared_cons_self, shared_cons_self, ih]
          · rw [shared_cons_of_ne h, shared_cons_of_ne (Ne.symm h)]

theorem shared_le_left (xs ys : List α) : shared xs ys ≤ xs.length := by
  induction xs generalizing ys with
  | nil => exact Nat.le_refl _
  | cons x xs ih =>
      cases ys with
      | nil => exact Nat.zero_le _
      | cons y ys =>
          by_cases h : x = y
          · rw [h, shared_cons_self]
            exact Nat.succ_le_succ (ih ys)
          · rw [shared_cons_of_ne h]
            exact Nat.zero_le _

theorem shared_le_right (xs ys : List α) : shared xs ys ≤ ys.length := by
  rw [shared_comm]
  exact shared_le_left ys xs

/-- Both lists start with what they share. -/
theorem take_shared (xs ys : List α) : xs.take (shared xs ys) = ys.take (shared xs ys) := by
  induction xs generalizing ys with
  | nil => rw [shared_nil_left, List.take_zero, List.take_zero]
  | cons x xs ih =>
      cases ys with
      | nil => rfl
      | cons y ys =>
          by_cases h : x = y
          · rw [h, shared_cons_self, List.take_succ_cons, List.take_succ_cons, ih]
          · rw [shared_cons_of_ne h, List.take_zero, List.take_zero]

theorem getElem?_of_lt_shared {n : ℕ} (h : n < shared xs ys) : xs[n]? = ys[n]? := by
  have htake := congrArg (fun zs => zs[n]?) (take_shared xs ys)
  rwa [List.getElem?_take_of_lt h, List.getElem?_take_of_lt h] at htake

/-- One more element in common after those known to be is one more shared. -/
theorem lt_shared {n : ℕ} {x : α} (h : n ≤ shared xs ys) (hx : xs[n]? = some x)
    (hy : ys[n]? = some x) : n < shared xs ys := by
  induction n generalizing xs ys with
  | zero =>
      cases xs with
      | nil => cases hx
      | cons a xs =>
          cases ys with
          | nil => cases hy
          | cons b ys =>
              cases hx
              cases hy
              rw [shared_cons_self]
              exact Nat.succ_pos _
  | succ n ih =>
      cases xs with
      | nil => cases hx
      | cons a xs =>
          cases ys with
          | nil => cases hy
          | cons b ys =>
              by_cases hab : a = b
              · rw [hab, shared_cons_self] at h ⊢
                exact Nat.succ_lt_succ (ih (Nat.le_of_succ_le_succ h) hx hy)
              · rw [shared_cons_of_ne hab] at h
                omega

theorem shared_append (zs xs ys : List α) :
    shared (zs ++ xs) (zs ++ ys) = zs.length + shared xs ys := by
  induction zs with
  | nil => exact (Nat.zero_add _).symm
  | cons z zs ih =>
      rw [List.cons_append, List.cons_append, shared_cons_self, ih, List.length_cons]
      omega

theorem shared_drop {n : ℕ} (h : n ≤ shared xs ys) :
    shared (xs.drop n) (ys.drop n) = shared xs ys - n := by
  have hxs := List.take_append_drop n xs
  have hys := List.take_append_drop n ys
  have htake : xs.take n = ys.take n := by
    have hshared := congrArg (List.take n) (take_shared xs ys)
    rwa [List.take_take, List.take_take, Nat.min_eq_left h] at hshared
  have hlength : (ys.take n).length = n := by
    rw [List.length_take]
    exact Nat.min_eq_left (h.trans (shared_le_right xs ys))
  have happend := shared_append (ys.take n) (xs.drop n) (ys.drop n)
  rw [← htake, hxs, htake, hys, hlength] at happend
  omega

theorem shared_take (n : ℕ) (xs ys : List α) : shared (xs.take n) ys = min n (shared xs ys) := by
  induction n generalizing xs ys with
  | zero => rw [List.take_zero, shared_nil_left, Nat.zero_min]
  | succ n ih =>
      cases xs with
      | nil => rw [List.take_nil, shared_nil_left, Nat.min_zero]
      | cons x xs =>
          cases ys with
          | nil => rw [shared_nil_right, shared_nil_right, Nat.min_zero]
          | cons y ys =>
              rw [List.take_succ_cons]
              by_cases h : x = y
              · rw [h, shared_cons_self, shared_cons_self, ih]
                omega
              · rw [shared_cons_of_ne h, shared_cons_of_ne h, Nat.min_zero]

theorem shared_self (xs : List α) : shared xs xs = xs.length := by
  induction xs with
  | nil => rfl
  | cons x xs ih => rw [shared_cons_self, ih, List.length_cons]

/-- A list and the start of it share the start. -/
theorem shared_take_self {n : ℕ} (h : n ≤ xs.length) : shared (xs.take n) xs = n := by
  rw [shared_take, shared_self]
  exact Nat.min_eq_left h

/-! ## Linked lists -/

variable {next : α → α → Prop} {play : α → Prop}

/-- Among the elements in play each has one parent, and none comes before itself. -/
structure Parental (next : α → α → Prop) (play : α → Prop) : Prop where
  parent : ∀ {a b c}, play a → play b → play c → next a c → next b c → a = b
  ranked : ∃ rank : α → ℕ, ∀ {a b}, play a → play b → next a b → rank a < rank b

omit [DecidableEq α] in
/-- The first element of a linked list does not come again. -/
theorem Parental.head_once (h : Parental next play) (hxs : xs.IsChain next)
    (hplay : ∀ a ∈ xs, play a) {a : α} (hhead : xs.head? = some a) {i : ℕ}
    (hi : xs[i]? = some a) : i = 0 := by
  obtain ⟨rank, hrank⟩ := h.ranked
  have hlt : ∀ (i : ℕ) (b : α), xs[i + 1]? = some b → rank a < rank b := by
    intro i
    induction i with
    | zero =>
        intro b hb
        obtain ⟨hlength, rfl⟩ := List.getElem?_eq_some_iff.mp hb
        have hfirst : xs[0] = a := by
          rw [List.head?_eq_getElem?, List.getElem?_eq_getElem (by omega)] at hhead
          exact Option.some.inj hhead
        have hlink := List.isChain_iff_getElem.mp hxs 0 hlength
        rw [hfirst] at hlink
        exact hrank (hplay a (hfirst ▸ List.getElem_mem _)) (hplay _ (List.getElem_mem _)) hlink
    | succ i ih =>
        intro b hb
        obtain ⟨hlength, rfl⟩ := List.getElem?_eq_some_iff.mp hb
        have hbefore := ih _ (List.getElem?_eq_getElem (Nat.lt_of_succ_lt hlength))
        exact hbefore.trans (hrank (hplay _ (List.getElem_mem _)) (hplay _ (List.getElem_mem _))
          (List.isChain_iff_getElem.mp hxs (i + 1) hlength))
  cases i with
  | zero => rfl
  | succ i => exact absurd (hlt i a hi) (Nat.lt_irrefl _)

/-- **No element after the fork is common**: one that both lists have stands at one place in both,
before the fork. -/
theorem Parental.same_place (h : Parental next play) (hxs : xs.IsChain next)
    (hys : ys.IsChain next) (hplayX : ∀ a ∈ xs, play a) (hplayY : ∀ a ∈ ys, play a)
    (hhead : xs.head? = ys.head?) {i j : ℕ} {a : α} (hi : xs[i]? = some a)
    (hj : ys[j]? = some a) : i = j ∧ i < shared xs ys := by
  induction i generalizing j a with
  | zero =>
      have hfirst : xs.head? = some a := by rw [List.head?_eq_getElem?, hi]
      have hplace := h.head_once hys hplayY (hhead ▸ hfirst) hj
      exact ⟨hplace.symm, lt_shared (Nat.zero_le _) hi (hplace ▸ hj)⟩
  | succ i ih =>
      cases j with
      | zero =>
          have hfirst : xs.head? = some a := by rw [hhead, List.head?_eq_getElem?, hj]
          exact absurd (h.head_once hxs hplayX hfirst hi) (Nat.succ_ne_zero i)
      | succ j =>
          obtain ⟨hlengthX, hx⟩ := List.getElem?_eq_some_iff.mp hi
          obtain ⟨hlengthY, hy⟩ := List.getElem?_eq_some_iff.mp hj
          have hlinkX := List.isChain_iff_getElem.mp hxs i hlengthX
          have hlinkY := List.isChain_iff_getElem.mp hys j hlengthY
          rw [hx] at hlinkX
          rw [hy] at hlinkY
          have hparent := h.parent (hplayX _ (List.getElem_mem _)) (hplayY _ (List.getElem_mem _))
            (hplayX a (hx ▸ List.getElem_mem _)) hlinkX hlinkY
          have hbefore := ih (List.getElem?_eq_getElem (Nat.lt_of_succ_lt hlengthX))
            (hparent ▸ List.getElem?_eq_getElem (Nat.lt_of_succ_lt hlengthY))
          obtain ⟨rfl, hshared⟩ := hbefore
          exact ⟨rfl, lt_shared hshared hi hj⟩

end Urma.Lib.Fork
