import Mathlib.Data.List.Basic

/-!
# Two runs that see the same relevant inputs

A machine folds a list of inputs into its state. An observer tells some inputs apart from
the rest, the relevant ones. If irrelevant inputs keep a relation between the states of two
runs on either side, and a relevant input handled on both sides keeps it, then any two runs
with the same relevant inputs, in the same order, end related.

The relation may also speak of the inputs each side has still to handle; that is where
hypotheses on the whole input (freshness, distinctness) live.
-/

namespace Urma.Lib.Noninterference

variable {S I : Type} {step : S → I → S} {relevant : I → Bool}

/-- What a relation between two runs has to satisfy. -/
structure Unwinding (step : S → I → S) (relevant : I → Bool)
    (R : S → List I → S → List I → Prop) : Prop where
  left : ∀ {s x xs t ys}, relevant x = false → R s (x :: xs) t ys → R (step s x) xs t ys
  right : ∀ {s xs t y ys}, relevant y = false → R s xs t (y :: ys) → R s xs (step t y) ys
  both : ∀ {s x xs t ys}, relevant x = true → R s (x :: xs) t (x :: ys) →
    R (step s x) xs (step t x) ys

variable {R : S → List I → S → List I → Prop}

/-- Irrelevant inputs on the right may be handled first. -/
theorem Unwinding.skip_right (h : Unwinding step relevant R) {s t : S} {xs ys rest : List I}
    (hirrelevant : ∀ y ∈ ys, relevant y = false) (hr : R s xs t (ys ++ rest)) :
    R s xs (ys.foldl step t) rest := by
  induction ys generalizing t with
  | nil => exact hr
  | cons y ys ih =>
      rw [List.foldl_cons]
      apply ih
      · intro z hz
        exact hirrelevant z (List.mem_cons_of_mem y hz)
      · exact h.right (hirrelevant y List.mem_cons_self) hr

/-- **Runs with the same relevant inputs end related.** -/
theorem Unwinding.run (h : Unwinding step relevant R) {s t : S} {xs ys : List I}
    (hsame : xs.filter relevant = ys.filter relevant) (hr : R s xs t ys) :
    R (xs.foldl step s) [] (ys.foldl step t) [] := by
  induction xs generalizing s t ys with
  | nil =>
      -- nothing relevant is left on the right
      have hirrelevant : ∀ y ∈ ys, relevant y = false := by
        intro y hy
        have hnone := List.filter_eq_nil_iff.mp hsame.symm y hy
        simpa using hnone
      apply h.skip_right hirrelevant
      rw [List.append_nil]
      exact hr
  | cons x xs ih =>
      cases hx : relevant x with
      | false =>
          rw [List.filter_cons_of_neg (by rw [hx]; exact Bool.false_ne_true)] at hsame
          exact ih hsame (h.left hx hr)
      | true =>
          -- catch up on the right to the same input
          rw [List.filter_cons_of_pos hx] at hsame
          obtain ⟨before, after, rfl, hbefore, _, hafter⟩ :=
            List.filter_eq_cons_iff.mp hsame.symm
          have hskip : R s (x :: xs) (before.foldl step t) (x :: after) := by
            apply h.skip_right ?_ hr
            intro y hy
            have hnot := hbefore y hy
            simpa using hnot
          rw [List.foldl_append, List.foldl_cons, List.foldl_cons]
          exact ih hafter.symm (h.both hx hskip)

end Urma.Lib.Noninterference
