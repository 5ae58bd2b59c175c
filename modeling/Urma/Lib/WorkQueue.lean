import Mathlib.Algebra.GroupWithZero.Nat
import Mathlib.Data.List.Basic
import Mathlib.Data.Nat.Notation
import Mathlib.Logic.Relation

/-!
# Work drawn from a shared counter

Workers draw positions from a counter that only rises, and what each draws moves from place to
place: it is in a worker's hands, on its way, or arrived. A `Ledger` says that every position drawn
so far is in exactly one place. Drawing and moving keep it, so nothing is drawn twice, nothing is
lost, and when all places but the last are empty everything has arrived.
-/

namespace Urma.Lib.WorkQueue

/-! ## The ledger -/

/-- Of `total` positions, those below the counter are tallied once and the others not at all. -/
def Ledger (total drawn : ℕ) (tally : ℕ → ℕ) : Prop :=
  ∀ position, tally position = if position < drawn ∧ position < total then 1 else 0

namespace Ledger

variable {total drawn : ℕ} {tally moved : ℕ → ℕ}

theorem start (total : ℕ) : Ledger total 0 fun _ => 0 := by
  intro position
  rw [if_neg (by omega)]

/-- What is moved from one place to another stays tallied. -/
theorem move (h : Ledger total drawn tally) (heq : ∀ position, moved position = tally position) :
    Ledger total drawn moved := by
  intro position
  rw [heq, h]

/-- A position that is drawn has no place yet. -/
theorem draw (h : Ledger total drawn tally) (hdrawn : drawn < total)
    (heq : ∀ position, moved position = tally position + if position = drawn then 1 else 0) :
    Ledger total (drawn + 1) moved := by
  intro position
  rw [heq, h]
  split <;> split <;> split <;> omega

/-- Past the end, a draw yields nothing. -/
theorem past (h : Ledger total drawn tally) (hdrawn : total ≤ drawn)
    (heq : ∀ position, moved position = tally position) : Ledger total (drawn + 1) moved := by
  intro position
  rw [heq, h]
  split <;> split <;> omega

theorem le_one (h : Ledger total drawn tally) (position : ℕ) : tally position ≤ 1 := by
  rw [h]
  split <;> omega

/-- Only a position of the work is anywhere. -/
theorem lt_of_pos (h : Ledger total drawn tally) {position : ℕ} (hpos : 0 < tally position) :
    position < drawn ∧ position < total := by
  rw [h] at hpos
  by_contra hnot
  rw [if_neg hnot] at hpos
  omega

/-- Once the counter has passed the end, every position is somewhere. -/
theorem eq_one (h : Ledger total drawn tally) (hdrawn : total ≤ drawn) {position : ℕ}
    (hposition : position < total) : tally position = 1 := by
  rw [h, if_pos ⟨by omega, hposition⟩]

end Ledger

/-! ## Conservation

Whatever a position weighs, what the places hold together with what is still to be drawn weighs as
much as all the work. The weight of one position is its tally. -/

/-- What is still to be drawn. -/
def undrawn (total drawn : ℕ) (weight : ℕ → ℕ) : ℕ :=
  (((List.range total).drop drawn).map weight).sum

theorem undrawn_zero (total : ℕ) (weight : ℕ → ℕ) :
    undrawn total 0 weight = ((List.range total).map weight).sum := by
  rw [undrawn, List.drop_zero]

theorem undrawn_draw {total drawn : ℕ} (h : drawn < total) (weight : ℕ → ℕ) :
    undrawn total drawn weight = weight drawn + undrawn total (drawn + 1) weight := by
  have hlt : drawn < (List.range total).length := by rwa [List.length_range]
  rw [undrawn, undrawn, List.drop_eq_getElem_cons hlt, List.map_cons, List.sum_cons,
    List.getElem_range]

theorem undrawn_past {total drawn : ℕ} (h : total ≤ drawn) (weight : ℕ → ℕ) :
    undrawn total drawn weight = 0 := by
  rw [undrawn, List.drop_eq_nil_of_le (by rwa [List.length_range])]
  rfl

/-- What the places hold and what is to be drawn make up the work, for every weight. -/
def Conserved (total drawn : ℕ) (held : (ℕ → ℕ) → ℕ) : Prop :=
  ∀ weight, held weight + undrawn total drawn weight = ((List.range total).map weight).sum

namespace Conserved

variable {total drawn : ℕ} {held moved : (ℕ → ℕ) → ℕ}

theorem start (total : ℕ) : Conserved total 0 fun _ => 0 := by
  intro weight
  rw [undrawn_zero, Nat.zero_add]

theorem move (h : Conserved total drawn held) (heq : ∀ weight, moved weight = held weight) :
    Conserved total drawn moved := by
  intro weight
  rw [heq, h]

theorem draw (h : Conserved total drawn held) (hdrawn : drawn < total)
    (heq : ∀ weight, moved weight = held weight + weight drawn) :
    Conserved total (drawn + 1) moved := by
  intro weight
  have := h weight
  rw [undrawn_draw hdrawn] at this
  rw [heq]
  omega

theorem past (h : Conserved total drawn held) (hdrawn : total ≤ drawn)
    (heq : ∀ weight, moved weight = held weight) : Conserved total (drawn + 1) moved := by
  intro weight
  have := h weight
  rw [undrawn_past hdrawn] at this
  rw [heq, undrawn_past (Nat.le_succ_of_le hdrawn), this]

/-- Once everything is drawn, a list that holds all there is holds each position once. -/
theorem perm {arrived : List ℕ} (h : Conserved total drawn fun weight => (arrived.map weight).sum)
    (hdrawn : total ≤ drawn) : arrived.Perm (List.range total) := by
  have hcount : ∀ (positions : List ℕ) (position : ℕ),
      positions.count position =
        (positions.map fun other => if other = position then 1 else 0).sum := by
    intro positions position
    induction positions with
    | nil => rfl
    | cons other positions ih =>
        rw [List.count_cons, List.map_cons, List.sum_cons, ih]
        simp only [beq_iff_eq]
        omega
  rw [List.perm_iff_count]
  intro position
  have := h fun other => if other = position then 1 else 0
  rw [undrawn_past hdrawn, Nat.add_zero] at this
  rw [hcount, hcount]
  exact this

end Conserved

/-! ## Runs that end -/

variable {S : Type} {step : S → S → Prop} {measure : S → ℕ}

/-- A run of so many steps. -/
inductive Steps (step : S → S → Prop) : ℕ → S → S → Prop where
  | refl (state : S) : Steps step 0 state state
  | tail {count : ℕ} {first middle last : S} :
      Steps step count first middle → step middle last → Steps step (count + 1) first last

/-- What holds at the start and is kept by every step holds after every run. -/
theorem invariant_of_reachable {Holds : S → Prop} {first last : S} (hfirst : Holds first)
    (hstep : ∀ state next, Holds state → step state next → Holds next)
    (hrun : Relation.ReflTransGen step first last) : Holds last := by
  induction hrun with
  | refl => exact hfirst
  | tail _ hlast ih => exact hstep _ _ ih hlast

/-- When every step lowers a measure, no run has more steps than the measure it starts with. -/
theorem Steps.length_le (hstep : ∀ state next, step state next → measure next < measure state)
    {count : ℕ} {first last : S} (hrun : Steps step count first last) :
    count + measure last ≤ measure first := by
  induction hrun with
  | refl => omega
  | tail _ hlast ih =>
      have := hstep _ _ hlast
      omega

end Urma.Lib.WorkQueue
