import Mathlib.Data.Finset.Card
import Mathlib.Data.List.Infix

/-!
# A two-phase quorum

A switch with two phases. Voters cast ballots for a phase; a ballot for the phase the
switch is already in, and a second ballot of the same voter, count for nothing. When the
voters against the current phase reach the quorum the switch flips and the votes are
cleared.

`flip_quorum` is what such a switch is for: between two flips, and before the first one, a
full quorum of distinct voters asked for the second.
-/

namespace Urma.Lib.Quorum

variable {K : Type} [DecidableEq K]

/-- The current phase, and who voted for leaving it since it began. -/
structure Tally (K : Type) where
  phase : Bool
  votes : Finset K
  deriving DecidableEq

/-- The initial phase, with no votes. -/
def Tally.initial : Tally K := ⟨false, ∅⟩

/-- Cast one ballot: a voter and the phase asked for. -/
def Tally.cast (quorum : Nat) (tally : Tally K) (ballot : K × Bool) : Tally K :=
  if ballot.2 = tally.phase then tally
  else if ballot.1 ∈ tally.votes then tally
  else if quorum ≤ (insert ballot.1 tally.votes).card then ⟨ballot.2, ∅⟩
  else ⟨tally.phase, insert ballot.1 tally.votes⟩

/-- Cast ballots in order. -/
def run (quorum : Nat) (ballots : List (K × Bool)) : Tally K :=
  ballots.foldl (Tally.cast quorum) .initial

theorem run_snoc (quorum : Nat) (ballots : List (K × Bool)) (ballot : K × Bool) :
    run quorum (ballots ++ [ballot]) = (run quorum ballots).cast quorum ballot := by
  unfold run
  rw [List.foldl_append]
  rfl

/-! ## One ballot -/

/-- A ballot either leaves the phase alone, adding at most its own voter to the votes
against it, or flips the switch to the phase it asks for and clears the votes. -/
theorem Tally.cast_cases (quorum : Nat) (tally : Tally K) (ballot : K × Bool) :
    ((tally.cast quorum ballot).phase = tally.phase ∧
      ∀ k ∈ (tally.cast quorum ballot).votes,
        k ∈ tally.votes ∨ (k = ballot.1 ∧ ballot.2 = !tally.phase)) ∨
    (ballot.2 = !tally.phase ∧ (tally.cast quorum ballot) = ⟨!tally.phase, ∅⟩ ∧
      quorum ≤ (insert ballot.1 tally.votes).card) := by
  unfold Tally.cast
  split
  · exact Or.inl ⟨rfl, fun k hk => Or.inl hk⟩
  · next hphase =>
    have hother : ballot.2 = !tally.phase := by
      cases hb : ballot.2 <;> cases ht : tally.phase <;> simp_all
    split
    · exact Or.inl ⟨rfl, fun k hk => Or.inl hk⟩
    · split
      · next hquorum => exact Or.inr ⟨hother, by rw [hother], hquorum⟩
      · refine Or.inl ⟨rfl, fun k hk => ?_⟩
        rcases Finset.mem_insert.mp hk with rfl | hk
        · exact Or.inr ⟨rfl, hother⟩
        · exact Or.inl hk

/-! ## Runs -/

/-- `since` is the part of the ballots cast since the last flip: the phase is constant on
it, and it begins at the first ballot or right after a ballot that flipped. -/
structure SinceFlip (quorum : Nat) (before since : List (K × Bool)) : Prop where
  constant : ∀ part, part <+: since →
    (run quorum (before ++ part)).phase = (run quorum (before ++ since)).phase
  begins : before = [] ∨ ∃ earlier flip, before = earlier ++ [flip] ∧
    (run quorum earlier).phase ≠ (run quorum before).phase

theorem SinceFlip.snoc {quorum : Nat} {before since : List (K × Bool)}
    (h : SinceFlip quorum before since) {ballot : K × Bool}
    (hphase : (run quorum (before ++ since ++ [ballot])).phase =
      (run quorum (before ++ since)).phase) :
    SinceFlip quorum before (since ++ [ballot]) := by
  refine ⟨?_, h.begins⟩
  intro part hpart
  rw [← List.append_assoc, hphase]
  rcases List.prefix_concat_iff.mp hpart with rfl | hpart
  · rw [← List.append_assoc, hphase]
  · exact h.constant part hpart

theorem SinceFlip.fresh {quorum : Nat} {ballots : List (K × Bool)} {flip : K × Bool}
    (h : (run quorum ballots).phase ≠ (run quorum (ballots ++ [flip])).phase) :
    SinceFlip quorum (ballots ++ [flip]) [] := by
  refine ⟨?_, Or.inr ⟨ballots, flip, rfl, h⟩⟩
  intro part hpart
  rw [List.prefix_nil.mp hpart]

/-- The votes against the current phase were cast since the last flip. -/
theorem votes_since (quorum : Nat) (ballots : List (K × Bool)) :
    ∃ before since, ballots = before ++ since ∧ SinceFlip quorum before since ∧
      ∀ k ∈ (run quorum ballots).votes, (k, !(run quorum ballots).phase) ∈ since := by
  induction ballots using List.reverseRecOn with
  | nil =>
      refine ⟨[], [], rfl, ⟨fun part hpart => ?_, Or.inl rfl⟩, fun k hk => ?_⟩
      · rw [List.prefix_nil.mp hpart]
      · simp [run, Tally.initial] at hk
  | append_singleton ballots ballot ih =>
      obtain ⟨before, since, rfl, hsince, hvotes⟩ := ih
      rw [run_snoc]
      rcases Tally.cast_cases quorum (run quorum (before ++ since)) ballot with
        ⟨hphase, hnew⟩ | ⟨_, hflip, _⟩
      · refine ⟨before, since ++ [ballot], List.append_assoc _ _ _,
          hsince.snoc (by rw [run_snoc]; exact hphase), ?_⟩
        intro k hk
        rw [hphase, List.mem_append]
        rcases hnew k hk with hk | ⟨rfl, hballot⟩
        · exact Or.inl (hvotes k hk)
        · right
          rw [← hballot]
          exact List.mem_singleton_self _
      · refine ⟨(before ++ since) ++ [ballot], [], by rw [List.append_nil],
          .fresh ?_, fun k hk => ?_⟩
        · rw [run_snoc, hflip]
          simp
        · rw [hflip] at hk
          simp at hk

/-- **A flip needs a quorum.** When a ballot flips the switch, at least `quorum` distinct
voters have asked for the new phase since the last flip. -/
theorem flip_quorum {quorum : Nat} {ballots : List (K × Bool)} {ballot : K × Bool}
    (h : (run quorum (ballots ++ [ballot])).phase ≠ (run quorum ballots).phase) :
    ∃ before since, ballots = before ++ since ∧ SinceFlip quorum before since ∧
      ∃ voters : Finset K, quorum ≤ voters.card ∧
        ∀ k ∈ voters, (k, (run quorum (ballots ++ [ballot])).phase) ∈ since ++ [ballot] := by
  obtain ⟨before, since, hsplit, hsince, hvotes⟩ := votes_since quorum ballots
  rw [run_snoc] at h ⊢
  rcases Tally.cast_cases quorum (run quorum ballots) ballot with
    ⟨hphase, _⟩ | ⟨hballot, hflip, hquorum⟩
  · exact absurd hphase h
  · refine ⟨before, since, hsplit, hsince, _, hquorum, fun k hk => ?_⟩
    rw [hflip, List.mem_append]
    rcases Finset.mem_insert.mp hk with rfl | hk
    · right
      rw [← hballot]
      exact List.mem_singleton_self _
    · exact Or.inl (hvotes k hk)

end Urma.Lib.Quorum
