import Mathlib.Data.Nat.Notation

/-!
# Where a JSON text ends

What a reader of JSON knows of the bytes it has read: how many brackets are open, and whether it is
in a string. A text of a whole value leaves no bracket open, and nothing but space follows it.

A text that is broken off has a bracket or a string open, or is whole, and no object written after
it closes that: in a string, the first quote of the object ends the string, and from there on what
was in a string is outside and what was outside is in one.
-/

namespace Urma.Lib.JsonText

/-- What is known after some bytes. -/
inductive Lex where
  /-- Outside strings, with this many brackets open. -/
  | bare (depth : ℕ)
  /-- In a string. -/
  | quoted (depth : ℕ)
  /-- In a string, after a backslash. -/
  | escaped (depth : ℕ)
  /-- After the last bracket. -/
  | closed
  deriving DecidableEq, Repr

/-- The space of the grammar. -/
def isSpace (byte : UInt8) : Bool :=
  byte == 0x20 || byte == 0x0a || byte == 0x0d || byte == 0x09

/-- A bracket is closed. -/
def close : ℕ → Option Lex
  | 0 => none
  | 1 => some .closed
  | depth + 2 => some (.bare (depth + 1))

/-- One byte more. -/
def step (state : Lex) (byte : UInt8) : Option Lex :=
  match state with
  | .bare depth =>
      if byte = 0x22 then some (.quoted depth)
      else if byte = 0x5c then none
      else if byte = 0x7b ∨ byte = 0x5b then some (.bare (depth + 1))
      else if byte = 0x7d ∨ byte = 0x5d then close depth
      else some (.bare depth)
  | .quoted depth =>
      if byte = 0x22 then some (.bare depth)
      else if byte = 0x5c then some (.escaped depth)
      else some (.quoted depth)
  | .escaped depth => some (.quoted depth)
  | .closed => if isSpace byte then some .closed else none

/-- Some bytes more. -/
def scan : Lex → List UInt8 → Option Lex
  | state, [] => some state
  | state, byte :: bytes => (step state byte).bind fun state => scan state bytes

/-- The brackets and the strings of a whole text are closed. -/
def Whole (bytes : List UInt8) : Prop :=
  scan (.bare 0) bytes = some .closed ∨ scan (.bare 0) bytes = some (.bare 0)

instance (bytes : List UInt8) : Decidable (Whole bytes) :=
  inferInstanceAs (Decidable (_ ∨ _))

/-- The text of an object with a key, without space after it. -/
structure IsObject (text : List UInt8) : Prop where
  opens : ∃ rest, text = 0x7b :: 0x22 :: rest
  closes : scan (.bare 0) text = some .closed

theorem scan_append (state : Lex) (bytes more : List UInt8) :
    scan state (bytes ++ more) = (scan state bytes).bind fun state => scan state more := by
  induction bytes generalizing state with
  | nil => rfl
  | cons byte bytes ih =>
      simp only [List.cons_append, scan]
      cases step state byte with
      | none => rfl
      | some next => exact ih next

/-! ## Inside an object -/

/-- A bracket has been opened, and was closed only as the last one. -/
def Lex.Begun : Lex → Prop
  | .bare depth | .quoted depth | .escaped depth => 0 < depth
  | .closed => True

theorem close_begun {depth : ℕ} {next : Lex} (h : close depth = some next) : next.Begun := by
  match depth, h with
  | 1, h =>
      cases h
      trivial
  | depth + 2, h =>
      cases h
      exact Nat.succ_pos depth

theorem step_begun {state next : Lex} {byte : UInt8} (hstate : state.Begun)
    (h : step state byte = some next) : next.Begun := by
  cases state with
  | bare depth =>
      simp only [step] at h
      split at h
      · cases h
        exact hstate
      split at h
      · cases h
      split at h
      · cases h
        exact Nat.succ_pos depth
      split at h
      · exact close_begun h
      · cases h
        exact hstate
  | quoted depth =>
      simp only [step] at h
      split at h
      · cases h
        exact hstate
      split at h <;> cases h <;> exact hstate
  | escaped depth =>
      cases h
      exact hstate
  | closed =>
      simp only [step, Option.ite_none_right_eq_some] at h
      cases h.2
      trivial

theorem scan_begun {state next : Lex} {bytes : List UInt8} (hstate : state.Begun)
    (h : scan state bytes = some next) : next.Begun := by
  induction bytes generalizing state with
  | nil =>
      cases h
      exact hstate
  | cons byte bytes ih =>
      obtain ⟨after, hafter, hrest⟩ := Option.bind_eq_some_iff.mp h
      exact ih (step_begun hstate hafter) hrest

/-! ## With more brackets open -/

/-- The state with as many brackets more. -/
def Lex.under (depth : ℕ) : Lex → Lex
  | .bare inner => .bare (inner + depth)
  | .quoted inner => .quoted (inner + depth)
  | .escaped inner => .escaped (inner + depth)
  | .closed => .bare depth

theorem close_under {depth inner : ℕ} (hdepth : 0 < depth) {next : Lex}
    (h : close inner = some next) : close (inner + depth) = some (next.under depth) := by
  match inner, h with
  | 1, h =>
      cases h
      obtain ⟨depth, rfl⟩ := Nat.exists_eq_add_one.mpr hdepth
      rw [Nat.add_comm 1]
      rfl
  | inner + 2, h =>
      cases h
      rw [Nat.add_right_comm]
      show some (Lex.bare (inner + depth + 1)) = some (.bare (inner + 1 + depth))
      rw [Nat.add_right_comm]

theorem step_under {depth : ℕ} (hdepth : 0 < depth) {state next : Lex} {byte : UInt8}
    (h : step state byte = some next) :
    step (state.under depth) byte = some (next.under depth) := by
  cases state with
  | bare inner =>
      simp only [step, Lex.under] at h ⊢
      split at h
      · next hquote =>
        cases h
        rw [if_pos hquote]
      next hquote =>
      split at h
      · cases h
      next hslash =>
      rw [if_neg hquote, if_neg hslash]
      split at h
      · next hopen =>
        cases h
        rw [if_pos hopen, Nat.add_right_comm]
      next hopen =>
      rw [if_neg hopen]
      split at h
      · next hclose =>
        rw [if_pos hclose]
        exact close_under hdepth h
      · next hclose =>
        cases h
        rw [if_neg hclose]
  | quoted inner =>
      simp only [step, Lex.under] at h ⊢
      split at h
      · next hquote =>
        cases h
        rw [if_pos hquote]
      next hquote =>
      rw [if_neg hquote]
      split at h
      · next hslash =>
        cases h
        rw [if_pos hslash]
      · next hslash =>
        cases h
        rw [if_neg hslash]
  | escaped inner =>
      cases h
      rfl
  | closed =>
      simp only [step, Option.ite_none_right_eq_some] at h
      obtain ⟨hspace, hnext⟩ := h
      cases hnext
      simp only [isSpace, Bool.or_eq_true, beq_iff_eq] at hspace
      rcases hspace with ((rfl | rfl) | rfl) | rfl <;> rfl

/-- A text is read the same way with brackets open around it. -/
theorem scan_under {depth : ℕ} (hdepth : 0 < depth) {state next : Lex} {bytes : List UInt8}
    (h : scan state bytes = some next) :
    scan (state.under depth) bytes = some (next.under depth) := by
  induction bytes generalizing state with
  | nil =>
      cases h
      rfl
  | cons byte bytes ih =>
      obtain ⟨after, hafter, hrest⟩ := Option.bind_eq_some_iff.mp h
      rw [scan, step_under hdepth hafter, Option.bind_some]
      exact ih hrest

/-! ## With strings and the rest exchanged -/

/-- One of the two is in a string and the other is not. -/
inductive Flipped : Lex → Lex → Prop where
  | quoted (depth other : ℕ) : Flipped (.quoted depth) (.bare other)
  | quotedClosed (depth : ℕ) : Flipped (.quoted depth) .closed
  | bare (depth other : ℕ) : Flipped (.bare depth) (.quoted other)
  | closed (other : ℕ) : Flipped .closed (.quoted other)

/-- A state in a string is flipped by every state outside. -/
theorem Flipped.of_close {depth other : ℕ} {next : Lex} (h : close other = some next) :
    Flipped (.quoted depth) next := by
  match other, h with
  | 1, h =>
      cases h
      exact .quotedClosed depth
  | other + 2, h =>
      cases h
      exact .quoted depth _

theorem Flipped.close_of {depth other : ℕ} {next : Lex} (h : JsonText.close depth = some next) :
    Flipped next (.quoted other) := by
  match depth, h with
  | 1, h =>
      cases h
      exact .closed other
  | depth + 2, h =>
      cases h
      exact .bare _ other

/-- A byte that is read by both keeps them apart: outside of strings there is no backslash. -/
theorem Flipped.step {state other next next' : Lex} {byte : UInt8} (hflip : Flipped state other)
    (h : step state byte = some next) (h' : JsonText.step other byte = some next') :
    Flipped next next' := by
  cases hflip with
  | quoted depth other =>
      simp only [JsonText.step] at h h'
      split at h'
      · next hquote =>
        cases h'
        rw [if_pos hquote] at h
        cases h
        exact .bare depth other
      next hquote =>
      split at h'
      · cases h'
      next hslash =>
      rw [if_neg hquote, if_neg hslash] at h
      cases h
      split at h'
      · cases h'
        exact .quoted depth _
      split at h'
      · exact .of_close h'
      · cases h'
        exact .quoted depth other
  | quotedClosed depth =>
      simp only [JsonText.step, Option.ite_none_right_eq_some] at h h'
      obtain ⟨hspace, hnext⟩ := h'
      cases hnext
      simp only [isSpace, Bool.or_eq_true, beq_iff_eq] at hspace
      rcases hspace with ((rfl | rfl) | rfl) | rfl <;> cases h <;> exact .quotedClosed depth
  | bare depth other =>
      simp only [JsonText.step] at h h'
      split at h
      · next hquote =>
        cases h
        rw [if_pos hquote] at h'
        cases h'
        exact .quoted depth other
      next hquote =>
      split at h
      · cases h
      next hslash =>
      rw [if_neg hquote, if_neg hslash] at h'
      cases h'
      split at h
      · cases h
        exact .bare _ other
      split at h
      · exact .close_of h
      · cases h
        exact .bare depth other
  | closed other =>
      simp only [JsonText.step, Option.ite_none_right_eq_some] at h h'
      obtain ⟨hspace, hnext⟩ := h
      cases hnext
      simp only [isSpace, Bool.or_eq_true, beq_iff_eq] at hspace
      rcases hspace with ((rfl | rfl) | rfl) | rfl <;> cases h' <;> exact .closed other

theorem Flipped.scan {state other next next' : Lex} {bytes : List UInt8}
    (hflip : Flipped state other) (h : scan state bytes = some next)
    (h' : JsonText.scan other bytes = some next') : Flipped next next' := by
  induction bytes generalizing state other with
  | nil =>
      cases h
      cases h'
      exact hflip
  | cons byte bytes ih =>
      obtain ⟨after, hafter, hrest⟩ := Option.bind_eq_some_iff.mp h
      obtain ⟨after', hafter', hrest'⟩ := Option.bind_eq_some_iff.mp h'
      exact ih (hflip.step hafter hafter') hrest hrest'

/-! ## An object after a broken text -/

/-- **An object closes nothing** of what was open before it, nor does it follow a whole text. -/
theorem scan_object {state next : Lex} {text : List UInt8} (hstate : state.Begun)
    (hobject : IsObject text) (h : scan state (text ++ [0x0a]) = some next) :
    next ≠ .closed ∧ next ≠ .bare 0 := by
  obtain ⟨⟨rest, rfl⟩, hcloses⟩ := hobject
  rw [scan_append, Option.bind_eq_some_iff] at h
  obtain ⟨last, hlast, hspace⟩ := h
  -- in a string, the first quote of the object flips what follows
  have hflipped : ∀ depth, scan (.quoted depth) (0x22 :: rest) = some last →
      next ≠ .closed ∧ next ≠ .bare 0 := by
    intro depth hrest
    have hflip : Flipped .closed last := (Flipped.quoted 1 depth).scan hcloses hrest
    cases hflip
    cases hspace
    exact ⟨nofun, nofun⟩
  cases state with
  | bare depth =>
      have hunder := scan_under hstate hcloses
      rw [Lex.under, Nat.zero_add, hlast] at hunder
      cases hunder
      cases hspace
      exact ⟨nofun, fun heq => absurd (Lex.bare.inj heq) (Nat.ne_of_gt hstate)⟩
  | quoted depth => exact hflipped depth hlast
  | escaped depth => exact hflipped depth hlast
  | closed => cases hlast

/-- **A broken object and an object after it are no text.** -/
theorem not_whole_append {broken text : List UInt8} (hobject : IsObject text)
    (hopens : ∃ rest, broken = 0x7b :: rest) : ¬ Whole (broken ++ (text ++ [0x0a])) := by
  obtain ⟨rest, rfl⟩ := hopens
  have hends : ∀ next, scan (.bare 0) (0x7b :: rest ++ (text ++ [0x0a])) = some next →
      next ≠ .closed ∧ next ≠ .bare 0 := by
    intro next h
    rw [scan_append, Option.bind_eq_some_iff] at h
    obtain ⟨state, hstate, htext⟩ := h
    exact scan_object (@scan_begun (.bare 1) state rest Nat.one_pos hstate) hobject htext
  intro hwhole
  rcases hwhole with hclosed | hbare
  · exact (hends _ hclosed).1 rfl
  · exact (hends _ hbare).2 rfl

end Urma.Lib.JsonText
