import Mathlib.Data.Nat.Notation

/-!
# Programs on a state that may fail

What a program has done to its state before it fails stays done. `Ends` says how a program ends that
is started in a state; `keeping` is the form of what is known afterwards: an invariant in any case,
and a fact about the value where there is one. A sequence needs the invariant from both parts and
passes the fact on.
-/

namespace Urma.Lib

/-- Programs on states `σ` that fail with `ε`. -/
abbrev Stateful (σ ε : Type) : Type → Type := ExceptT ε (StateM σ)

namespace Stateful

variable {σ ε ε' α β : Type}

/-- The result of a program and the state it leaves. -/
def outcome (p : Stateful σ ε α) (s : σ) : Except ε α × σ :=
  p.run.run s

/-- The program of a function on the state. -/
def ofOutcome (f : σ → Except ε α × σ) : Stateful σ ε α :=
  ExceptT.mk f

/-- A fallible value. -/
def lift (result : Except ε α) : Stateful σ ε α :=
  ofOutcome fun s => (result, s)

/-- A `match` on the result of a program: a failure becomes a value. -/
def attempt (p : Stateful σ ε α) : Stateful σ ε' (Except ε α) :=
  ofOutcome fun s => (.ok (outcome p s).1, (outcome p s).2)

/-! ## How a program ends -/

/-- Started in a state, the program ends with a result and a state as stated. -/
def Ends (p : Stateful σ ε α) (s : σ) (post : Except ε α → σ → Prop) : Prop :=
  post (outcome p s).1 (outcome p s).2

/-- The invariant holds, and what is stated of the value where there is one. -/
def keeping (inv : σ → Prop) (post : α → σ → Prop) : Except ε α → σ → Prop
  | .ok a, s => inv s ∧ post a s
  | .error _, s => inv s

/-- Only the invariant is stated. -/
abbrev kept (inv : σ → Prop) : Except ε α → σ → Prop :=
  keeping inv fun _ _ => True

variable {inv : σ → Prop} {p : Stateful σ ε α} {next : α → Stateful σ ε β} {s : σ}
  {post : Except ε α → σ → Prop}

@[simp] theorem ends_pure {a : α} : Ends (pure a : Stateful σ ε α) s post ↔ post (.ok a) s :=
  Iff.rfl

@[simp] theorem ends_throw {error : ε} :
    Ends (throw error : Stateful σ ε α) s post ↔ post (.error error) s := Iff.rfl

@[simp] theorem ends_lift {result : Except ε α} :
    Ends (lift result : Stateful σ ε α) s post ↔ post result s := Iff.rfl

@[simp] theorem ends_ofOutcome {f : σ → Except ε α × σ} :
    Ends (ofOutcome f) s post ↔ post (f s).1 (f s).2 := Iff.rfl

@[simp] theorem ends_modify {f : σ → σ} {post : Except ε PUnit → σ → Prop} :
    Ends (modify f : Stateful σ ε PUnit) s post ↔ post (.ok ⟨⟩) (f s) := Iff.rfl

/-- What follows a look at the state. -/
@[simp] theorem ends_get_bind {next : σ → Stateful σ ε β} {post : Except ε β → σ → Prop} :
    Ends (get >>= next) s post ↔ Ends (next s) s post := Iff.rfl

/-- What follows a change of the state. -/
@[simp] theorem ends_modify_bind {f : σ → σ} {next : PUnit → Stateful σ ε β}
    {post : Except ε β → σ → Prop} :
    Ends (modify f >>= next) s post ↔ Ends (next ⟨⟩) (f s) post := Iff.rfl

@[simp] theorem keeping_ok {post : α → σ → Prop} {a : α} :
    keeping inv post (.ok a : Except ε α) s ↔ inv s ∧ post a s := Iff.rfl

@[simp] theorem keeping_error {post : α → σ → Prop} {error : ε} :
    keeping inv post (.error error : Except ε α) s ↔ inv s := Iff.rfl

/-! ## Rules -/

theorem Ends.mono {post' : Except ε α → σ → Prop} (h : Ends p s post)
    (himp : ∀ result s, post result s → post' result s) : Ends p s post' :=
  himp _ _ h

theorem outcome_bind : outcome (p >>= next) s =
    match outcome p s with
    | (.ok a, s) => outcome (next a) s
    | (.error error, s) => (.error error, s) := by
  show (ExceptT.bindCont next (outcome p s).1).run (outcome p s).2 = _
  obtain ⟨result, s'⟩ := outcome p s
  cases result <;> rfl

/-- **Sequence.** The second program starts where the first one ends, unless that failed. -/
theorem Ends.bind {post : Except ε β → σ → Prop} {middle : Except ε α → σ → Prop}
    (h : Ends p s middle) (hok : ∀ a s, middle (.ok a) s → Ends (next a) s post)
    (herror : ∀ error s, middle (.error error) s → post (.error error) s) :
    Ends (p >>= next) s post := by
  rw [Ends] at h
  rw [Ends, outcome_bind]
  generalize outcome p s = ended at h ⊢
  obtain ⟨result, s'⟩ := ended
  cases result with
  | ok a => exact hok a s' h
  | error error => exact herror error s' h

/-- A fallible value that is there. -/
theorem outcome_lift {result : Except ε α} {a : α} (h : result = .ok a) :
    outcome (lift result) s = (.ok a, s) := by
  rw [h]
  rfl

/-- **Going on** after a program that succeeds. -/
theorem Ends.after {post : Except ε β → σ → Prop} {a : α} {s' : σ}
    (h : outcome p s = (.ok a, s')) (hnext : Ends (next a) s' post) :
    Ends (p >>= next) s post := by
  rw [Ends, outcome_bind, h]
  exact hnext

/-- How a sequence ends depends on the second program only where the first one can end. -/
theorem Ends.congr {middle : α → σ → Prop} {other : α → Stateful σ ε β}
    (h : Ends p s (keeping inv middle))
    (hsame : ∀ a s, inv s → middle a s → outcome (next a) s = outcome (other a) s) :
    outcome (p >>= next) s = outcome (p >>= other) s := by
  rw [outcome_bind, outcome_bind]
  rw [Ends] at h
  generalize outcome p s = ended at h ⊢
  obtain ⟨result, s'⟩ := ended
  cases result with
  | ok a => exact hsame a s' h.1 h.2
  | error error => rfl

/-- **Sequence, keeping an invariant.** -/
theorem Ends.seq {middle : α → σ → Prop} {post : β → σ → Prop}
    (h : Ends p s (keeping inv middle))
    (hnext : ∀ a s, inv s → middle a s → Ends (next a) s (keeping inv post)) :
    Ends (p >>= next) s (keeping inv post) := by
  apply h.bind
  · intro a s hmiddle
    exact hnext a s hmiddle.1 hmiddle.2
  · intro error s hinv
    exact hinv

/-- A result that is caught is stated as it was. -/
@[simp] theorem ends_attempt {post : Except ε' (Except ε α) → σ → Prop} :
    Ends (attempt p : Stateful σ ε' (Except ε α)) s post ↔
      Ends p s fun result s => post (.ok result) s := Iff.rfl

/-- **Catching.** The invariant holds also where the caught program failed. -/
theorem Ends.attempt {post : α → σ → Prop} (h : Ends p s (keeping inv post)) :
    Ends (attempt p : Stateful σ ε' (Except ε α)) s
      (keeping inv fun result s => ∀ a, result = .ok a → post a s) := by
  rw [ends_attempt]
  apply h.mono
  intro result s hpost
  cases result with
  | ok a =>
      refine ⟨hpost.1, ?_⟩
      intro a' ha
      cases ha
      exact hpost.2
  | error error => exact ⟨hpost, nofun⟩

/-- What is stated of the value may be weakened, knowing the invariant. -/
theorem Ends.weaken {middle post : α → σ → Prop} (h : Ends p s (keeping inv middle))
    (himp : ∀ a s, inv s → middle a s → post a s) : Ends p s (keeping inv post) := by
  apply h.mono
  intro result s hmiddle
  cases result with
  | ok a => exact ⟨hmiddle.1, himp a s hmiddle.1 hmiddle.2⟩
  | error error => exact hmiddle

/-- The invariant of the state a program leaves. -/
theorem Ends.invariant {post : α → σ → Prop} (h : Ends p s (keeping inv post)) :
    inv (outcome p s).2 := by
  rw [Ends] at h
  generalize outcome p s = ended at h ⊢
  obtain ⟨result, s'⟩ := ended
  cases result with
  | ok a => exact h.1
  | error error => exact h

/-- What is stated of the value a program returns. -/
theorem Ends.value {post : α → σ → Prop} (h : Ends p s (keeping inv post)) {a : α}
    (ha : (outcome p s).1 = .ok a) : post a (outcome p s).2 := by
  rw [Ends, ha] at h
  exact h.2

end Stateful

end Urma.Lib
