import Mathlib.Data.List.Infix

/-!
# Programs that ask an environment

A program is finished, or asks its environment and goes on with the answer. Nothing is assumed of
the environment but what a statement says of its answers. `Holds` is the rule for what a program
asks and how it ends, by recursion on the program; `Trace` is what an observer of the calls sees,
also when the program is interrupted.
-/

namespace Urma.Lib

/-- A program with requests `Q`, whose answers have types `A`. -/
inductive Program (Q : Type) (A : Q → Type) (ε α : Type) where
  | done (result : Except ε α)
  | ask (request : Q) (next : A request → Program Q A ε α)

/-- A request and its answer. -/
abbrev Call (Q : Type) (A : Q → Type) := (request : Q) × A request

namespace Program

variable {Q : Type} {A : Q → Type} {ε ε' α β : Type}

/-! ## Composition -/

/-- One program after another; an error ends both. -/
def bind : Program Q A ε α → (α → Program Q A ε β) → Program Q A ε β
  | done (.ok a), next => next a
  | done (.error error), _ => done (.error error)
  | ask request rest, next => ask request fun answer => (rest answer).bind next

instance : Monad (Program Q A ε) where
  pure a := done (.ok a)
  bind := bind

/-- What a fallible function returns, without a call. -/
instance : MonadLift (Except ε) (Program Q A ε) := ⟨done⟩

/-- One call. -/
def call (request : Q) : Program Q A ε (A request) :=
  ask request fun answer => done (.ok answer)

/-- `return Err(error)`. -/
def fail (error : ε) : Program Q A ε α :=
  done (.error error)

/-- The result as a value: a `match` on a `Result`. -/
def attempt : Program Q A ε α → Program Q A ε' (Except ε α)
  | done result => done (.ok result)
  | ask request next => ask request fun answer => (next answer).attempt

/-- What is known after a `?`: the rest, or the error. -/
def orError (post : List (Call Q A) → Except ε β → Prop)
    (rest : List (Call Q A) → α → Prop) : List (Call Q A) → Except ε α → Prop
  | calls, .ok a => rest calls a
  | calls, .error error => post calls (.error error)

/-! ## What holds of a program -/

/-- As long as the answers satisfy `rely`, every request satisfies `guard` after the calls before
it, and the result satisfies `post` after all of them. -/
def Holds (rely : List (Call Q A) → Prop) (guard : List (Call Q A) → Q → Prop) :
    List (Call Q A) → Program Q A ε α → (List (Call Q A) → Except ε α → Prop) → Prop
  | calls, done result, post => post calls result
  | calls, ask request next, post => guard calls request ∧
      ∀ answer, rely (calls ++ [⟨request, answer⟩]) →
        Holds rely guard (calls ++ [⟨request, answer⟩]) (next answer) post

variable {rely : List (Call Q A) → Prop} {guard : List (Call Q A) → Q → Prop}
  {calls : List (Call Q A)} {p : Program Q A ε α} {next : α → Program Q A ε β}

@[simp] theorem holds_done {result : Except ε α} {post : List (Call Q A) → Except ε α → Prop} :
    Holds rely guard calls (done result) post ↔ post calls result := Iff.rfl

@[simp] theorem holds_pure {a : α} {post : List (Call Q A) → Except ε α → Prop} :
    Holds rely guard calls (pure a : Program Q A ε α) post ↔ post calls (.ok a) := Iff.rfl

@[simp] theorem holds_lift {result : Except ε α} {post : List (Call Q A) → Except ε α → Prop} :
    Holds rely guard calls (liftM result : Program Q A ε α) post ↔ post calls result := Iff.rfl

@[simp] theorem holds_call {request : Q}
    {post : List (Call Q A) → Except ε (A request) → Prop} :
    Holds rely guard calls (call request) post ↔ guard calls request ∧
      ∀ answer, rely (calls ++ [⟨request, answer⟩]) →
        post (calls ++ [⟨request, answer⟩]) (.ok answer) := Iff.rfl

/-- **Sequence.** What follows starts after the calls of the first program. -/
theorem holds_bind {post : List (Call Q A) → Except ε β → Prop} :
    Holds rely guard calls (p >>= next) post ↔
      Holds rely guard calls p
        (orError post fun calls a => Holds rely guard calls (next a) post) := by
  show Holds rely guard calls (p.bind next) post ↔ _
  induction p generalizing calls with
  | done result =>
      cases result with
      | ok a => exact Iff.rfl
      | error error => exact Iff.rfl
  | ask request rest ih =>
      simp only [Program.bind, Holds]
      exact and_congr_right fun _ => forall_congr' fun answer => imp_congr_right fun _ => ih answer

/-- **Catching.** The result of the program becomes a value. -/
theorem holds_attempt {post : List (Call Q A) → Except ε' (Except ε α) → Prop} :
    Holds rely guard calls (p.attempt : Program Q A ε' (Except ε α)) post ↔
      Holds rely guard calls p fun calls result => post calls (.ok result) := by
  induction p generalizing calls with
  | done result => exact Iff.rfl
  | ask request rest ih =>
      simp only [attempt, Holds]
      exact and_congr_right fun _ => forall_congr' fun answer => imp_congr_right fun _ => ih answer

/-- What is guarded by a fact that holds asks whatever it asks. -/
theorem holds_of_guard {condition : Prop} (h : condition) :
    Holds rely (fun _ _ => condition) calls p fun _ _ => True := by
  induction p generalizing calls with
  | done result => trivial
  | ask request rest ih => exact ⟨h, fun answer _ => ih answer⟩

/-- **Consequence.** The calls only grow. -/
theorem Holds.mono {post post' : List (Call Q A) → Except ε α → Prop}
    (h : Holds rely guard calls p post)
    (himp : ∀ more result, post (calls ++ more) result → post' (calls ++ more) result) :
    Holds rely guard calls p post' := by
  induction p generalizing calls with
  | done result =>
      have hdone := himp [] result
      rw [List.append_nil] at hdone
      exact hdone h
  | ask request rest ih =>
      refine ⟨h.1, ?_⟩
      intro answer hanswer
      apply ih answer (h.2 answer hanswer)
      intro more result hpost
      rw [List.append_assoc] at hpost ⊢
      exact himp _ result hpost

/-- A sequence, by a fact about the first program. -/
theorem Holds.bind {middle : List (Call Q A) → Except ε α → Prop}
    {post : List (Call Q A) → Except ε β → Prop} (h : Holds rely guard calls p middle)
    (hok : ∀ more a, middle (calls ++ more) (.ok a) →
      Holds rely guard (calls ++ more) (next a) post)
    (herror : ∀ more error, middle (calls ++ more) (.error error) →
      post (calls ++ more) (.error error)) :
    Holds rely guard calls (p >>= next) post := by
  rw [holds_bind]
  apply h.mono
  intro more result hmiddle
  cases result with
  | ok a => exact hok more a hmiddle
  | error error => exact herror more error hmiddle

/-! ## Results -/

/-- A statement about the value a program returns, and one about the calls of a run that fails. -/
def outcome (post : List (Call Q A) → α → Prop) (fault : List (Call Q A) → Prop) :
    List (Call Q A) → Except ε α → Prop
  | calls, .ok a => post calls a
  | calls, .error _ => fault calls

/-- A statement about the value a program returns, if it returns one. -/
abbrev returning (post : List (Call Q A) → α → Prop) : List (Call Q A) → Except ε α → Prop :=
  outcome post fun _ => True

variable {fault : List (Call Q A) → Prop}

@[simp] theorem outcome_ok {post : List (Call Q A) → α → Prop} {a : α} :
    outcome post fault calls (.ok a : Except ε α) ↔ post calls a := Iff.rfl

@[simp] theorem outcome_error {post : List (Call Q A) → α → Prop} {error : ε} :
    outcome post fault calls (.error error : Except ε α) ↔ fault calls := Iff.rfl

@[simp] theorem holds_fail {error : ε} {post : List (Call Q A) → α → Prop} :
    Holds rely guard calls (fail error : Program Q A ε α) (outcome post fault) ↔ fault calls :=
  Iff.rfl

/-- What a fallible function returns is a fact about the function. -/
theorem holds_lift_returning {result : Except ε α} {post : List (Call Q A) → α → Prop} :
    Holds rely guard calls (liftM result : Program Q A ε α) (returning post) ↔
      ∀ a, result = .ok a → post calls a := by
  rw [holds_lift]
  cases result with
  | ok a => simp
  | error error => simp

/-- A sequence of two programs with one kind of failure. -/
theorem Holds.andThen {middle : List (Call Q A) → α → Prop} {post : List (Call Q A) → β → Prop}
    (h : Holds rely guard calls p (outcome middle fault))
    (hnext : ∀ calls a, middle calls a → Holds rely guard calls (next a) (outcome post fault)) :
    Holds rely guard calls (p >>= next) (outcome post fault) := by
  apply h.bind
  · intro more a hmiddle
    exact hnext _ a hmiddle
  · intro more error hfault
    exact hfault

/-- A sequence through a stated fact. -/
theorem Holds.cut (middle : List (Call Q A) → α → Prop) {post : List (Call Q A) → β → Prop}
    (h : Holds rely guard calls p (outcome middle fault))
    (hnext : ∀ calls a, middle calls a → Holds rely guard calls (next a) (outcome post fault)) :
    Holds rely guard calls (p >>= next) (outcome post fault) :=
  h.andThen hnext

/-- Consequence, for what is returned. -/
theorem Holds.imp {post post' : List (Call Q A) → α → Prop}
    (h : Holds rely guard calls p (outcome post fault))
    (himp : ∀ calls a, post calls a → post' calls a) :
    Holds rely guard calls p (outcome post' fault) := by
  apply h.mono
  intro more result hpost
  cases result with
  | ok a => exact himp _ a hpost
  | error error => exact hpost

/-- The calls before a program are still there after it. -/
theorem Holds.grows {post : List (Call Q A) → α → Prop}
    (h : Holds rely guard calls p (outcome post fault)) :
    Holds rely guard calls p
      (outcome (fun calls' a => post calls' a ∧ calls <+: calls') fault) := by
  apply h.mono
  intro more result hpost
  cases result with
  | ok a => exact ⟨hpost, List.prefix_append calls more⟩
  | error error => exact hpost

/-! ## What an observer sees -/

/-- The calls of a run, and its result unless it was interrupted. -/
inductive Trace : Program Q A ε α → List (Call Q A) → Option (Except ε α) → Prop where
  | interrupted (p : Program Q A ε α) : Trace p [] none
  | done (result : Except ε α) : Trace (.done result) [] (some result)
  | ask (request : Q) (next : A request → Program Q A ε α) (answer : A request)
      {calls : List (Call Q A)} {result : Option (Except ε α)} :
      Trace (next answer) calls result →
        Trace (.ask request next) (⟨request, answer⟩ :: calls) result

/-- **Every request of a run is guarded.** -/
theorem Trace.guarded {post : List (Call Q A) → Except ε α → Prop} {run : List (Call Q A)}
    {result : Option (Except ε α)} (hrun : Trace p run result)
    (h : Holds rely guard calls p post)
    (hrely : ∀ before after, run = before ++ after → rely (calls ++ before)) :
    ∀ before request answer after, run = before ++ ⟨request, answer⟩ :: after →
      guard (calls ++ before) request := by
  induction hrun generalizing calls with
  | interrupted p =>
      intro before request answer after hsplit
      cases before <;> cases hsplit
  | done result =>
      intro before request answer after hsplit
      cases before <;> cases hsplit
  | ask asked next given hrest ih =>
      intro before request answer after hsplit
      cases before with
      | nil =>
          cases hsplit
          rw [List.append_nil]
          exact h.1
      | cons first before =>
          obtain ⟨rfl, rfl⟩ := List.cons.inj hsplit
          have hfirst := hrely [⟨asked, given⟩] _ rfl
          have hguard := ih (h.2 given hfirst) (fun b a hba => by
            have hb := hrely (⟨asked, given⟩ :: b) a (congrArg _ hba)
            rwa [List.append_assoc]) before request answer after rfl
          rwa [List.append_assoc] at hguard

/-- **A finished run ends as it should.** -/
theorem Trace.finished {post : List (Call Q A) → Except ε α → Prop} {run : List (Call Q A)}
    {result : Except ε α} (hrun : Trace p run (some result))
    (h : Holds rely guard calls p post)
    (hrely : ∀ before after, run = before ++ after → rely (calls ++ before)) :
    post (calls ++ run) result := by
  generalize hsome : some result = outcome at hrun
  induction hrun generalizing calls with
  | interrupted p => cases hsome
  | done other =>
      cases hsome
      rw [List.append_nil]
      exact h
  | ask asked next given hrest ih =>
      have hfirst := hrely [⟨asked, given⟩] _ rfl
      have hpost := ih (h.2 given hfirst) (fun b a hba => by
        have hb := hrely (⟨asked, given⟩ :: b) a (congrArg _ hba)
        rwa [List.append_assoc]) hsome
      rwa [List.append_assoc] at hpost

/-- A finished sequence is a finished run of its first program, then one of the rest. -/
theorem Trace.bind_ok {run : List (Call Q A)} {b : β}
    (h : Trace (p >>= next) run (some (.ok b))) :
    ∃ a before after, run = before ++ after ∧ Trace p before (some (.ok a)) ∧
      Trace (next a) after (some (.ok b)) := by
  have hbind : Trace (p.bind next) run (some (.ok b)) := h
  induction p generalizing run with
  | done result =>
      cases result with
      | ok a => exact ⟨a, [], run, rfl, Trace.done _, hbind⟩
      | error error => cases hbind
  | ask request rest ih =>
      cases hbind with
      | ask _ _ answer hrest =>
          obtain ⟨a, before, after, rfl, hbefore, hafter⟩ := ih answer hrest hrest
          exact ⟨a, ⟨request, answer⟩ :: before, after, rfl, Trace.ask request rest answer hbefore,
            hafter⟩

/-! ## Running against an environment -/

/-- The run of a program against an environment that answers by what was asked before. -/
def run (environment : List (Call Q A) → (request : Q) → A request) :
    List (Call Q A) → Program Q A ε α → List (Call Q A) × Except ε α
  | _, done result => ([], result)
  | calls, ask request next =>
      let answer := environment calls request
      let rest := run environment (calls ++ [⟨request, answer⟩]) (next answer)
      (⟨request, answer⟩ :: rest.1, rest.2)

/-- Every program comes to an end against every environment. -/
theorem run_trace (environment : List (Call Q A) → (request : Q) → A request) :
    Trace p (run environment calls p).1 (some (run environment calls p).2) := by
  induction p generalizing calls with
  | done result => exact Trace.done result
  | ask request next ih => exact Trace.ask request next _ (ih _)

/-- **Every answer of a run is the environment's.** -/
theorem run_answers (environment : List (Call Q A) → (request : Q) → A request) :
    ∀ before request answer after, (run environment calls p).1 = before ++ ⟨request, answer⟩ :: after →
      answer = environment (calls ++ before) request := by
  induction p generalizing calls with
  | done result =>
      intro before request answer after hsplit
      cases before <;> cases hsplit
  | ask asked next ih =>
      intro before request answer after hsplit
      cases before with
      | nil =>
          cases hsplit
          rw [List.append_nil]
      | cons first before =>
          obtain ⟨rfl, hrest⟩ := List.cons.inj hsplit
          have hanswer := ih _ before request answer after hrest
          rwa [List.append_assoc] at hanswer

end Program

end Urma.Lib
