import Urma.Runtime.WalkSafety

/-!
# What the phases of a walk do to its states

What submitting one record adds to the states of a session, whatever the node and the journal
answer, and under which condition anything is asked at all. A submission that is not observed
afterwards blocks the walk.
-/

namespace Urma.Runtime

open Chain Lib Program

/-! ## Submitting -/

variable {crates : PublishCrates} {node : Node} {plan : DiskPlan} {pairs : List BufferedPair}
  {session session' : Session} {pair : BufferedPair} {phases phases' : Phases} {index : ℕ}
  {calls : Calls} {condition : Prop}

/-- The states of a session, commits and reveals in turn. -/
def Session.states (session : Session) : List State :=
  session.progress.observations.map Observation.state

/-- The node reports a transaction that is looked for as confirmed. -/
def FoundConfirmed (calls : Calls) : Prop :=
  ∃ (txid : Txid) (presence : Presence),
    ⟨.presenceCached txid, .ok presence⟩ ∈ calls ∧ IsConfirmed presence

/-- A program that asks only while a condition holds, and what it returns. -/
abbrev Asks (condition : Prop) (calls : Calls) {α : Type} (p : Publishing α)
    (post : Calls → α → Prop) : Prop :=
  Holds (fun _ => True) (fun _ _ => condition) calls p (returning post)

theorem asks_of_condition (h : condition) {α : Type} (p : Publishing α) :
    Asks condition calls p fun _ _ => True := by
  apply (holds_of_guard h).mono
  intro more result _
  cases result with
  | ok value => trivial
  | error error => trivial

/-- A call for which nothing is assumed. -/
theorem asks_ask (h : condition) (request : Request) :
    Asks condition calls (ask request) fun calls' value =>
      ⟨request, .ok value⟩ ∈ calls' :=
  holds_ask.mpr ⟨h, fun _ _ => List.mem_append_right _ List.mem_cons_self⟩

/-- A reason blocks the walk. -/
def Session.isBlocked (session : Session) : Bool :=
  !session.progress.report.blockedReason.isEmpty

theorem isBlocked_block {reason : String} (session : Session) (h : reason.isEmpty = false) :
    (session.block reason).isBlocked := by
  show (!reason.isEmpty) = true
  rw [h, Bool.not_false]

/-- What a function that lists nothing leaves of a session. -/
structure Unlisted (session session' : Session) : Prop where
  states : session'.states = session.states
  isBlocked : session'.isBlocked = session.isBlocked

theorem Unlisted.refl (session : Session) : Unlisted session session :=
  ⟨rfl, rfl⟩

theorem remember_asks (h : condition) (session : Session) (txid : Txid) (presence : Presence) :
    Asks condition calls (session.remember txid presence) fun calls' session' =>
      Unlisted session session' ∧ calls <+: calls' := by
  rw [Session.remember]
  split
  · exact ⟨Unlisted.refl session, List.prefix_refl calls⟩
  · apply Holds.cut fun calls' _ => calls <+: calls'
    · exact holds_ask.mpr ⟨h, fun _ _ => List.prefix_append calls _⟩
    · intro calls' _ hcalls
      exact ⟨⟨rfl, rfl⟩, hcalls⟩

/-- What a submission returns: a presence that was answered, and a session that is blocked where
the transaction is missing after all. -/
structure Sought (session : Session) (calls' : Calls) (result : Presence × Session) : Prop where
  states : result.2.states = session.states
  confirmed : IsConfirmed result.1 → FoundConfirmed calls'
  blocked : result.1 = .missing → result.2.isBlocked

theorem submission_asks (h : condition) (session : Session) (raw : String) (txid : Txid) :
    Asks condition calls (session.submission crates node raw txid) (Sought session) := by
  rw [Session.submission]
  apply Holds.andThen (remember_asks h session txid .missing)
  intro calls' remembered hremembered
  apply Holds.andThen (asks_of_condition h (broadcast crates node raw))
  intro calls' reason _
  split
  · apply Holds.andThen (asks_ask h (.presenceCached txid))
    intro calls' presence hmem
    have hfound : IsConfirmed presence → FoundConfirmed calls' :=
      fun hconfirmed => ⟨txid, presence, hmem, hconfirmed⟩
    split
    · exact ⟨hremembered.1.states, hfound, fun _ => isBlocked_block remembered (by decide)⟩
    · next hpresent => exact ⟨hremembered.1.states, hfound, fun hmissing =>
        absurd (beq_iff_eq.mpr hmissing) hpresent⟩
  · refine ⟨hremembered.1.states, ?_, ?_⟩
    · intro hconfirmed
      obtain ⟨height, blockHash, hmissing⟩ := hconfirmed
      cases hmissing
    · intro _
      exact isBlocked_block _ (not_isEmpty_append (by decide))

/-- What looking at a transaction adds to the session: its state, confirmed only if the node has
said so. -/
structure Looked (session : Session) (calls' : Calls) (result : State × Session) : Prop where
  states : result.2.states = session.states ++ [result.1]
  confirmed : result.1 = .confirmed → FoundConfirmed calls'

theorem state_available {presence : Presence} {attempted : Bool}
    (h : (state presence attempted).isAvailable = false) : presence = .missing := by
  cases presence with
  | missing => rfl
  | mempool => cases h
  | confirmed height blockHash => cases h

theorem state_confirmed {presence : Presence} {attempted : Bool}
    (h : state presence attempted = .confirmed) : IsConfirmed presence := by
  cases presence with
  | missing =>
      rw [state] at h
      split at h <;> cases h
  | mempool => cases h
  | confirmed height blockHash => exact ⟨height, blockHash, rfl⟩

/-- What was seen is listed, and what blocks goes on to. -/
theorem record_asks (h : condition) (session : Session) (txid : Txid) (role : Role)
    (presence : Presence) (hfound : IsConfirmed presence → FoundConfirmed calls) :
    Asks condition calls (session.record txid role presence) fun calls' result =>
      Looked session calls' result ∧ result.2.isBlocked = session.isBlocked ∧
        (result.1.isAvailable = false → presence = .missing) := by
  have hend : ∀ (calls' : Calls) (remembered : Session),
      Unlisted session remembered ∧ calls <+: calls' →
        Looked session calls' (state presence (session.history.contains txid),
          (remembered.pushTransaction ⟨txid, presence⟩).push
            ⟨txid, role, state presence (session.history.contains txid)⟩) ∧
          ((remembered.pushTransaction ⟨txid, presence⟩).push
            ⟨txid, role, state presence (session.history.contains txid)⟩).isBlocked =
              session.isBlocked ∧
          ((state presence (session.history.contains txid)).isAvailable = false →
            presence = .missing) := by
    intro calls' remembered hremembered
    refine ⟨⟨?_, ?_⟩, hremembered.1.isBlocked, state_available⟩
    · show (remembered.progress.observations ++ [_]).map Observation.state = _
      rw [List.map_append]
      exact congrArg (· ++ [_]) hremembered.1.states
    · intro hconfirmed
      obtain ⟨asked, answered, hmem, hanswered⟩ := hfound (state_confirmed hconfirmed)
      exact ⟨asked, answered, hremembered.2.subset hmem, hanswered⟩
  rw [Session.record]
  dsimp only
  split
  · exact (remember_asks h session txid presence).andThen hend
  · exact hend calls session ⟨Unlisted.refl session, List.prefix_refl calls⟩

theorem not_isEmpty_append_left {text reason : String} (h : text ≠ "") :
    (text ++ reason).isEmpty = false := by
  rw [Bool.eq_false_iff]
  intro hempty
  apply h
  exact (String.append_eq_empty_iff.mp (String.isEmpty_iff.mp hempty)).1

/-- **One transaction.** One that may be submitted and is not available in the end blocks. -/
theorem transaction_asks (h : condition) (session : Session) (raw : String) (role : Role)
    (eligible : Bool) :
    Asks condition calls (session.transaction crates node raw role eligible) fun calls' result =>
      Looked session calls' result ∧
        (eligible → result.1.isAvailable = false → result.2.isBlocked) := by
  rw [Session.transaction]
  apply Holds.cut (fun _ _ => True) (holds_lift_returning.mpr fun _ _ => trivial)
  intro calls' decoded _
  rw [holds_bind, holds_call]
  refine ⟨h, ?_⟩
  intro answer _
  cases answer with
  | error error =>
      refine ⟨⟨?_, fun hconfirmed => by cases hconfirmed⟩, fun _ _ => ?_⟩
      · show (session.progress.observations ++ [_]).map Observation.state = _
        rw [List.map_append]
        rfl
      · have hreason : ("source unavailable: " ++ toString error.text).isEmpty = false :=
          not_isEmpty_append_left (by decide)
        exact isBlocked_block _ hreason
  | ok presence =>
      have hmem : (⟨.presenceCached (crates.reveal.consensus.computeTxid decoded), .ok presence⟩ :
          Call Request Request.Answer) ∈ calls' ++
            [⟨.presenceCached (crates.reveal.consensus.computeTxid decoded), .ok presence⟩] :=
        List.mem_append_right _ List.mem_cons_self
      simp only [orError]
      split
      · apply Holds.andThen (submission_asks h session raw _)
        intro calls' result hsought
        apply (record_asks h result.2 _ role result.1 hsought.confirmed).imp
        intro calls' looked hrecorded
        obtain ⟨hlooked, hblocked, hmissing⟩ := hrecorded
        refine ⟨⟨?_, hlooked.confirmed⟩, ?_⟩
        · exact hlooked.states.trans (congrArg (· ++ [looked.1]) hsought.states)
        · intro _ hunavailable
          rw [hblocked]
          exact hsought.blocked (hmissing hunavailable)
      · next hpresent =>
        apply (record_asks h session _ role presence fun hconfirmed =>
          ⟨_, presence, hmem, hconfirmed⟩).imp
        intro calls' looked hrecorded
        obtain ⟨hlooked, -, hmissing⟩ := hrecorded
        refine ⟨hlooked, ?_⟩
        intro heligible hunavailable
        exact absurd (Bool.and_eq_true_iff.mpr ⟨heligible, decide_eq_true (hmissing hunavailable)⟩)
          hpresent

theorem states_modify (observations : List Observation) (offset : ℕ) (seen : State) :
    (observations.modify offset fun row => { row with state := seen }).map Observation.state =
      (observations.map Observation.state).set offset seen := by
  induction observations generalizing offset with
  | nil => cases offset <;> rfl
  | cons row observations ih =>
      cases offset with
      | zero => rfl
      | succ offset => exact congrArg (row.state :: ·) (ih offset)

/-- What submitting the transaction at one position makes of the states. -/
structure SubmittedAt (session : Session) (offset : ℕ) (calls' : Calls)
    (result : State × Session) : Prop where
  states : result.2.states = session.states.set offset result.1
  confirmed : result.1 = .confirmed → FoundConfirmed calls'
  blocked : result.1.isAvailable = false → result.2.isBlocked

theorem submitRecord_asks (h : condition) (session : Session) (index offset : ℕ)
    (commit : Bool) :
    Asks condition calls (session.submitRecord crates node plan index offset commit)
      (SubmittedAt session offset) := by
  rw [Session.submitRecord]
  apply Holds.cut (fun _ _ => True) (holds_lift_returning.mpr fun _ _ => trivial)
  intro calls' pair _
  apply Holds.cut (fun _ _ => True) (holds_lift_returning.mpr fun _ _ => trivial)
  intro calls' row _
  apply Holds.andThen (transaction_asks h session _ row.role true)
  intro calls' looked hlooked
  obtain ⟨hlooked, hblocked⟩ := hlooked
  refine ⟨?_, hlooked.confirmed, hblocked rfl⟩
  have hdropped : looked.2.progress.observations.dropLast.map Observation.state =
      session.states := by
    rw [List.map_dropLast]
    show looked.2.states.dropLast = _
    rw [hlooked.states, List.dropLast_concat]
  show (looked.2.progress.observations.dropLast.modify offset _).map Observation.state = _
  rw [states_modify, hdropped]

/-! ## The two phases of a pair -/

/-- What the commit phase of a pair does: nothing, or it submits an absent commit that the buffer
admits. -/
inductive CommitStep (pair : BufferedPair) (index : ℕ) (phases : Phases) (session : Session)
    (calls' : Calls) : State × Phases × Session → Prop where
  | kept {commit : State} {phases' : Phases} :
      calls' = [] → session.states[index * 2]? = some commit → phases'.buffer = phases.buffer →
        CommitStep pair index phases session calls' (commit, phases', session)
  | submitted {absent commit : State} {phases' : Phases} {session' : Session} :
      session.states[index * 2]? = some absent → absent.isAbsent →
      phases.buffer.admits pair →
      session'.states = session.states.set (index * 2) commit →
      phases'.buffer =
        (if commit == .mempool then phases.buffer.add pair else phases.buffer) →
      (commit = .confirmed → FoundConfirmed calls') →
      (commit.isAvailable = false → session'.isBlocked) →
        CommitStep pair index phases session calls' (commit, phases', session')

/-- What the reveal phase of a pair does: nothing, or it submits an absent reveal that fits. -/
inductive RevealStep (pair : BufferedPair) (index : ℕ) (commit : State) (phases : Phases)
    (session : Session) (calls' : Calls) : Phases × Session → Prop where
  | kept {phases' : Phases} : calls' = [] → phases'.buffer = phases.buffer →
      RevealStep pair index commit phases session calls' (phases', session)
  | submitted {absent reveal : State} {phases' : Phases} {session' : Session} :
      commit = .confirmed → session.states[index * 2 + 1]? = some absent → absent.isAbsent →
      phases.buffer.broadcastWeight + pair.revealWeight ≤ publicationBufferWeight →
      session'.states = session.states.set (index * 2 + 1) reveal →
      phases'.buffer = (if reveal == .mempool then
        { phases.buffer with
          broadcastWeight := phases.buffer.broadcastWeight + pair.revealWeight }
        else phases.buffer) →
      (reveal.isAvailable = false → session'.isBlocked) →
        RevealStep pair index commit phases session calls' (phases', session')

theorem states_of_row {offset : ℕ} {row : Observation}
    (h : session.progress.observations[offset]? = some row) :
    session.states[offset]? = some row.state := by
  rw [Session.states, List.getElem?_map, h, Option.map_some]

/-- **The commit phase** asks only when nothing blocks and the buffer admits the pair. -/
theorem commitPhase_asks :
    Asks (phases.buffer.admits pair ∧ session.isBlocked = false) []
      (session.commitPhase crates node plan index pair phases)
      (CommitStep pair index phases session) := by
  rw [Session.commitPhase]
  apply Holds.cut (fun calls' row => calls' = [] ∧
    session.progress.observations[index * 2]? = some row)
  · exact holds_lift_returning.mpr fun row hrow => ⟨rfl, contextService_eq_ok.mp hrow⟩
  intro calls' row hrow
  obtain ⟨rfl, hrow⟩ := hrow
  have hstate := states_of_row hrow
  dsimp only
  split
  · next habsent =>
    rw [Bool.and_eq_true] at habsent
    split
    · next hadmits =>
      rw [Bool.and_eq_true] at hadmits
      have hopen : session.isBlocked = false := by
        rw [Session.isBlocked, hadmits.2, Bool.not_true]
      apply Holds.andThen (submitRecord_asks ⟨hadmits.1, hopen⟩ session index (index * 2) true)
      intro calls' result hsubmitted
      exact .submitted hstate habsent.1 hadmits.1 hsubmitted.states rfl hsubmitted.confirmed
        hsubmitted.blocked
    · exact .kept rfl hstate rfl
  · exact .kept rfl hstate rfl

@[simp] theorem revealed_buffer (phases : Phases) (role : Role) (reveal : State) :
    (phases.revealed role reveal).buffer = phases.buffer := by
  cases role <;> rfl

/-- **The reveal phase** asks only when nothing blocks and the reveal fits into the mempool's
share. -/
theorem revealPhase_asks {commit : State} :
    Asks (phases.buffer.broadcastWeight + pair.revealWeight ≤ publicationBufferWeight ∧
        session.isBlocked = false) []
      (session.revealPhase crates node plan index pair commit phases)
      (RevealStep pair index commit phases session) := by
  rw [Session.revealPhase]
  apply Holds.cut (fun calls' row => calls' = [] ∧
    session.progress.observations[index * 2 + 1]? = some row)
  · exact holds_lift_returning.mpr fun row hrow => ⟨rfl, contextService_eq_ok.mp hrow⟩
  intro calls' row hrow
  obtain ⟨rfl, hrow⟩ := hrow
  have hstate := states_of_row hrow
  dsimp only
  split
  · next hready =>
    simp only [Bool.and_eq_true, beq_iff_eq, Session.isOpen] at hready
    obtain ⟨⟨⟨hcommit, -⟩, -, hreason⟩, habsent⟩ := hready
    split
    · next hfits =>
      have hopen : session.isBlocked = false := by
        rw [Session.isBlocked, hreason, Bool.not_true]
      apply Holds.andThen (submitRecord_asks ⟨hfits, hopen⟩ session index (index * 2 + 1) false)
      intro calls' result hsubmitted
      exact .submitted hcommit hstate habsent hfits hsubmitted.states (revealed_buffer _ _ _)
        hsubmitted.blocked
    · exact .kept rfl (revealed_buffer _ _ _)
  · exact .kept rfl (revealed_buffer _ _ _)

end Urma.Runtime
