import Urma.Runtime.BufferWeights
import Urma.Runtime.WalkRows

/-!
# The bound of the publication buffer

The buffer of a walk is seeded from the observations and updated with what the walk submits. Its
broadcast weight is always the weight of the plan's transactions that are seen in the mempool, and
its counters stay within their limits. Its weight reserves room for the reveals still owed, except
for those of commits that the walk submits and finds confirmed: a run without them never has more
in the mempool than it has reserved.
-/

namespace Urma.Runtime

open Chain Lib Program

variable {crates : PublishCrates} {node : Node} {plan : DiskPlan} {pairs : List BufferedPair}
  {session session' : Session} {pair : BufferedPair} {phases phases' : Phases} {index : ℕ}
  {calls : Calls} {condition : Prop}

/-! ## The states of a walk -/

/-- The variables at the start of the loop. -/
def Phases.begin (buffer : Buffer) : Phases where
  buffer
  dataAvailable := true
  leavesAvailable := true
  parentAvailable := true
  limited := false

variable (crates node plan pairs) in
/-- The states of a walk over a plan whose inventory is done: before the commit phase of the pair
at an index, or, with the state of its commit, before its reveal phase. The node and the journal
answer anything; `good` is what is assumed of the answers in a commit phase. -/
inductive WalkState (good : ℕ → Session → Calls → Prop) (start : Session) :
    ℕ → Option State → Phases → Session → Prop where
  | start (hrows : start.progress.observations.length = pairs.length * 2) :
      WalkState good start 0 none (.begin (Buffer.new pairs start.progress.observations)) start
  | commit {index : ℕ} {pair : BufferedPair} {phases phases' : Phases} {session session' : Session}
      {commit : State} {calls : Calls} :
      WalkState good start index none phases session → (index = 0 ∨ session.isOpen) →
      pairs[index]? = some pair →
      Trace (session.commitPhase crates node plan index pair phases) calls
        (some (.ok (commit, phases', session'))) →
      good index session calls →
        WalkState good start index (some commit) phases' session'
  | reveal {index : ℕ} {pair : BufferedPair} {phases phases' : Phases} {session session' : Session}
      {commit : State} {calls : Calls} :
      WalkState good start index (some commit) phases session →
      pairs[index]? = some pair →
      Trace (session.revealPhase crates node plan index pair commit phases) calls
        (some (.ok (phases', session'))) →
        WalkState good start (index + 1) none phases' session'

/-- A run of the loop from a state of the walk ends in one. -/
theorem walkFrom_state {start : Session} {rest : List BufferedPair} {run : Calls}
    (h : WalkState crates node plan pairs (fun _ _ _ => True) start index none phases session)
    (hopen : index = 0 ∨ session.isOpen) (hrest : pairs.drop index = rest)
    (hrun : Trace (session.walkFrom crates node plan rest index phases) run
      (some (.ok (phases', session')))) :
    ∃ last, WalkState crates node plan pairs (fun _ _ _ => True) start last none phases'
      session' := by
  induction rest generalizing index phases session run with
  | nil =>
      cases hrun
      exact ⟨index, h⟩
  | cons pair rest ih =>
      have hpair : pairs[index]? = some pair := by
        rw [← Nat.add_zero index, ← List.getElem?_drop, hrest, List.getElem?_cons_zero]
      have hdrop : pairs.drop (index + 1) = rest := by
        rw [← List.drop_drop, hrest, List.drop_one, List.tail_cons]
      rw [Session.walkFrom] at hrun
      obtain ⟨_, _, _, -, -, hrun⟩ := hrun.bind_ok
      obtain ⟨⟨commit, committed, session₁⟩, _, _, -, hcommit, hrun⟩ := hrun.bind_ok
      obtain ⟨⟨revealed, session₂⟩, _, _, -, hreveal, hrun⟩ := hrun.bind_ok
      obtain ⟨_, _, _, -, -, hrun⟩ := hrun.bind_ok
      have hnext := (h.commit hopen hpair hcommit trivial).reveal hpair hreveal
      split at hrun
      · cases hrun
        exact ⟨index + 1, hnext⟩
      · next hstill =>
        refine ih hnext (Or.inr ?_) hdrop hrun
        rwa [Bool.not_eq_true', Bool.not_eq_false] at hstill

/-! ## What every state counts -/

/-- The counters that say what is in the mempool. -/
structure Counts (pairs : List BufferedPair) (states : List State) (buffer : Buffer) : Prop where
  broadcastWeight : buffer.broadcastWeight = total pendingWeight pairs states
  commits : buffer.commits = total pendingCommit pairs states
  commitVbytes : buffer.commitVbytes = total pendingVbytes pairs states

/-- The two states of a pair that the walk is at. -/
theorem states_at (hrows : session.states.length = pairs.length * 2)
    (hpair : pairs[index]? = some pair) :
    ∃ commit reveal, session.states[index * 2]? = some commit ∧
      session.states[index * 2 + 1]? = some reveal := by
  have hindex := (List.getElem?_eq_some_iff.mp hpair).1
  exact ⟨_, _, List.getElem?_eq_getElem (by omega), List.getElem?_eq_getElem (by omega)⟩

/-- A total after the state of a commit has changed. -/
theorem total_commit (quantity : BufferedPair → State → State → ℕ) {commit commit' reveal : State}
    (hpair : pairs[index]? = some pair)
    (hcommit : session.states[index * 2]? = some commit)
    (hreveal : session.states[index * 2 + 1]? = some reveal)
    (hstates : session'.states = session.states.set (index * 2) commit') :
    total quantity pairs session'.states + quantity pair commit reveal =
      total quantity pairs session.states + quantity pair commit' reveal := by
  have hlt := (List.getElem?_eq_some_iff.mp hcommit).1
  apply total_set quantity hpair hcommit hreveal
  · rw [hstates, List.getElem?_set_self hlt]
  · rwa [hstates, List.getElem?_set_ne (by omega)]
  · intro k hk _
    rw [hstates, List.getElem?_set_ne (Ne.symm hk)]

/-- A total after the state of a reveal has changed. -/
theorem total_reveal (quantity : BufferedPair → State → State → ℕ) {commit reveal reveal' : State}
    (hpair : pairs[index]? = some pair)
    (hcommit : session.states[index * 2]? = some commit)
    (hreveal : session.states[index * 2 + 1]? = some reveal)
    (hstates : session'.states = session.states.set (index * 2 + 1) reveal') :
    total quantity pairs session'.states + quantity pair commit reveal =
      total quantity pairs session.states + quantity pair commit reveal' := by
  have hlt := (List.getElem?_eq_some_iff.mp hreveal).1
  apply total_set quantity hpair hcommit hreveal
  · rwa [hstates, List.getElem?_set_ne (by omega)]
  · rw [hstates, List.getElem?_set_self hlt]
  · intro k _ hk
    rw [hstates, List.getElem?_set_ne (Ne.symm hk)]

/-- An absent commit weighs nothing, and in the mempool what `Buffer.add` counts. -/
theorem Counts.commit {absent commit reveal : State} {buffer : Buffer}
    (h : Counts pairs session.states buffer) (habsent : absent.isAbsent)
    (hpair : pairs[index]? = some pair) (hcommit : session.states[index * 2]? = some absent)
    (hreveal : session.states[index * 2 + 1]? = some reveal)
    (hstates : session'.states = session.states.set (index * 2) commit) :
    Counts pairs session'.states (if commit == .mempool then buffer.add pair else buffer) := by
  have hmempool : (absent == .mempool) = false := by
    cases absent <;> simp_all [State.isAbsent]
  have hweight := total_commit pendingWeight hpair hcommit hreveal hstates
  have hcommits := total_commit pendingCommit hpair hcommit hreveal hstates
  have hvbytes := total_commit pendingVbytes hpair hcommit hreveal hstates
  simp only [pendingWeight, pendingCommit, pendingVbytes, hmempool, Bool.false_eq_true,
    if_false] at hweight hcommits hvbytes
  obtain ⟨hbroadcast, hpending, hbytes⟩ := h
  split
  · next hseen =>
    simp only [hseen, if_true] at hweight hcommits hvbytes
    constructor <;> simp only [Buffer.add] <;> omega
  · next hseen =>
    simp only [hseen, Bool.false_eq_true, if_false] at hweight hcommits hvbytes
    constructor <;> omega

/-- An absent reveal weighs nothing, and in the mempool its weight. -/
theorem Counts.reveal {commit absent reveal : State} {buffer : Buffer}
    (h : Counts pairs session.states buffer) (habsent : absent.isAbsent)
    (hpair : pairs[index]? = some pair) (hcommit : session.states[index * 2]? = some commit)
    (hreveal : session.states[index * 2 + 1]? = some absent)
    (hstates : session'.states = session.states.set (index * 2 + 1) reveal) :
    Counts pairs session'.states
      (if reveal == .mempool then
        { buffer with broadcastWeight := buffer.broadcastWeight + pair.revealWeight }
      else buffer) := by
  have hmempool : (absent == .mempool) = false := by
    cases absent <;> simp_all [State.isAbsent]
  have hweight := total_reveal pendingWeight hpair hcommit hreveal hstates
  have hcommits := total_reveal pendingCommit hpair hcommit hreveal hstates
  have hvbytes := total_reveal pendingVbytes hpair hcommit hreveal hstates
  simp only [pendingWeight, pendingCommit, pendingVbytes, hmempool, Bool.false_eq_true,
    if_false] at hweight hcommits hvbytes
  obtain ⟨hbroadcast, hpending, hbytes⟩ := h
  split
  · next hseen =>
    simp only [hseen, if_true] at hweight
    constructor <;> dsimp only <;> omega
  · next hseen =>
    simp only [hseen, Bool.false_eq_true, if_false] at hweight
    constructor <;> omega

/-- What holds in every state of a walk, whatever is answered. -/
structure Walked (pairs : List BufferedPair) (index : ℕ) (stage : Option State) (phases : Phases)
    (session : Session) : Prop where
  rows : session.states.length = pairs.length * 2
  counts : Counts pairs session.states phases.buffer
  /-- Before a reveal phase the state of the commit is the one that is listed. -/
  stage : ∀ commit, stage = some commit → session.states[index * 2]? = some commit

theorem walked_start (hrows : session.progress.observations.length = pairs.length * 2) :
    Walked pairs 0 none (.begin (Buffer.new pairs session.progress.observations)) session := by
  refine ⟨?_, ?_, ?_⟩
  · rwa [Session.states, List.length_map]
  · rw [Phases.begin, new_eq]
    exact ⟨rfl, rfl, rfl⟩
  · intro commit hstage
    cases hstage

theorem Walked.commit {commit : State} {stage : Option State}
    (h : Walked pairs index stage phases session) (hpair : pairs[index]? = some pair)
    (hstep : CommitStep pair index phases session calls (commit, phases', session')) :
    Walked pairs index (some commit) phases' session' := by
  cases hstep with
  | kept _ hcommit hbuffer =>
      refine ⟨h.rows, hbuffer ▸ h.counts, ?_⟩
      rintro _ ⟨⟩
      exact hcommit
  | submitted hcommit habsent hadmits hstates hbuffer hfound _ =>
      obtain ⟨_, reveal, -, hreveal⟩ := states_at h.rows hpair
      refine ⟨?_, ?_, ?_⟩
      · rw [hstates, List.length_set, h.rows]
      · rw [hbuffer]
        exact h.counts.commit habsent hpair hcommit hreveal hstates
      · rintro _ ⟨⟩
        rw [hstates, List.getElem?_set_self (List.getElem?_eq_some_iff.mp hcommit).1]

theorem Walked.reveal {commit : State}
    (h : Walked pairs index (some commit) phases session) (hpair : pairs[index]? = some pair)
    (hstep : RevealStep pair index commit phases session calls (phases', session')) :
    Walked pairs (index + 1) none phases' session' := by
  have hnone : ∀ commit', none = some commit' → session'.states[(index + 1) * 2]? = some commit' := by
    intro commit' hstage
    cases hstage
  cases hstep with
  | kept _ hbuffer => exact ⟨h.rows, hbuffer ▸ h.counts, hnone⟩
  | submitted hconfirmed hreveal habsent hfits hstates hbuffer _ =>
      refine ⟨?_, ?_, hnone⟩
      · rw [hstates, List.length_set, h.rows]
      · rw [hbuffer]
        exact h.counts.reveal habsent hpair (h.stage commit rfl) hreveal hstates

/-- A finished commit phase is a step. -/
theorem commit_step {commit : State}
    (hrun : Trace (session.commitPhase crates node plan index pair phases) calls
      (some (.ok (commit, phases', session')))) :
    CommitStep pair index phases session calls (commit, phases', session') := by
  exact hrun.finished commitPhase_asks fun _ _ _ => trivial

/-- A finished reveal phase is a step. -/
theorem reveal_step {commit : State}
    (hrun : Trace (session.revealPhase crates node plan index pair commit phases) calls
      (some (.ok (phases', session')))) :
    RevealStep pair index commit phases session calls (phases', session') := by
  exact hrun.finished revealPhase_asks fun _ _ _ => trivial

variable {good : ℕ → Session → Calls → Prop} {start : Session} {stage : Option State}

theorem WalkState.walked (h : WalkState crates node plan pairs good start index stage phases session) :
    Walked pairs index stage phases session := by
  induction h with
  | start hrows => exact walked_start hrows
  | commit _ _ hpair hrun _ ih => exact ih.commit hpair (commit_step hrun)
  | reveal _ hpair hrun ih => exact ih.reveal hpair (reveal_step hrun)

/-! ## The limits -/

/-- The counters are within their limits. -/
structure Buffer.Within (buffer : Buffer) : Prop where
  weight : buffer.weight ≤ publicationBufferWeight
  commits : buffer.commits ≤ publicationPendingCommits
  commitVbytes : buffer.commitVbytes ≤ publicationCommitVbytes

theorem admits_eq {buffer : Buffer} : buffer.admits pair = true ↔
    buffer.commits < publicationPendingCommits ∧
      buffer.commitVbytes + Buffer.vbytes pair.commitWeight ≤ publicationCommitVbytes ∧
      buffer.weight + pair.commitWeight + pair.revealWeight ≤ publicationBufferWeight := by
  rw [Buffer.admits]
  simp only [Bool.and_eq_true, decide_eq_true_eq, and_assoc]

/-- What is admitted can be added. -/
theorem Buffer.Within.add {buffer : Buffer} (h : buffer.admits pair) : (buffer.add pair).Within := by
  obtain ⟨hcommits, hvbytes, hweight⟩ := admits_eq.mp h
  refine ⟨?_, hcommits, hvbytes⟩
  show buffer.weight + (pair.commitWeight + pair.revealWeight) ≤ publicationBufferWeight
  rwa [← Nat.add_assoc]

/-- **The counters stay within their limits**, whatever is answered. -/
theorem WalkState.within
    (h : WalkState crates node plan pairs good start index stage phases session)
    (hstart : (Buffer.new pairs start.progress.observations).Within) : phases.buffer.Within := by
  induction h with
  | start hrows => exact hstart
  | commit _ _ hpair hrun _ ih =>
      cases commit_step hrun with
      | kept _ hcommit hbuffer => exact hbuffer ▸ ih
      | submitted hcommit habsent hadmits hstates hbuffer hfound _ =>
          rw [hbuffer]
          split
          · exact .add hadmits
          · exact ih
  | reveal _ hpair hrun ih =>
      cases reveal_step hrun with
      | kept _ hbuffer => exact hbuffer ▸ ih
      | submitted hconfirmed hreveal habsent hfits hstates hbuffer _ =>
          rw [hbuffer]
          split
          · exact ⟨ih.weight, ih.commits, ih.commitVbytes⟩
          · exact ih

/-! ## What is reserved -/

/-- The commits that a walk submits are not found confirmed, unless their reveals are already
confirmed or in the mempool. -/
def Foreseen (index : ℕ) (session : Session) (calls : Calls) : Prop :=
  FoundConfirmed calls →
    ∃ reveal, session.states[index * 2 + 1]? = some reveal ∧ reveal.isAvailable

theorem reserved_commit {absent commit reveal : State} (habsent : absent.isAbsent)
    (h : commit = .confirmed → reveal.isAvailable) :
    reservedWeight pair commit reveal ≤ reservedWeight pair absent reveal +
      if commit == .mempool then pair.commitWeight + pair.revealWeight else 0 := by
  cases commit <;> cases reveal <;> cases absent <;>
    simp_all [reservedWeight, pendingWeight, owedWeight, State.isAvailable, State.isAbsent]

theorem reserved_reveal {absent reveal : State} (habsent : absent.isAbsent) :
    reservedWeight pair .confirmed reveal ≤ reservedWeight pair .confirmed absent := by
  cases reveal <;> cases absent <;>
    simp_all [reservedWeight, pendingWeight, owedWeight, State.isAvailable, State.isAbsent]

/-- What is reserved after a commit phase. -/
theorem reserved_commitStep {commit : State} (hwalked : Walked pairs index stage phases session)
    (hpair : pairs[index]? = some pair)
    (hstep : CommitStep pair index phases session calls (commit, phases', session'))
    (hforeseen : Foreseen index session calls)
    (h : total reservedWeight pairs session.states ≤ phases.buffer.weight) :
    total reservedWeight pairs session'.states ≤ phases'.buffer.weight := by
  cases hstep with
  | kept _ hcommit hbuffer => exact hbuffer ▸ h
  | submitted hcommit habsent hadmits hstates hbuffer hfound _ =>
      obtain ⟨_, reveal, -, hreveal⟩ := states_at hwalked.rows hpair
      have htotal := total_commit reservedWeight hpair hcommit hreveal hstates
      have havailable : commit = .confirmed → reveal.isAvailable := by
        intro hconfirmed
        obtain ⟨other, hother, havailable⟩ := hforeseen (hfound hconfirmed)
        cases hreveal.symm.trans hother
        exact havailable
      have hsettled : reservedWeight pair commit reveal ≤ reservedWeight pair _ reveal +
          if commit == .mempool then pair.commitWeight + pair.revealWeight else 0 :=
        reserved_commit habsent havailable
      rw [hbuffer]
      split
      · next hseen =>
        rw [if_pos hseen] at hsettled
        show _ ≤ phases.buffer.weight + (pair.commitWeight + pair.revealWeight)
        omega
      · next hseen =>
        rw [if_neg hseen] at hsettled
        omega

/-- What is reserved after a reveal phase: a reveal that is no longer owed was reserved. -/
theorem reserved_revealStep {commit : State}
    (hwalked : Walked pairs index (some commit) phases session) (hpair : pairs[index]? = some pair)
    (hstep : RevealStep pair index commit phases session calls (phases', session'))
    (h : total reservedWeight pairs session.states ≤ phases.buffer.weight) :
    total reservedWeight pairs session'.states ≤ phases'.buffer.weight := by
  cases hstep with
  | kept _ hbuffer => exact hbuffer ▸ h
  | @submitted absent reveal _ _ hconfirmed hreveal habsent hfits hstates hbuffer _ =>
      subst hconfirmed
      have htotal := total_reveal reservedWeight hpair (hwalked.stage _ rfl) hreveal hstates
      have hsettled : reservedWeight pair .confirmed reveal ≤ reservedWeight pair .confirmed absent :=
        reserved_reveal habsent
      have hweight : phases'.buffer.weight = phases.buffer.weight := by
        rw [hbuffer]
        split <;> rfl
      omega

/-- **Room is reserved** for all that is submitted and owed, as long as no commit is found
confirmed when it is submitted. -/
theorem WalkState.reserved
    (h : WalkState crates node plan pairs Foreseen start index stage phases session) :
    total reservedWeight pairs session.states ≤ phases.buffer.weight := by
  induction h with
  | start hrows =>
      rw [Phases.begin, new_eq]
      exact Nat.le_refl _
  | commit hbefore _ hpair hrun hforeseen ih =>
      exact reserved_commitStep hbefore.walked hpair (commit_step hrun) hforeseen ih
  | reveal hbefore hpair hrun ih =>
      exact reserved_revealStep hbefore.walked hpair (reveal_step hrun) ih

/-! ## The bound -/

/-- A run submits a transaction. -/
def Pushes (calls : Calls) : Prop :=
  ∃ raw answer, ⟨.sendRawTransaction raw, answer⟩ ∈ calls

variable (crates node plan) in
/-- What the phase of a pair calls at a stage of the walk, and the session it ends with, `none`
where it is interrupted or fails. -/
inductive PhaseRun (pair : BufferedPair) (index : ℕ) (phases : Phases) (session : Session) :
    Option State → Calls → Option Session → Prop where
  | commit {calls : Calls} {commit : State} {phases' : Phases} {session' : Session} :
      Trace (session.commitPhase crates node plan index pair phases) calls
        (some (.ok (commit, phases', session'))) →
        PhaseRun pair index phases session none calls (some session')
  | commitCut {calls : Calls} {result : Option (Except ServiceError (State × Phases × Session))} :
      Trace (session.commitPhase crates node plan index pair phases) calls result →
        PhaseRun pair index phases session none calls none
  | reveal {calls : Calls} {commit : State} {phases' : Phases} {session' : Session} :
      Trace (session.revealPhase crates node plan index pair commit phases) calls
        (some (.ok (phases', session'))) →
        PhaseRun pair index phases session (some commit) calls (some session')
  | revealCut {calls : Calls} {commit : State}
      {result : Option (Except ServiceError (Phases × Session))} :
      Trace (session.revealPhase crates node plan index pair commit phases) calls result →
        PhaseRun pair index phases session (some commit) calls none

/-- The weight of what that phase submits. -/
def phaseWeight (pair : BufferedPair) : Option State → ℕ
  | none => pair.commitWeight
  | some _ => pair.revealWeight

/-- The row of what it submits. -/
def phaseRow (index : ℕ) : Option State → ℕ
  | none => index * 2
  | some _ => index * 2 + 1

/-- A session that lists a transaction as available, or is blocked. -/
def SeenOrBlocked (row : ℕ) (session : Session) : Prop :=
  session.isBlocked ∨ ∃ seen, session.states[row]? = some seen ∧ seen.isAvailable

variable (crates node plan pairs) in
/-- What a state of a walk keeps of its buffer. -/
structure BufferBound (start : Session) (index : ℕ) (stage : Option State) (phases : Phases)
    (session : Session) : Prop where
  broadcast : phases.buffer.broadcastWeight ≤ phases.buffer.weight
  /-- The weight counts every unconfirmed submitted transaction and the reveals still owed. -/
  reserved : total reservedWeight pairs session.states ≤ phases.buffer.weight
  within : (Buffer.new pairs start.progress.observations).Within → phases.buffer.Within
  mempool : (Buffer.new pairs start.progress.observations).Within →
    total pendingWeight pairs session.states ≤ publicationBufferWeight
  /-- What the next phase pushes still fits, and where it is not seen afterwards, no other phase
  pushes anything. -/
  pushes : (Buffer.new pairs start.progress.observations).Within →
    ∀ (pair : BufferedPair) (calls : Calls) (after : Option Session), pairs[index]? = some pair →
      PhaseRun crates node plan pair index phases session stage calls after → Pushes calls →
        total pendingWeight pairs session.states + phaseWeight pair stage ≤
            publicationBufferWeight ∧
          session.isBlocked = false ∧ ∀ session' ∈ after, SeenOrBlocked (phaseRow index stage) session'

theorem pending_le_reserved (pairs : List BufferedPair) (states : List State) :
    total pendingWeight pairs states ≤ total reservedWeight pairs states :=
  total_mono (fun _ _ _ => Nat.le_add_right _ _) pairs states

/-- A run that pushes has asked. -/
theorem Pushes.guarded {α : Type} {p : Publishing α} {result : Option (Except ServiceError α)}
    {post : Calls → α → Prop} (h : Pushes calls) (hrun : Trace p calls result)
    (hasks : Asks condition [] p post) : condition := by
  obtain ⟨raw, answer, hmem⟩ := h
  obtain ⟨before, after, hsplit⟩ := List.append_of_mem hmem
  exact hrun.guarded hasks (fun _ _ _ => trivial) before _ answer after hsplit

theorem not_pushes_nil : ¬Pushes [] := by
  intro h
  obtain ⟨raw, answer, hmem⟩ := h
  cases hmem

/-- A commit that was submitted is seen, or the walk is blocked. -/
theorem CommitStep.seenOrBlocked {commit : State}
    (h : CommitStep pair index phases session calls (commit, phases', session'))
    (hpushes : Pushes calls) : SeenOrBlocked (index * 2) session' := by
  cases h with
  | kept hcalls _ _ => exact absurd (hcalls ▸ hpushes) not_pushes_nil
  | submitted hcommit _ _ hstates _ _ hblocked =>
      cases hseen : commit.isAvailable with
      | false => exact Or.inl (hblocked hseen)
      | true =>
          refine Or.inr ⟨commit, ?_, hseen⟩
          rw [hstates, List.getElem?_set_self (List.getElem?_eq_some_iff.mp hcommit).1]

/-- A reveal that was submitted is seen, or the walk is blocked. -/
theorem RevealStep.seenOrBlocked {commit : State}
    (h : RevealStep pair index commit phases session calls (phases', session'))
    (hpushes : Pushes calls) : SeenOrBlocked (index * 2 + 1) session' := by
  cases h with
  | kept hcalls _ => exact absurd (hcalls ▸ hpushes) not_pushes_nil
  | @submitted _ reveal _ _ _ hreveal _ _ hstates _ hblocked =>
      cases hseen : reveal.isAvailable with
      | false => exact Or.inl (hblocked hseen)
      | true =>
          refine Or.inr ⟨reveal, ?_, hseen⟩
          rw [hstates, List.getElem?_set_self (List.getElem?_eq_some_iff.mp hreveal).1]

/-- What a phase pushes fits, where no more is in the mempool than is reserved. -/
theorem pushes_fit {after : Option Session} (hwalked : Walked pairs index stage phases session)
    (hbroadcast : phases.buffer.broadcastWeight ≤ phases.buffer.weight)
    (hphase : PhaseRun crates node plan pair index phases session stage calls after)
    (hpushes : Pushes calls) :
    total pendingWeight pairs session.states + phaseWeight pair stage ≤ publicationBufferWeight ∧
      session.isBlocked = false := by
  rw [← hwalked.counts.broadcastWeight]
  have hcommit : phases.buffer.admits pair ∧ session.isBlocked = false →
      phases.buffer.broadcastWeight + pair.commitWeight ≤ publicationBufferWeight ∧
        session.isBlocked = false := by
    intro hguard
    obtain ⟨-, -, hweight⟩ := admits_eq.mp hguard.1
    exact ⟨by omega, hguard.2⟩
  cases hphase with
  | commit hrun => exact hcommit (hpushes.guarded hrun commitPhase_asks)
  | commitCut hrun => exact hcommit (hpushes.guarded hrun commitPhase_asks)
  | reveal hrun => exact hpushes.guarded hrun revealPhase_asks
  | revealCut hrun => exact hpushes.guarded hrun revealPhase_asks

/-- What a phase has pushed is seen, or the walk is blocked. -/
theorem pushes_seen {after : Option Session}
    (hphase : PhaseRun crates node plan pair index phases session stage calls after)
    (hpushes : Pushes calls) : ∀ session' ∈ after, SeenOrBlocked (phaseRow index stage) session' := by
  intro session' hafter
  cases hphase with
  | commit hrun =>
      cases hafter
      exact (commit_step hrun).seenOrBlocked hpushes
  | reveal hrun =>
      cases hafter
      exact (reveal_step hrun).seenOrBlocked hpushes
  | commitCut hrun => cases hafter
  | revealCut hrun => cases hafter

/-- **The buffer bounds a walk.** In every state of a walk in which no commit is found confirmed
when it is submitted, unless its reveal is available too, the buffer has broadcast no more than it
weighs, weighs all that is submitted and owed, and stays within its limits, so that the mempool
never holds more of the plan than the buffer allows. -/
theorem publication_buffer_bound
    (h : WalkState crates node plan pairs Foreseen start index stage phases session) :
    BufferBound crates node plan pairs start index stage phases session := by
  have hreserved := h.reserved
  have hwalked := h.walked
  have hbroadcast : phases.buffer.broadcastWeight ≤ phases.buffer.weight := by
    rw [hwalked.counts.broadcastWeight]
    exact (pending_le_reserved pairs session.states).trans hreserved
  refine ⟨hbroadcast, hreserved, h.within, ?_, ?_⟩
  · intro hstart
    exact (pending_le_reserved pairs session.states).trans
      (hreserved.trans (h.within hstart).weight)
  · intro _ pair calls after _ hphase hpushes
    obtain ⟨hfits, hopen⟩ := pushes_fit hwalked hbroadcast hphase hpushes
    exact ⟨hfits, hopen, pushes_seen hphase hpushes⟩

/-! ## The inventory -/

/-- An inventory that may go on lists two states for each of its pairs. -/
theorem inventoryFrom_asks {checks : PlanChecks} (h : condition) (count index : ℕ)
    (hrows : session.states.length = pairs.length * 2) :
    Asks condition calls (session.inventoryFrom crates checks node plan count index pairs)
      fun _ result => result.2.progress.retryable →
        result.2.states.length = result.1.length * 2 := by
  induction count generalizing index pairs session calls with
  | zero =>
      intro _
      exact hrows
  | succ count ih =>
      rw [Session.inventoryFrom]
      apply (asks_of_condition h _).andThen
      intro calls _ _
      apply Holds.cut (fun _ _ => True) (holds_lift_returning.mpr fun _ _ => trivial)
      intro calls pair _
      apply Holds.cut (fun _ _ => True) (holds_lift_returning.mpr fun _ _ => trivial)
      intro calls record _
      apply Holds.cut (fun _ _ => True) (holds_lift_returning.mpr fun _ _ => trivial)
      intro calls commit _
      apply Holds.cut (fun _ _ => True) (holds_lift_returning.mpr fun _ _ => trivial)
      intro calls reveal _
      apply (transaction_asks h session pair.commit .commit false).andThen
      intro calls listed hlisted
      dsimp only
      split
      · next hstop =>
        intro hretryable
        rw [hretryable] at hstop
        cases hstop
      · apply (transaction_asks h listed.2 pair.reveal _ false).andThen
        intro calls revealed hrevealed
        split
        · next hstop =>
          intro hretryable
          rw [hretryable] at hstop
          cases hstop
        · apply ih
          rw [hrevealed.1.states, hlisted.1.states]
          simp only [List.length_append, List.length_singleton, hrows]
          omega

/-- **A walk that goes on from its inventory** starts in a state of the walk. -/
theorem inventory_start {checks : PlanChecks} {listed : Session} {run : Calls}
    (hempty : session.progress.observations = [])
    (hrun : Trace (session.inventory crates checks node plan) run (some (.ok (pairs, listed))))
    (hretryable : listed.progress.retryable) :
    WalkState crates node plan pairs good listed 0 none
      (.begin (Buffer.new pairs listed.progress.observations)) listed := by
  have hasks : Asks True [] (session.inventory crates checks node plan) fun _ result =>
      result.2.progress.retryable → result.2.states.length = result.1.length * 2 := by
    rw [Session.inventory]
    have hstates : ({ session with progress.report.transactions := [] } : Session).states.length =
        ([] : List BufferedPair).length * 2 := by
      show (session.progress.observations.map Observation.state).length = 0
      rw [hempty]
      rfl
    apply (inventoryFrom_asks trivial plan.recordCount 0 hstates).andThen
    intro calls result hresult
    apply (asks_of_condition trivial _).andThen
    intro calls _ _
    exact hresult
  have hrows := hrun.finished hasks (fun _ _ _ => trivial) hretryable
  refine .start ?_
  rwa [Session.states, List.length_map] at hrows

/-! ## Runs -/

namespace Sample

/-- One data record of the sample plan. -/
def bufferedPair : BufferedPair := ⟨.data, 1000, 1000⟩

/-- A session that has seen neither of its transactions. -/
def preparedSession : Session where
  submit := true
  history := ∅
  progress :=
    { report := ⟨"plan", "root", false, false, "", []⟩
      total := 6
      observations := [⟨txid 11, .commit, .prepared⟩, ⟨dataItem.2, .data, .prepared⟩]
      retryable := true }

/-- A node that accepts a transaction and then has it in the mempool, but for those that it has
confirmed in the meantime. -/
def acceptingNode (isConfirmed : Txid → Bool) (calls : Calls) : (request : Request) → request.Answer
  | .verifyNetwork | .requireTxindex | .guardJournal | .observe _ | .store _ | .notify _ => .ok ()
  | .tip => .ok (5, "tip")
  | .blockHash _ => .ok "tip"
  | .presenceCached asked =>
      .ok (if isConfirmed asked then .confirmed 3 "block"
        else if (calls.map Sigma.fst).any fun request => match request with
          | .sendRawTransaction _ => true
          | _ => false then .mempool else .missing)
  | .presence _ => .ok (.confirmed 3 "block")
  | .testMempoolAccept raw => .ok (some [⟨txidOf publishCrates raw, some true, none⟩])
  | .sendRawTransaction raw => .ok (txidOf publishCrates raw)
  | .history _ => .ok ∅

/-- The commit phase of the pair, where its commit goes to the mempool. -/
def acceptedCommit : Calls × Except ServiceError (State × Phases × Session) :=
  run (acceptingNode fun _ => false) []
    (preparedSession.commitPhase publishCrates ⟨.bitcoinRegtest, false⟩ diskPlan 0 bufferedPair
      (.begin (Buffer.new [bufferedPair] preparedSession.progress.observations)))

theorem acceptedCommit_state :
    acceptedCommit.2.toOption.map (fun last => (last.1, last.2.1.buffer)) =
      some (.mempool, ⟨2000, 1000, 1, 250⟩) := by
  decide +kernel

theorem acceptedCommit_foreseen : ¬FoundConfirmed acceptedCommit.1 := by
  intro hfound
  obtain ⟨asked, presence, hmem, height, blockHash, rfl⟩ := hfound
  obtain ⟨before, after, hsplit⟩ := List.append_of_mem hmem
  have hanswer := run_answers (acceptingNode fun _ => false) before _ _ after hsplit
  rw [acceptingNode, if_neg (by decide)] at hanswer
  have hpresence := Except.ok.inj hanswer
  split at hpresence <;> cases hpresence

end Sample

/-- The bound after a commit that the node takes into its mempool. -/
theorem publication_buffer_bound_accepted :
    ∃ (phases : Phases) (session : Session), phases.buffer = ⟨2000, 1000, 1, 250⟩ ∧
      BufferBound Sample.publishCrates ⟨.bitcoinRegtest, false⟩ Sample.diskPlan
        [Sample.bufferedPair] Sample.preparedSession 0 (some .mempool) phases session := by
  have hlast := Sample.acceptedCommit_state
  cases hcommit : Sample.acceptedCommit.2 with
  | error error =>
      rw [hcommit] at hlast
      cases hlast
  | ok last =>
      rw [hcommit] at hlast
      have hlast' : (last.1, last.2.1.buffer) = (State.mempool, (⟨2000, 1000, 1, 250⟩ : Buffer)) :=
        Option.some.inj hlast
      have hrun : Trace (Sample.preparedSession.commitPhase Sample.publishCrates
          ⟨.bitcoinRegtest, false⟩ Sample.diskPlan 0 Sample.bufferedPair
          (.begin (Buffer.new [Sample.bufferedPair] Sample.preparedSession.progress.observations)))
          Sample.acceptedCommit.1 (some (.ok (last.1, last.2.1, last.2.2))) := by
        rw [← hcommit]
        exact run_trace _
      have hforeseen : Foreseen 0 Sample.preparedSession Sample.acceptedCommit.1 :=
        fun hfound => absurd hfound Sample.acceptedCommit_foreseen
      have hstate := (WalkState.start rfl).commit (Or.inl rfl) rfl hrun hforeseen
      obtain ⟨hmempool, hbuffer⟩ := Prod.mk.inj hlast'
      rw [hmempool] at hstate
      exact ⟨last.2.1, last.2.2, hbuffer, publication_buffer_bound hstate⟩

namespace Sample

/-- The walk over the pair, where its commit is found confirmed. -/
def confirmedWalk : Calls × Except ServiceError (Phases × Session) :=
  run (acceptingNode (· = txid 11)) []
    (preparedSession.walkFrom publishCrates ⟨.bitcoinRegtest, false⟩ diskPlan [bufferedPair] 0
      (.begin (Buffer.new [bufferedPair] preparedSession.progress.observations)))

theorem confirmedWalk_buffer :
    confirmedWalk.2.toOption.map (fun last => last.1.buffer) = some ⟨0, 1000, 0, 0⟩ := by
  decide +kernel

end Sample

/-- A commit that is confirmed between the inventory and its submission leaves its reveal without
room: it is broadcast, and the buffer weighs nothing. -/
theorem publication_buffer_bound_false :
    ¬∀ (crates : PublishCrates) (node : Node) (plan : DiskPlan) (pairs : List BufferedPair)
      (start : Session) (index : ℕ) (stage : Option State) (phases : Phases) (session : Session),
      WalkState crates node plan pairs (fun _ _ _ => True) start index stage phases session →
        phases.buffer.broadcastWeight ≤ phases.buffer.weight := by
  intro hclaim
  have hbuffer := Sample.confirmedWalk_buffer
  cases hwalk : Sample.confirmedWalk.2 with
  | error error =>
      rw [hwalk] at hbuffer
      cases hbuffer
  | ok last =>
      rw [hwalk] at hbuffer
      have hlast : last.1.buffer = ⟨0, 1000, 0, 0⟩ := Option.some.inj hbuffer
      have hrun : Trace (Sample.preparedSession.walkFrom Sample.publishCrates
          ⟨.bitcoinRegtest, false⟩ Sample.diskPlan [Sample.bufferedPair] 0
          (.begin (Buffer.new [Sample.bufferedPair] Sample.preparedSession.progress.observations)))
          Sample.confirmedWalk.1 (some (.ok (last.1, last.2))) := by
        rw [← hwalk]
        exact run_trace _
      obtain ⟨index, hstate⟩ := walkFrom_state (.start rfl) (Or.inl rfl) rfl hrun
      have hle := hclaim _ _ _ _ _ _ _ _ _ hstate
      rw [hlast] at hle
      exact absurd hle (by decide)

end Urma.Runtime
