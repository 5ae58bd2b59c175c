import Urma.Core.EnvelopeExact
import Urma.Runtime.Canonical
import Urma.Runtime.PublishPhases

/-!
# Walk safety

One record of the walk: its commit, then its reveal, each submitted only when the calls so far
permit it. By induction over the records, a walk submits nothing else, and so do any number of
walks, however they are interrupted and whatever the journal says at their start.
-/

namespace Urma.Runtime

open Chain Lib Program

variable {crates : PublishCrates} {checks : PlanChecks} {node : Node} {plan : DiskPlan}
  {calls calls' : Calls} {session session' : Session} {pairs : List BufferedPair} {index : ℕ}
  {pair : PublicPlan} {buffered : BufferedPair} {phases phases' : Phases}

/-! ## Submitting -/

/-- What submitting the transaction at one position does to the calls and the session. -/
structure Submitted (crates : PublishCrates) (checks : PlanChecks) (node : Node) (plan : DiskPlan)
    (pairs : List BufferedPair) (session : Session) (offset : ℕ) (calls' : Calls) (seen : State)
    (session' : Session) : Prop where
  /-- The row says what was seen. -/
  row : ∃ row, session'.progress.observations[offset]? = some row ∧ row.state = seen
  /-- The other rows are left alone. -/
  others : ∀ k, k ≠ offset →
    session'.progress.observations[k]? = session.progress.observations[k]?
  inventoried : session'.isOpen → Inventoried crates checks node plan calls' pairs session'
    plan.records.length

/-- **Submitting one transaction** that is permitted as long as the calls are clear. -/
theorem submitRecord_safe {offset : ℕ} {raw : String} (commit : Bool)
    (h : Inventoried crates checks node plan calls pairs session plan.records.length)
    (hpair : plan.records[index]? = some pair)
    (hraw : raw = if commit then pair.commit else pair.reveal)
    (hoffset : plan.raws[offset]? = some raw)
    (hpermit : ∀ txid, txidOf crates raw = some txid → ∀ calls', Extends txid calls calls' →
      Clear crates node calls' → Permitted crates checks node plan calls' raw) :
    Safe crates checks node plan calls
      (session.submitRecord crates node plan index offset commit)
      fun calls' result => Submitted crates checks node plan pairs session offset calls' result.1
        result.2 := by
  rw [Session.submitRecord]
  apply safe_lift
  intro other hother
  cases hpair.symm.trans (record_eq_ok hother)
  apply safe_lift
  intro row hrow
  have hlt : offset < session.progress.observations.length := by
    have hbound := (List.getElem?_eq_some_iff.mp hoffset).1
    rwa [plan.raws_length, ← h.rows] at hbound
  rw [← hraw]
  apply Holds.andThen (transaction_safe h.clear fun _ => hpermit)
  rintro calls' ⟨seen, session'⟩ htransacted
  obtain ⟨txid, htxid, hextends, hrows⟩ := htransacted.txid
  have hkept : session'.progress.observations.dropLast = session.progress.observations := by
    rw [hrows, List.dropLast_concat]
  have hat : ∀ k, (session'.progress.observations.dropLast.modify offset
      fun row => { row with state := seen })[k]? =
        if offset = k then (session.progress.observations[k]?).map
          (fun row => { row with state := seen }) else session.progress.observations[k]? := by
    intro k
    rw [hkept, List.getElem?_modify]
    split
    · rfl
    · exact Option.map_id'
  refine ⟨?_, ?_, ?_⟩
  · refine ⟨{ session.progress.observations[offset] with state := seen }, ?_, rfl⟩
    show (List.modify _ _ _)[offset]? = _
    rw [hat, if_pos rfl, List.getElem?_eq_getElem hlt, Option.map_some]
  · intro k hk
    show (List.modify _ _ _)[k]? = _
    rw [hat, if_neg hk.symm]
  · intro hopen
    refine ⟨htransacted.clear hopen, hopen, ?_, ?_, h.length, h.roles⟩
    · intro k raw' row' hraw' hrow'
      have hrow'' : (List.modify _ _ _)[k]? = _ := hrow'
      rw [hat] at hrow''
      by_cases hk : offset = k
      · subst hk
        rw [if_pos rfl, List.getElem?_eq_getElem hlt, Option.map_some] at hrow''
        cases hrow''
        cases hoffset.symm.trans hraw'
        exact htransacted.recorded
      · rw [if_neg hk] at hrow''
        exact h.stocked.other hextends htxid hoffset hraw' hrow'' (Ne.symm hk)
    · show (List.modify _ _ _).length = _
      rw [List.length_modify, hkept, h.rows]

/-! ## The loop -/

/-- The flags of the loop before the record at `index`: every row they stand for is available. -/
structure Flagged (crates : PublishCrates) (checks : PlanChecks) (plan : DiskPlan)
    (session : Session) (index : ℕ) (phases : Phases) : Prop where
  data : phases.dataAvailable → ∀ (k : ℕ) (pair : PublicPlan) (row : Observation), k < index →
    plan.records[k]? = some pair → pairRole crates checks pair = some .data →
      session.progress.observations[k * 2 + 1]? = some row → row.state.isAvailable
  leaves : phases.leavesAvailable → ∀ (k : ℕ) (pair : PublicPlan) (row : Observation), k < index →
    plan.records[k]? = some pair → pairRole crates checks pair = some .leaf →
      session.progress.observations[k * 2 + 1]? = some row → row.state.isAvailable

/-- The parent flag before the record at `index`. -/
def ParentFlagged (session : Session) (index : ℕ) (phases : Phases) : Prop :=
  phases.parentAvailable → ∀ (previous : ℕ) (row : Observation), previous + 1 = index →
    session.progress.observations[previous * 2]? = some row → row.state.isAvailable

/-- The loop before the record at `index`. -/
structure Walking (crates : PublishCrates) (checks : PlanChecks) (node : Node) (plan : DiskPlan)
    (calls : Calls) (pairs : List BufferedPair) (session : Session) (index : ℕ)
    (phases : Phases) : Prop where
  inventoried : Inventoried crates checks node plan calls pairs session plan.records.length
  flagged : Flagged crates checks plan session index phases
  parent : ParentFlagged session index phases

/-- Rows that are left alone keep the flags. -/
theorem Flagged.congr (h : Flagged crates checks plan session index phases)
    (hrows : ∀ k, k < index → session'.progress.observations[k * 2 + 1]? =
      session.progress.observations[k * 2 + 1]?)
    (hdata : phases'.dataAvailable = phases.dataAvailable)
    (hleaves : phases'.leavesAvailable = phases.leavesAvailable) :
    Flagged crates checks plan session' index phases' := by
  constructor
  · intro havailable k other row hk hother hrole hrow
    rw [hrows k hk] at hrow
    exact h.data (hdata ▸ havailable) k other row hk hother hrole hrow
  · intro havailable k other row hk hother hrole hrow
    rw [hrows k hk] at hrow
    exact h.leaves (hleaves ▸ havailable) k other row hk hother hrole hrow

/-- The row of a position. -/
theorem Inventoried.row
    (h : Inventoried crates checks node plan calls pairs session plan.records.length) {offset : ℕ}
    {raw : String} (hraw : plan.raws[offset]? = some raw) :
    ∃ row, session.progress.observations[offset]? = some row ∧
      Recorded crates plan calls raw row.state := by
  have hlt : offset < session.progress.observations.length := by
    have hbound := (List.getElem?_eq_some_iff.mp hraw).1
    rwa [plan.raws_length, ← h.rows] at hbound
  exact ⟨_, List.getElem?_eq_getElem hlt,
    h.stocked offset raw _ hraw (List.getElem?_eq_getElem hlt)⟩

/-- An observation at another position is not lost. -/
theorem Observed.other {good : Presence → Prop} {k offset : ℕ} {raw other : String} {txid : Txid}
    (h : Observed crates plan good calls other) (hextends : Extends txid calls calls')
    (htxid : txidOf crates raw = some txid) (hraw : plan.raws[offset]? = some raw)
    (hother : plan.raws[k]? = some other) (hne : k ≠ offset) :
    Observed crates plan good calls' other := by
  apply h.extend hextends
  intro hdistinct heq
  exact Distinct.ne hdistinct hother hraw hne (heq.trans htxid.symm)

/-- A commit whose parent flag is set is ready. -/
theorem commitReady_of_flagged {txid : Txid}
    (h : Inventoried crates checks node plan calls pairs session plan.records.length)
    (hparent : ParentFlagged session index phases) (hflag : phases.parentAvailable)
    (hpair : plan.records[index]? = some pair) (htxid : txidOf crates pair.commit = some txid)
    (hextends : Extends txid calls calls') : CommitReady crates plan calls' index := by
  intro previous other hprevious hother
  have hraw : plan.raws[previous * 2]? = some other.commit := (raws_getElem? hother).1
  obtain ⟨row, hrow, hrecorded⟩ := h.row hraw
  have havailable := hparent hflag previous row hprevious hrow
  exact (hrecorded.available havailable).other hextends htxid (raws_getElem? hpair).1 hraw
    (by omega)

/-- What the commit phase leaves. -/
structure Committed (crates : PublishCrates) (checks : PlanChecks) (node : Node)
    (plan : DiskPlan) (pairs : List BufferedPair) (index : ℕ) (calls' : Calls) (commit : State)
    (phases' : Phases) (session' : Session) : Prop where
  row : ∃ row, session'.progress.observations[index * 2]? = some row ∧ row.state = commit
  parent : phases'.parentAvailable = commit.isAvailable
  flagged : Flagged crates checks plan session' index phases'
  inventoried : session'.isOpen → Inventoried crates checks node plan calls' pairs session'
    plan.records.length

/-- **The commit phase** submits the commit only when the commit before it is available. -/
theorem commitPhase_safe (h : Walking crates checks node plan calls pairs session index phases)
    (hpair : plan.records[index]? = some pair) :
    Safe crates checks node plan calls
      (session.commitPhase crates node plan index buffered phases)
      fun calls' result => Committed crates checks node plan pairs index calls' result.1
        result.2.1 result.2.2 := by
  obtain ⟨hinventoried, hflagged, hparent⟩ := h
  have hraw : plan.raws[index * 2]? = some pair.commit := (raws_getElem? hpair).1
  rw [Session.commitPhase]
  apply safe_lift
  intro row hrow
  rw [contextService_eq_ok] at hrow
  have hrow' : ∃ row', session.progress.observations[index * 2]? = some row' ∧
      row'.state = row.state := ⟨row, hrow, rfl⟩
  dsimp only
  split
  · next hwanted =>
      split
      · -- the commit is submitted
        have hflag := (Bool.and_eq_true_iff.mp hwanted).2
        apply Holds.andThen (submitRecord_safe true hinventoried hpair rfl hraw ?_)
        · rintro calls' ⟨seen, session'⟩ hsubmitted
          refine ⟨hsubmitted.row, rfl, ?_, hsubmitted.inventoried⟩
          apply hflagged.congr
          · intro k _
            exact hsubmitted.others _ (by omega)
          · rfl
          · rfl
        · intro txid htxid calls' hextends hclear
          refine ⟨hclear, index, pair, hpair, Or.inl ⟨rfl, ?_⟩⟩
          exact commitReady_of_flagged hinventoried hparent hflag hpair htxid hextends
      · exact ⟨hrow', rfl, hflagged.congr (fun _ _ => rfl) rfl rfl, fun _ => hinventoried⟩
  · exact ⟨hrow', rfl, hflagged.congr (fun _ _ => rfl) rfl rfl, fun _ => hinventoried⟩

/-- A reveal whose commit is confirmed and whose flags are set is ready. -/
theorem revealReady_of_flagged {txid : Txid} {before : List PublicPlan} {order final : Order}
    {row : Observation}
    (hvalid : plan.validateRecords crates checks before plan.records order = .ok final)
    (h : Inventoried crates checks node plan calls pairs session plan.records.length)
    (hflagged : Flagged crates checks plan session index phases)
    (hpair : plan.records[index]? = some pair) (hbuffered : pairs[index]? = some buffered)
    (hrow : session.progress.observations[index * 2]? = some row)
    (hconfirmed : row.state = .confirmed) (hdependencies : phases.dependencies buffered.role)
    (htxid : txidOf crates pair.reveal = some txid) (hextends : Extends txid calls calls') :
    RevealReady crates checks plan calls' pair := by
  have hrole := h.roles index pair buffered hpair hbuffered
  obtain ⟨hrawCommit, hrawReveal⟩ := raws_getElem? hpair
  -- a reveal before this one that its flag says is available
  have hkeep : ∀ j other row, j < index → plan.records[j]? = some other →
      session.progress.observations[j * 2 + 1]? = some row → row.state.isAvailable →
        Observed crates plan Available calls' other.reveal := by
    intro j other row' hj hother hrow' havailable
    have hraw : plan.raws[j * 2 + 1]? = some other.reveal := (raws_getElem? hother).2
    have hrecorded := h.stocked _ _ _ hraw hrow'
    exact (hrecorded.available havailable).other hextends htxid hrawReveal hraw (by omega)
  have hdata : phases.dataAvailable → ∀ j other, j < index → plan.records[j]? = some other →
      pairRole crates checks other = some .data →
        Observed crates plan Available calls' other.reveal := by
    intro hflag j other hj hother hdataRole
    obtain ⟨row', hrow', _⟩ := h.row (raws_getElem? hother).2
    exact hkeep j other row' hj hother hrow'
      (hflagged.data hflag j other row' hj hother hdataRole hrow')
  have hleaves : phases.leavesAvailable → ∀ j other, j < index → plan.records[j]? = some other →
      pairRole crates checks other = some .leaf →
        Observed crates plan Available calls' other.reveal := by
    intro hflag j other hj hother hleafRole
    obtain ⟨row', hrow', _⟩ := h.row (raws_getElem? hother).2
    exact hkeep j other row' hj hother hrow'
      (hflagged.leaves hflag j other row' hj hother hleafRole hrow')
  refine ⟨?_, ?_, ?_⟩
  · have hrecorded := h.stocked _ _ _ hrawCommit hrow
    exact (hrecorded.confirmed hconfirmed).other hextends htxid hrawReveal hrawCommit (by omega)
  · intro hleaf other hmem hdataRole
    obtain ⟨j, hj⟩ := List.mem_iff_getElem?.mp hmem
    have hflag : phases.dataAvailable := by
      rw [Option.some.inj (hrole.symm.trans hleaf)] at hdependencies
      exact hdependencies
    exact hdata hflag j other ((validateRecords_order hvalid hpair hj).1 hleaf hdataRole) hj
      hdataRole
  · intro hroot other hmem hotherRole
    obtain ⟨j, hj⟩ := List.mem_iff_getElem?.mp hmem
    have hflags : phases.dataAvailable && phases.leavesAvailable := by
      rw [Option.some.inj (hrole.symm.trans hroot)] at hdependencies
      exact hdependencies
    obtain ⟨hdataFlag, hleavesFlag⟩ := Bool.and_eq_true_iff.mp hflags
    have hlt := (validateRecords_order hvalid hpair hj).2 hroot hotherRole
    rcases hotherRole with hdataRole | hleafRole
    · exact hdata hdataFlag j other hlt hj hdataRole
    · exact hleaves hleavesFlag j other hlt hj hleafRole

@[simp] theorem Phases.revealed_parentAvailable (phases : Phases) (role : Role) (reveal : State) :
    (phases.revealed role reveal).parentAvailable = phases.parentAvailable := by
  cases role <;> rfl

/-- A reveal only clears flags. -/
theorem Phases.dataAvailable_of_revealed {role : Role} {reveal : State}
    (h : (phases.revealed role reveal).dataAvailable) : phases.dataAvailable := by
  cases role with
  | data => exact (Bool.and_eq_true_iff.mp h).1
  | commit => exact h
  | leaf => exact h
  | root => exact h

theorem Phases.leavesAvailable_of_revealed {role : Role} {reveal : State}
    (h : (phases.revealed role reveal).leavesAvailable) : phases.leavesAvailable := by
  cases role with
  | leaf => exact (Bool.and_eq_true_iff.mp h).1
  | commit => exact h
  | data => exact h
  | root => exact h

/-- The flags after the reveal of a record. -/
theorem Flagged.revealed {reveal : State}
    (h : Flagged crates checks plan session index phases)
    (hrole : pairRole crates checks pair = some buffered.role)
    (hpair : plan.records[index]? = some pair)
    (hrow : ∃ row, session'.progress.observations[index * 2 + 1]? = some row ∧
      row.state = reveal)
    (hrows : ∀ k, k < index → session'.progress.observations[k * 2 + 1]? =
      session.progress.observations[k * 2 + 1]?)
    (hdata : phases'.dataAvailable = phases.dataAvailable)
    (hleaves : phases'.leavesAvailable = phases.leavesAvailable) :
    Flagged crates checks plan session' (index + 1) (phases'.revealed buffered.role reveal) := by
  have hkept := h.congr hrows hdata hleaves
  obtain ⟨seen, hseen, rfl⟩ := hrow
  constructor
  · intro hflag k other row hk hother hotherRole hrow
    have hold := Phases.dataAvailable_of_revealed hflag
    rcases Nat.lt_succ_iff_lt_or_eq.mp hk with hk | rfl
    · exact hkept.data hold k other row hk hother hotherRole hrow
    · cases hpair.symm.trans hother
      cases hseen.symm.trans hrow
      rw [Option.some.inj (hrole.symm.trans hotherRole)] at hflag
      exact (Bool.and_eq_true_iff.mp hflag).2
  · intro hflag k other row hk hother hotherRole hrow
    have hold := Phases.leavesAvailable_of_revealed hflag
    rcases Nat.lt_succ_iff_lt_or_eq.mp hk with hk | rfl
    · exact hkept.leaves hold k other row hk hother hotherRole hrow
    · cases hpair.symm.trans hother
      cases hseen.symm.trans hrow
      rw [Option.some.inj (hrole.symm.trans hotherRole)] at hflag
      exact (Bool.and_eq_true_iff.mp hflag).2

/-- **The reveal phase** submits the reveal only when its commit is confirmed and what it depends
on is available. While the walk is open, the loop goes on to the next record. -/
theorem revealPhase_safe {before : List PublicPlan} {order final : Order} {commit : State}
    (hvalid : plan.validateRecords crates checks before plan.records order = .ok final)
    (h : Committed crates checks node plan pairs index calls commit phases session)
    (hpair : plan.records[index]? = some pair) (hbuffered : pairs[index]? = some buffered) :
    Safe crates checks node plan calls
      (session.revealPhase crates node plan index buffered commit phases)
      fun calls' result => result.2.isOpen →
        Walking crates checks node plan calls' pairs result.2 (index + 1) result.1 := by
  obtain ⟨⟨committed, hcommitted, hcommit⟩, hparent, hflagged, hinventoried⟩ := h
  have hraw : plan.raws[index * 2 + 1]? = some pair.reveal := (raws_getElem? hpair).2
  rw [Session.revealPhase]
  apply safe_lift
  intro row hrow
  rw [contextService_eq_ok] at hrow
  -- nothing is submitted: the flags follow the row
  have hskip : ∀ phases' : Phases, phases'.dataAvailable = phases.dataAvailable →
      phases'.leavesAvailable = phases.leavesAvailable →
      phases'.parentAvailable = phases.parentAvailable → session.isOpen →
        Walking crates checks node plan calls pairs session (index + 1)
          (phases'.revealed buffered.role row.state) := by
    intro phases' hdata hleaves hparent' hopen
    have hstock := hinventoried hopen
    refine ⟨hstock, ?_, ?_⟩
    · exact hflagged.revealed (hstock.roles index pair buffered hpair hbuffered) hpair
        ⟨row, hrow, rfl⟩ (fun _ _ => rfl) hdata hleaves
    · intro hflag previous other hprevious hother
      cases hprevious
      cases hcommitted.symm.trans hother
      rw [Phases.revealed_parentAvailable, hparent', hparent] at hflag
      rw [hcommit]
      exact hflag
  dsimp only
  split
  · next hwanted =>
      split
      · -- the reveal is submitted
        simp only [Bool.and_eq_true, beq_iff_eq] at hwanted
        obtain ⟨⟨⟨hconfirmed, hdependencies⟩, hopen⟩, _⟩ := hwanted
        have hstock := hinventoried hopen
        have hrole := hstock.roles index pair buffered hpair hbuffered
        apply Holds.andThen (submitRecord_safe false hstock hpair rfl hraw ?_)
        · rintro calls' ⟨seen, session'⟩ hsubmitted hopen'
          refine ⟨hsubmitted.inventoried hopen', ?_, ?_⟩
          · apply hflagged.revealed hrole hpair hsubmitted.row
            · intro k hk
              exact hsubmitted.others _ (by omega)
            · rfl
            · rfl
          · intro hflag previous other hprevious hother
            cases hprevious
            have hkept := hsubmitted.others (index * 2) (by omega)
            cases hcommitted.symm.trans (hkept.symm.trans hother)
            rw [Phases.revealed_parentAvailable] at hflag
            rw [hcommit, ← hparent]
            exact hflag
        · intro txid htxid calls' hextends hclear
          refine ⟨hclear, index, pair, hpair, Or.inr ⟨rfl, ?_⟩⟩
          exact revealReady_of_flagged hvalid hstock hflagged hpair hbuffered hcommitted
            (hcommit.trans hconfirmed) hdependencies htxid hextends
      · exact hskip _ rfl rfl rfl
  · exact hskip _ rfl rfl rfl

/-- **The loop of the walk**, by induction over the records that are left. -/
theorem walkFrom_safe {before : List PublicPlan} {order final : Order}
    (hvalid : plan.validateRecords crates checks before plan.records order = .ok final)
    {passed rest : List BufferedPair} (hpairs : pairs = passed ++ rest)
    (hindex : passed.length = index)
    (h : Walking crates checks node plan calls pairs session index phases) :
    Safe crates checks node plan calls (session.walkFrom crates node plan rest index phases)
      fun _ _ => True := by
  induction rest generalizing calls session phases passed index with
  | nil => exact trivial
  | cons buffered rest ih =>
      have hbuffered : pairs[index]? = some buffered := by
        rw [hpairs, ← hindex, List.getElem?_append_right (le_refl _), Nat.sub_self,
          List.getElem?_cons_zero]
      obtain ⟨pair, hpair⟩ : ∃ pair, plan.records[index]? = some pair := by
        have hlt := (List.getElem?_eq_some_iff.mp hbuffered).1
        rw [h.inventoried.length] at hlt
        exact ⟨_, List.getElem?_eq_getElem hlt⟩
      rw [Session.walkFrom]
      apply Holds.andThen (safe_ask rfl fun calls' _ hquiet =>
        (⟨h.inventoried.quiet hquiet, h.flagged, h.parent⟩ :
          Walking crates checks node plan calls' pairs session index phases))
      intro noted _ hnoted
      apply Holds.andThen (commitPhase_safe hnoted hpair)
      rintro committed ⟨commit, phases₁, session₁⟩ hcommitted
      apply Holds.andThen (revealPhase_safe hvalid hcommitted hpair hbuffered)
      rintro revealed ⟨phases₂, session₂⟩ hrevealed
      apply Holds.andThen (safe_ask rfl fun calls' _ hquiet =>
        (fun hopen => ⟨(hrevealed hopen).inventoried.quiet hquiet, (hrevealed hopen).flagged,
          (hrevealed hopen).parent⟩ : session₂.isOpen →
            Walking crates checks node plan calls' pairs session₂ (index + 1) phases₂))
      intro noted' _ hnoted'
      by_cases hopen : session₂.isOpen = true
      · rw [if_neg (by rw [hopen]; decide)]
        have hrest : pairs = (passed ++ [buffered]) ++ rest := by
          rw [hpairs, List.append_assoc, List.singleton_append]
        have hnext : (passed ++ [buffered]).length = index + 1 := by
          rw [List.length_append, hindex, List.length_singleton]
        exact ih hrest hnext (hnoted' hopen)
      · rw [if_pos (by rw [Bool.eq_false_iff.mpr hopen]; decide)]
        exact trivial

/-! ## A walk -/

/-- The whole inventory. -/
theorem inventory_safe (hcount : plan.records.length = plan.recordCount)
    (hclear : Clear crates node calls) (hopen : session.isOpen)
    (hempty : session.progress.observations = []) :
    Safe crates checks node plan calls (session.inventory crates checks node plan)
      fun calls' result => result.2.progress.retryable →
        Inventoried crates checks node plan calls' result.1 result.2 plan.records.length := by
  have hstart : Inventoried crates checks node plan calls []
      { session with progress.report.transactions := [] } 0 := by
    refine ⟨hclear, hopen, ?_, ?_, rfl, ?_⟩
    · intro offset raw row _ hrow
      have hnone : session.progress.observations[offset]? = some row := hrow
      rw [hempty] at hnone
      cases hnone
    · show session.progress.observations.length = _
      rw [hempty]
      rfl
    · intro index pair buffered _ hbuffered
      cases hbuffered
  rw [Session.inventory]
  apply Holds.andThen (inventoryFrom_safe hstart)
  rintro taken ⟨pairs, session'⟩ ⟨_, htaken⟩
  rw [Nat.zero_add, ← hcount] at htaken
  apply Holds.cut (fun calls' _ => session'.progress.retryable →
    Inventoried crates checks node plan calls' pairs session' plan.records.length)
  · exact safe_ask rfl fun calls' _ hquiet hretryable => (htaken hretryable).quiet hquiet
  · intro calls' _ h
    exact h

/-- **One walk** from the tip the node has answered. -/
theorem walk_safe {before : List PublicPlan} {order final : Order} {anchor : ℕ × String}
    (hvalid : plan.validateRecords crates checks before plan.records order = .ok final)
    (hcount : plan.records.length = plan.recordCount)
    (hclear : Clear crates node calls) (htip : ⟨.tip, .ok anchor⟩ ∈ calls)
    (hopen : session.isOpen) (hempty : session.progress.observations = []) :
    Safe crates checks node plan calls (session.walk crates checks node plan anchor)
      fun _ _ => True := by
  rw [Session.walk]
  apply Holds.andThen (inventory_safe hcount hclear hopen hempty).grows
  rintro taken ⟨pairs, session'⟩ ⟨htaken, hgrown⟩
  by_cases hgo : (!session'.submit || !session'.progress.retryable) = true
  · show Safe crates checks node plan taken (if _ then _ else _) _
    rw [if_pos hgo]
    exact trivial
  · show Safe crates checks node plan taken (if _ then _ else _) _
    rw [if_neg hgo]
    have hretryable : session'.progress.retryable = true := by
      cases hr : session'.progress.retryable with
      | true => rfl
      | false =>
          rw [hr] at hgo
          exact absurd (Bool.or_true _) hgo
    have hstock := htaken hretryable
    apply Holds.cut (fun calls' hash =>
      calls' = taken ++ [⟨.blockHash anchor.1, .ok hash⟩])
    · apply holds_ask.mpr
      exact ⟨trivial, fun _ _ => rfl⟩
    · rintro _ hash rfl
      by_cases hhash : hash ≠ anchor.2
      · rw [if_pos hhash]
        exact trivial
      · rw [if_neg hhash]
        cases not_not.mp hhash
        have hstill : Still taken (taken ++ [⟨.blockHash anchor.1, .ok anchor.2⟩]) :=
          Still.call fun _ => rfl
        have hwalking : Walking crates checks node plan
            (taken ++ [⟨.blockHash anchor.1, .ok anchor.2⟩]) pairs session' 0
            { buffer := Buffer.new pairs session'.progress.observations
              dataAvailable := true
              leavesAvailable := true
              parentAvailable := true
              limited := false } := by
          refine ⟨⟨?_, hstock.isOpen, hstock.stocked.still hstill, hstock.rows, hstock.length,
            hstock.roles⟩, ⟨?_, ?_⟩, ?_⟩
          · exact hstock.clear.blockHash (hgrown.subset htip)
          · intro _ k _ _ hk
            exact absurd hk (Nat.not_lt_zero k)
          · intro _ k _ _ hk
            exact absurd hk (Nat.not_lt_zero k)
          · intro _ previous _ hprevious
            exact absurd hprevious (Nat.succ_ne_zero previous)
        apply Holds.andThen (walkFrom_safe hvalid (List.nil_append pairs).symm rfl hwalking)
        rintro walked ⟨phases, session''⟩ _
        dsimp only
        split
        · exact trivial
        · exact trivial

/-! ## Walks -/

theorem validate_eq_ok {u : Unit} (h : plan.validate crates checks = .ok u) :
    plan.records.length = plan.recordCount ∧
      ∃ final, plan.validateRecords crates checks [] plan.records Order.new = .ok final := by
  simp only [DiskPlan.validate, Except.bind_eq_ok, ensureService_eq_ok, beq_iff_eq] at h
  obtain ⟨_, _, _, _, _, hcount, _, _, final, hfinal, _⟩ := h
  exact ⟨hcount, final, hfinal⟩

theorem clear_nil : Clear crates node [] := by
  constructor
  · intro call hmem
    cases hmem
  · intro height answer hmem
    cases hmem
  · intro before raw answer after hsplit
    cases before <;> cases hsplit
  · intro before raw answer after hsplit
    cases before <;> cases hsplit

/-- A call that is no submission. -/
theorem safe_ask_then {α : Type} {request : Request} {next : request.Value → Publishing α}
    (hrequest : ∀ raw, request ≠ .sendRawTransaction raw)
    (h : ∀ calls' value, Safe crates checks node plan calls' (next value) fun _ _ => True) :
    Safe crates checks node plan calls (ask request >>= next) fun _ _ => True := by
  apply Holds.cut (fun _ _ => True)
  · apply holds_ask.mpr
    refine ⟨?_, fun _ _ => trivial⟩
    cases request <;> first | trivial | exact absurd rfl (hrequest _)
  · intro calls' value _
    exact h calls' value

/-- **A reconciliation** submits only what is permitted. -/
theorem reconcile_safe {submit : Bool} (hclear : Clear crates node calls) :
    Safe crates checks node plan calls (reconcile crates checks node plan submit)
      fun _ _ => True := by
  rw [reconcile]
  apply safe_lift
  intro _ hvalidate
  obtain ⟨hcount, final, hvalid⟩ := validate_eq_ok hvalidate
  apply Holds.andThen (safe_ask rfl fun calls' _ hquiet => hquiet.clear _ hclear)
  intro verified _ hclear
  apply Holds.andThen (safe_ask rfl fun calls' _ hquiet => hquiet.clear _ hclear)
  intro indexed _ hclear
  apply safe_lift
  intro nodeGenesis _
  apply safe_lift
  intro planGenesis _
  apply safe_lift
  intro _ _
  apply Holds.cut (fun calls' anchor => calls' = indexed ++ [⟨.tip, .ok anchor⟩])
  · apply holds_ask.mpr
    exact ⟨trivial, fun _ _ => rfl⟩
  rintro _ anchor rfl
  have hclear' : Clear crates node (indexed ++ [⟨.tip, .ok anchor⟩]) := hclear.quiet rfl
  have htip : ⟨.tip, .ok anchor⟩ ∈ indexed ++ [⟨.tip, .ok anchor⟩] :=
    List.mem_append_right _ List.mem_cons_self
  apply safe_lift
  intro id _
  apply Holds.andThen (safe_ask rfl fun calls' _ hquiet =>
    (⟨hquiet.clear _ hclear', hquiet.still.mem htip⟩ :
      Clear crates node calls' ∧ ⟨.tip, .ok anchor⟩ ∈ calls'))
  rintro known history ⟨hclear'', htip'⟩
  apply Holds.andThen (walk_safe hvalid hcount hclear'' htip' rfl rfl)
  intro walked session _
  apply safe_ask_then
  · intro raw h
    cases h
  intro checked hash
  have hend : ∀ calls' (session : Session), Safe crates checks node plan calls'
      (do ask (.notify session.progress); return session.progress) fun _ _ => True := by
    intro calls' session
    apply safe_ask_then
    · intro raw h
      cases h
    · intro _ _
      exact trivial
  dsimp only
  split
  · apply safe_ask_then
    · intro raw h
      cases h
    · intro stored _
      exact hend stored _
  · exact hend checked _

theorem publishProgress_safe (approvedId : String) :
    Safe crates checks node plan [] (publishProgress crates checks node plan approvedId)
      fun _ _ => True := by
  rw [publishProgress]
  apply safe_lift
  intro id _
  apply safe_lift
  intro _ _
  apply Holds.andThen (safe_ask rfl fun calls' _ hquiet => hquiet.clear _ clear_nil)
  intro guarded _ hclear
  exact reconcile_safe hclear

variable (crates checks plan) in
/-- The calls of one walk: it publishes with some approval, or watches, and runs to its end or is
interrupted. What the journal holds is what the walk is answered when it reads it. -/
inductive IsWalk (node : Node) : Calls → Prop where
  | publish (approvedId : String) {walk : Calls}
      {result : Option (Except ServiceError Progress)} :
      Trace (publishProgress crates checks node plan approvedId) walk result → IsWalk node walk
  | watch {walk : Calls} {result : Option (Except ServiceError Progress)} :
      Trace (watch crates checks node plan) walk result → IsWalk node walk

/-- **Walk safety.** In any number of walks over a plan, each of them against any node and any
journal, whatever is submitted is permitted by the answers of its own walk: none of them blocks; a
commit follows one that is available; a reveal follows its confirmed commit, and that of a leaf or
the root the available reveals it depends on. -/
theorem publication_walk_safe (crates : PublishCrates) (checks : PlanChecks) (plan : DiskPlan)
    (walks : List (Node × Calls))
    (hwalks : ∀ walk ∈ walks, IsWalk crates checks plan walk.1 walk.2) :
    ∀ walk ∈ walks, ∀ before raw answer after,
      walk.2 = before ++ ⟨.sendRawTransaction raw, answer⟩ :: after →
        Permitted crates checks walk.1 plan before raw := by
  intro walk hwalk before raw answer after hsplit
  have hguard : submitGuard crates checks walk.1 plan ([] ++ before) (.sendRawTransaction raw) := by
    cases hwalks walk hwalk with
    | publish approvedId htrace =>
        exact htrace.guarded (publishProgress_safe approvedId) (fun _ _ _ => trivial)
          before (.sendRawTransaction raw) answer after hsplit
    | watch htrace =>
        exact htrace.guarded (reconcile_safe clear_nil) (fun _ _ _ => trivial)
          before (.sendRawTransaction raw) answer after hsplit
  exact hguard

/-! ## A walk that submits the root -/

namespace Sample

/-- A transaction id of one byte. -/
def txid (byte : UInt8) : Txid :=
  ⟨Vector.replicate 32 byte⟩

/-- A Taproot output, and one to a key hash. -/
def taproot : TxOut := ⟨1000, 81 :: 32 :: List.replicate 32 2⟩

def returned : TxOut := ⟨700, 0 :: 20 :: List.replicate 20 7⟩

/-- The commit with an id, which spends the change of another transaction. -/
def commitTx (id spent : UInt8) : Transaction where
  version := 2
  lockTime := id.toUInt32
  input := [⟨⟨txid spent, 1⟩, [], 0, []⟩]
  output := [taproot, returned]

/-- The reveal of a record, with the id of its item. -/
def revealTx (item : Item) (commit : UInt8) : Transaction where
  version := 2
  lockTime := (item.2.bytes.get 0).toUInt32
  input := [⟨⟨txid commit, 0⟩, [], 0,
    [List.replicate 64 1,
      Envelope.recordScript Envelope.Sample.library item.1 Envelope.Sample.generator,
      tapScript :: Envelope.Sample.generator.serialize.toList]⟩]
  output := [returned]

/-- The transactions, by what stands for their raw bytes. -/
def transactions : List (String × Transaction) :=
  [("commit data", commitTx 11 10), ("reveal data", revealTx dataItem 11),
    ("commit leaf", commitTx 12 11), ("reveal leaf", revealTx leafItem 12),
    ("commit root", commitTx 13 12), ("reveal root", revealTx rootItem 13)]

/-- Crates that read these transactions; their ids are their lock times. -/
def publishCrates : PublishCrates where
  reveal :=
    { script := Envelope.Sample.library
      consensus :=
        { ConsensusCrate.standard with computeTxid := fun tx => txid tx.lockTime.toUInt8 }
      isP2wpkh := fun script => script.length == 22 && script.take 2 == [0, 20]
      isP2tr := fun script => script.length == 34 && script.take 2 == [81, 32]
      verifyTaprootCommitment := fun _ _ _ => true
      signatureFromSlice := .ok
      signatureHash := fun _ _ _ => .ok zeroHash
      verifySchnorr := fun _ _ _ => .ok () }
  sha256 := Sha256.hash
  decodeHex raw := contextService (transactions.lookup raw) "Odd number of digits"
  weight _ := 1000
  genesis _ := .ok zeroHash

def planChecks : PlanChecks where
  id _ := .ok "plan"
  display _ := "invalid"
  files _ := .ok ()
  pair _ _ _ := .ok ()
  finish _ := .ok ()

def pairOf (name : String) : PublicPlan where
  version := 0
  chain := .bitcoinRegtest
  funding := []
  commit := "commit " ++ name
  reveal := "reveal " ++ name
  feeRate := 1

/-- The plan of the sample object. -/
def diskPlan : DiskPlan where
  version := 1
  chain := .bitcoinRegtest
  author := "author"
  returnScript := "return"
  rootTxid := "root"
  totalFee := 1
  maximumFee := 1
  recordCount := 3
  recordsHash := "records"
  indexHash := "index"
  records := [pairOf "data", pairOf "leaf", pairOf "root"]

/-- A node that has confirmed everything but the reveal of the root, and an empty journal. -/
def environment (_ : Calls) : (request : Request) → request.Answer
  | .verifyNetwork | .requireTxindex | .guardJournal | .observe _ | .store _ | .notify _ => .ok ()
  | .tip => .ok (5, "tip")
  | .blockHash _ => .ok "tip"
  | .presenceCached asked =>
      .ok (if asked = rootItem.2 then .missing else .confirmed 3 "block")
  | .presence _ => .ok (.confirmed 3 "block")
  | .testMempoolAccept _ => .ok (some [⟨some rootItem.2, some true, none⟩])
  | .sendRawTransaction _ => .ok (some rootItem.2)
  | .history _ => .ok ∅

def walk : Calls :=
  (run environment [] (publishProgress publishCrates planChecks ⟨.bitcoinRegtest, false⟩ diskPlan
    "plan")).1

theorem walk_submits_root : Request.sendRawTransaction "reveal root" ∈ walk.map Sigma.fst := by
  decide +kernel

end Sample

/-- A walk in which everything else is confirmed submits the root. -/
theorem publication_walk_safe_root :
    ∃ before answer after,
      Sample.walk = before ++ ⟨.sendRawTransaction "reveal root", answer⟩ :: after ∧
        Permitted Sample.publishCrates Sample.planChecks ⟨.bitcoinRegtest, false⟩ Sample.diskPlan
          before "reveal root" := by
  obtain ⟨⟨request, answer⟩, hmem, hrequest⟩ := List.mem_map.mp Sample.walk_submits_root
  cases hrequest
  obtain ⟨before, after, hsplit⟩ := List.append_of_mem hmem
  have hwalk : IsWalk Sample.publishCrates Sample.planChecks Sample.diskPlan
      ⟨.bitcoinRegtest, false⟩ Sample.walk := .publish "plan" (run_trace Sample.environment)
  have hwalks : ∀ walk ∈ [((⟨.bitcoinRegtest, false⟩ : Node), Sample.walk)],
      IsWalk Sample.publishCrates Sample.planChecks Sample.diskPlan walk.1 walk.2 := by
    intro walk hwalk'
    rw [List.mem_singleton.mp hwalk']
    exact hwalk
  exact ⟨before, answer, after, hsplit, publication_walk_safe Sample.publishCrates
    Sample.planChecks Sample.diskPlan _ hwalks _ List.mem_cons_self before "reveal root" answer after
    hsplit⟩

end Urma.Runtime
