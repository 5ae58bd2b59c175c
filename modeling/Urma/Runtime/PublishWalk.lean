import Urma.Runtime.PublishSafe

/-!
# What a walk does

Each function of a session, from the broadcast of one transaction to the whole of `reconcile`:
which calls it adds, what it leaves of the observations, and that it submits what is permitted.
-/

namespace Urma.Runtime

open Chain Lib Program

variable {crates : PublishCrates} {checks : PlanChecks} {node : Node} {plan : DiskPlan}

variable (crates checks node plan) in
/-- The program submits only what is permitted, and what it returns satisfies `post`. -/
abbrev Safe {α : Type} (calls : Calls) (p : Publishing α) (post : Calls → α → Prop) : Prop :=
  Holds (fun _ => True) (submitGuard crates checks node plan) calls p (returning post)

variable {calls : Calls} {raw : String} {txid : Txid} {session : Session}

/-! ## Calls that change nothing -/

/-- Calls that observe nothing and do not block. -/
structure Quiet (crates : PublishCrates) (node : Node) (calls calls' : Calls) : Prop where
  still : Still calls calls'
  clear : ∀ underWay, ClearBut crates node underWay calls → ClearBut crates node underWay calls'

theorem Quiet.refl (calls : Calls) : Quiet crates node calls calls :=
  ⟨Still.refl calls, fun _ => id⟩

theorem Quiet.trans {a b c : Calls} (h : Quiet crates node a b) (h' : Quiet crates node b c) :
    Quiet crates node a c :=
  ⟨h.still.trans h'.still, fun underWay hclear => h'.clear underWay (h.clear underWay hclear)⟩

theorem Still.mem {a b : Calls} (h : Still a b) {call : Call Request Request.Answer}
    (hmem : call ∈ a) : call ∈ b := by
  obtain ⟨more, rfl, _⟩ := h
  exact List.mem_append_left _ hmem

theorem quiet_call {request : Request} {answer : request.Answer} (hquiet : request.isQuiet) :
    Quiet crates node calls (calls ++ [⟨request, answer⟩]) :=
  ⟨still_quiet hquiet, fun _ hclear => hclear.quiet hquiet⟩

/-- A quiet call is always permitted. -/
theorem safe_ask {request : Request} {post : Calls → request.Value → Prop}
    (hquiet : request.isQuiet)
    (hpost : ∀ calls' value, Quiet crates node calls calls' → post calls' value) :
    Safe crates checks node plan calls (ask request) post := by
  apply holds_ask.mpr
  constructor
  · cases request <;> trivial
  · intro value _
    exact hpost _ value (quiet_call hquiet)

/-! ## Broadcasting -/

theorem quiet_presence {presence : Presence} :
    Quiet crates node calls (calls ++ [⟨.presence txid, .ok presence⟩]) :=
  ⟨Still.call fun _ => rfl, fun _ hclear => hclear.presence⟩

/-- Parents are pending only when one was answered to be in the mempool. -/
theorem parentInMempool_safe (inputs : List TxIn) (pending : Bool) :
    Safe crates checks node plan calls (parentInMempool inputs pending)
      fun calls' found => Quiet crates node calls calls' ∧
        (found = true → pending = true ∨ ∃ input ∈ inputs,
          ⟨.presence input.previousOutput.txid, .ok Presence.mempool⟩ ∈ calls') := by
  induction inputs generalizing calls pending with
  | nil =>
      refine ⟨Quiet.refl calls, ?_⟩
      intro hfound
      exact Or.inl hfound
  | cons input inputs ih =>
      rw [parentInMempool]
      apply Holds.cut (fun calls' presence =>
        calls' = calls ++ [⟨.presence input.previousOutput.txid, .ok presence⟩])
      · apply holds_ask.mpr
        exact ⟨trivial, fun _ _ => rfl⟩
      · rintro _ presence rfl
        have hquiet : Quiet crates node calls
            (calls ++ [⟨.presence input.previousOutput.txid, .ok presence⟩]) := quiet_presence
        cases presence with
        | mempool =>
            apply (ih true).imp
            rintro calls' found ⟨hrest, _⟩
            refine ⟨hquiet.trans hrest, ?_⟩
            intro _
            refine Or.inr ⟨input, List.mem_cons_self, hrest.still.mem ?_⟩
            exact List.mem_append_right _ List.mem_cons_self
        | missing =>
            apply (ih pending).imp
            rintro calls' found ⟨hrest, hfound⟩
            refine ⟨hquiet.trans hrest, ?_⟩
            intro htrue
            apply (hfound htrue).imp id
            rintro ⟨other, hother, hmem⟩
            exact ⟨other, List.mem_cons_of_mem _ hother, hmem⟩
        | confirmed height hash =>
            apply (ih pending).imp
            rintro calls' found ⟨hrest, hfound⟩
            refine ⟨hquiet.trans hrest, ?_⟩
            intro htrue
            apply (hfound htrue).imp id
            rintro ⟨other, hother, hmem⟩
            exact ⟨other, List.mem_cons_of_mem _ hother, hmem⟩

/-- A permitted transaction is sent. -/
theorem sendTransaction_safe (hpermitted : Permitted crates checks node plan calls raw)
    (pending : Bool) :
    Safe crates checks node plan calls (sendTransaction raw txid pending)
      fun calls' reason => Still calls calls' ∧
        (reason.isEmpty → ClearBut crates node (· = raw) calls') := by
  rw [sendTransaction]
  apply holds_bind.mpr
  apply holds_call.mpr
  refine ⟨hpermitted, ?_⟩
  intro answer _
  have hstill : Still calls (calls ++ [⟨.sendRawTransaction raw, answer⟩]) :=
    Still.call fun _ => rfl
  have hclear : ClearBut crates node (· = raw)
      (calls ++ [⟨.sendRawTransaction raw, answer⟩]) := hpermitted.clear.sendRawTransaction
  cases answer with
  | ok result =>
      show Safe crates checks node plan _ _ _
      apply Holds.cut (fun calls' _ =>
        calls' = calls ++ [⟨.sendRawTransaction raw, .ok result⟩])
      · exact holds_lift_returning.mpr fun _ _ => rfl
      · rintro _ _ rfl
        exact ⟨hstill, fun _ => hclear⟩
  | error error =>
      show Safe crates checks node plan _ _ _
      apply Holds.cut (fun calls' (_ : Presence) =>
        Quiet crates node (calls ++ [⟨.sendRawTransaction raw, .error error⟩]) calls')
      · apply holds_ask.mpr
        exact ⟨trivial, fun _ _ => quiet_presence⟩
      · intro calls' presence hquiet
        have hend : Still calls calls' ∧ ClearBut crates node (· = raw) calls' :=
          ⟨hstill.trans hquiet.still, hquiet.clear _ hclear⟩
        cases presence with
        | missing =>
            dsimp only
            split
            · exact ⟨hend.1, fun _ => hend.2⟩
            · split
              · exact ⟨hend.1, fun _ => hend.2⟩
              · exact trivial
        | mempool => exact ⟨hend.1, fun _ => hend.2⟩
        | confirmed height hash => exact ⟨hend.1, fun _ => hend.2⟩

/-- The preflight is one call, and the check is what its answer says. -/
theorem testAccept_safe {transaction : Transaction}
    (hdecode : decodeStandard crates raw = .ok transaction) :
    Safe crates checks node plan calls (testAccept crates node raw) fun calls' check =>
      ∃ answer, calls' = calls ++ [⟨.testMempoolAccept raw, answer⟩] ∧
        mempoolCheck node (crates.reveal.consensus.computeTxid transaction) answer = .ok check := by
  rw [testAccept, hdecode]
  apply Holds.cut (fun calls' decoded => calls' = calls ∧ decoded = transaction)
  · apply holds_lift_returning.mpr
    intro decoded hdecoded
    exact ⟨rfl, (Except.ok.inj hdecoded).symm⟩
  · rintro _ _ ⟨rfl, rfl⟩
    apply Holds.cut (fun calls' _ => calls' = _)
    · exact holds_lift_returning.mpr fun _ _ => rfl
    · rintro _ _ rfl
      apply holds_bind.mpr
      apply holds_call.mpr
      refine ⟨trivial, ?_⟩
      intro answer _
      show Safe crates checks node plan _ _ _
      apply holds_lift_returning.mpr
      intro check hcheck
      exact ⟨answer, rfl, hcheck⟩

/-- A broadcast sends the transaction where that is permitted, and an empty reason means that
nothing blocks but the transaction under way. -/
theorem broadcast_safe (hclear : Clear crates node calls)
    (hpermit : ∀ calls', Still calls calls' → Clear crates node calls' →
      Permitted crates checks node plan calls' raw) :
    Safe crates checks node plan calls (broadcast crates node raw)
      fun calls' reason => Still calls calls' ∧
        (reason.isEmpty → ClearBut crates node (· = raw) calls') := by
  rw [broadcast]
  apply Holds.cut (fun calls' transaction =>
    calls = calls' ∧ decodeStandard crates raw = .ok transaction)
  · exact holds_lift_returning.mpr fun _ hdecode => ⟨rfl, hdecode⟩
  · rintro _ transaction ⟨rfl, hdecode⟩
    apply Holds.andThen (parentInMempool_safe transaction.input false)
    rintro asked pending ⟨hasked, hpending⟩
    have hparent : pending = true → ParentPending asked transaction := by
      intro htrue
      rcases hpending htrue with hfalse | hfound
      · cases hfalse
      · exact hfound
    have hclear' := hasked.clear _ hclear
    apply Holds.andThen (testAccept_safe hdecode)
    rintro _ check ⟨answer, rfl, hcheck⟩
    have hstill : Still calls (asked ++ [⟨.testMempoolAccept raw, answer⟩]) :=
      hasked.still.trans (Still.call fun _ => rfl)
    -- a check that the broadcast goes on with is no refusal
    have hsend : ¬Refuses crates node asked raw answer →
        Safe crates checks node plan (asked ++ [⟨.testMempoolAccept raw, answer⟩])
          (sendTransaction raw (crates.reveal.consensus.computeTxid transaction) pending)
          fun calls' reason => Still calls calls' ∧
            (reason.isEmpty → ClearBut crates node (· = raw) calls') := by
      intro hanswer
      apply (sendTransaction_safe (hpermit _ hstill (hclear'.testMempoolAccept hanswer))
        pending).imp
      rintro calls' reason ⟨hsent, hreason⟩
      exact ⟨hstill.trans hsent, hreason⟩
    have hrefuses : Refuses crates node asked raw answer → match check with
        | .allowed => False
        | .unavailable _ => False
        | .rejected reason =>
            reason ≠ "" ∧ ¬(missingInputs reason = true ∧ ParentPending asked transaction) := by
      intro hrefuses
      have hmatch := hrefuses transaction hdecode
      rw [hcheck] at hmatch
      cases check <;> exact hmatch
    cases check with
    | allowed => exact hsend hrefuses
    | unavailable reason => exact hsend hrefuses
    | rejected reason =>
        show Safe crates checks node plan _ (if pending && missingInputs reason then _ else _) _
        by_cases hgo : (pending && missingInputs reason) = true
        · rw [if_pos hgo]
          obtain ⟨htrue, hmissing⟩ := Bool.and_eq_true_iff.mp hgo
          exact hsend fun h => (hrefuses h).2 ⟨hmissing, hparent htrue⟩
        · rw [if_neg hgo]
          refine ⟨hstill, ?_⟩
          intro hempty
          have hnot : ¬Refuses crates node asked raw answer :=
            fun h => (hrefuses h).1 (String.isEmpty_iff.mp hempty)
          exact (hclear'.testMempoolAccept hnot).weaken fun _ h => h.elim

/-! ## One transaction -/

/-- What the functions on one transaction leave of a session. -/
structure SameRows (session session' : Session) : Prop where
  observations : session'.progress.observations = session.progress.observations
  submit : session'.submit = session.submit

theorem remember_safe (presence : Presence) :
    Safe crates checks node plan calls (session.remember txid presence)
      fun calls' session' => Quiet crates node calls calls' ∧
        session'.progress = session.progress ∧ session'.submit = session.submit := by
  rw [Session.remember]
  split
  · exact ⟨Quiet.refl calls, rfl, rfl⟩
  · apply Holds.cut (fun calls' _ => Quiet crates node calls calls')
    · exact safe_ask rfl fun _ _ hquiet => hquiet
    · intro calls' _ hquiet
      exact ⟨hquiet, rfl, rfl⟩

/-- A reason that goes on does not end empty. -/
theorem not_isEmpty_append {reason text : String} (h : text ≠ "") :
    (reason ++ text).isEmpty = false := by
  rw [Bool.eq_false_iff]
  intro hempty
  apply h
  exact (String.append_eq_empty_iff.mp (String.isEmpty_iff.mp hempty)).2

/-- A missing transaction is submitted, and observed again where the broadcast was accepted. -/
theorem submission_safe (hclear : Clear crates node calls) (htxid : txidOf crates raw = some txid)
    (hlast : (observations txid calls).getLast? = some .missing)
    (hpermit : ∀ calls', Extends txid calls calls' → Clear crates node calls' →
      Permitted crates checks node plan calls' raw) :
    Safe crates checks node plan calls (session.submission crates node raw txid)
      fun calls' result => Extends txid calls calls' ∧
        (observations txid calls').getLast? = some result.1 ∧ SameRows session result.2 ∧
        (result.2.isOpen → Clear crates node calls') := by
  rw [Session.submission]
  apply Holds.andThen (remember_safe .missing)
  rintro noted session' ⟨hnoted, hprogress, hsubmit⟩
  have hrows : SameRows session session' := ⟨by rw [hprogress], hsubmit⟩
  apply Holds.andThen (broadcast_safe (hnoted.clear _ hclear) fun calls' hstill hclear' =>
    hpermit calls' (hnoted.still.trans hstill).extends hclear')
  rintro sent reason ⟨hsent, hreason⟩
  have hstill := hnoted.still.trans hsent
  by_cases hempty : reason.isEmpty = true
  · rw [if_pos hempty]
    apply Holds.cut (fun calls' presence =>
      calls' = sent ++ [⟨.presenceCached txid, .ok presence⟩])
    · apply holds_ask.mpr
      exact ⟨trivial, fun _ _ => rfl⟩
    · rintro _ presence rfl
      have hextends : Extends txid calls (sent ++ [⟨.presenceCached txid, .ok presence⟩]) :=
        hstill.extends.trans (extends_presence (.ok presence))
      by_cases hmissing : presence = .missing
      · rw [if_pos (beq_iff_eq.mpr hmissing)]
        refine ⟨hextends, getLast?_observations presence, ⟨hrows.1, hrows.2⟩, ?_⟩
        intro hopen
        -- not observable: the walk is blocked
        have hblocked := (Bool.and_eq_true_iff.mp hopen).2
        rw [Session.block] at hblocked
        cases hblocked
      · rw [if_neg fun heq => hmissing (beq_iff_eq.mp heq)]
        refine ⟨hextends, getLast?_observations presence, hrows, ?_⟩
        intro _
        exact (hreason hempty).observed htxid hmissing
  · rw [if_neg hempty]
    refine ⟨hstill.extends, ?_, ⟨hrows.1, hrows.2⟩, ?_⟩
    · rw [hstill.observations_eq]
      exact hlast
    · intro hopen
      have hblocked := (Bool.and_eq_true_iff.mp hopen).2
      rw [Session.block, not_isEmpty_append (by decide)] at hblocked
      cases hblocked

/-- What `record` does to the calls and the session. -/
structure Listed (crates : PublishCrates) (node : Node) (calls : Calls) (session : Session)
    (txid : Txid) (role : Role) (presence : Presence) (calls' : Calls) (seen : State)
    (session' : Session) : Prop where
  quiet : Quiet crates node calls calls'
  state_eq : ∃ attempted, seen = state presence attempted
  observations : session'.progress.observations =
    session.progress.observations ++ [⟨txid, role, seen⟩]
  submit : session'.submit = session.submit
  isOpen : session'.isOpen = session.isOpen

/-- What was seen is listed. -/
theorem record_safe (role : Role) (presence : Presence) :
    Safe crates checks node plan calls (session.record txid role presence)
      fun calls' result =>
        Listed crates node calls session txid role presence calls' result.1 result.2 := by
  have hend : ∀ calls' (session' : Session), Quiet crates node calls calls' ∧
      session'.progress = session.progress ∧ session'.submit = session.submit →
      Listed crates node calls session txid role presence calls'
        (state presence (session.history.contains txid))
        ((session'.pushTransaction ⟨txid, presence⟩).push
          ⟨txid, role, state presence (session.history.contains txid)⟩) := by
    rintro calls' session' ⟨hquiet, hprogress, hsubmit⟩
    refine ⟨hquiet, ⟨_, rfl⟩, ?_, hsubmit, ?_⟩
    · show session'.progress.observations ++ _ = _
      rw [hprogress]
    · show (session'.progress.retryable && session'.progress.report.blockedReason.isEmpty) = _
      rw [hprogress, Session.isOpen]
  rw [Session.record]
  dsimp only
  split
  · exact (remember_safe presence).andThen hend
  · exact hend calls session ⟨Quiet.refl calls, rfl, rfl⟩

/-- What the walk notes about a transaction is what it has observed last. -/
structure Recorded (crates : PublishCrates) (plan : DiskPlan) (calls : Calls) (raw : String)
    (seen : State) : Prop where
  available : seen.isAvailable → Observed crates plan Available calls raw
  confirmed : seen = .confirmed → Observed crates plan IsConfirmed calls raw

theorem recorded_state {presence : Presence} {attempted : Bool}
    (htxid : txidOf crates raw = some txid)
    (hlast : (observations txid calls).getLast? = some presence) :
    Recorded crates plan calls raw (state presence attempted) := by
  constructor
  · intro havailable
    apply observed_of_getLast? htxid hlast
    rintro rfl
    cases attempted <;> cases havailable
  · intro hconfirmed
    apply observed_of_getLast? htxid hlast
    cases presence with
    | confirmed height hash => exact ⟨height, hash, rfl⟩
    | mempool => cases hconfirmed
    | missing => cases attempted <;> cases hconfirmed

theorem recorded_unavailable (calls : Calls) (raw reason : String) :
    Recorded crates plan calls raw (.sourceUnavailable reason) := by
  constructor
  · intro h
    cases h
  · intro h
    cases h

theorem Recorded.extend {seen : State} {calls' : Calls} (h : Recorded crates plan calls raw seen)
    (hextends : Extends txid calls calls')
    (hother : plan.Distinct crates → txidOf crates raw ≠ some txid) :
    Recorded crates plan calls' raw seen :=
  ⟨fun havailable => (h.available havailable).extend hextends hother,
    fun hconfirmed => (h.confirmed hconfirmed).extend hextends hother⟩

/-- What `transaction` does to the calls and the session. -/
structure Transacted (crates : PublishCrates) (node : Node) (plan : DiskPlan) (calls : Calls)
    (session : Session) (raw : String) (role : Role) (eligible : Bool) (calls' : Calls)
    (seen : State) (session' : Session) : Prop where
  txid : ∃ txid, txidOf crates raw = some txid ∧ Extends txid calls calls' ∧
    session'.progress.observations = session.progress.observations ++ [⟨txid, role, seen⟩]
  recorded : Recorded crates plan calls' raw seen
  submit : session'.submit = session.submit
  clear : session'.isOpen → Clear crates node calls'
  /-- Without a submission, only a failing source blocks. -/
  retryable : eligible = false → session.isOpen → session'.progress.retryable → session'.isOpen

/-- **One transaction** is observed, and submitted when it is eligible, missing and permitted. -/
theorem transaction_safe {role : Role} {eligible : Bool} (hclear : Clear crates node calls)
    (hpermit : eligible = true → ∀ txid, txidOf crates raw = some txid → ∀ calls',
      Extends txid calls calls' → Clear crates node calls' →
        Permitted crates checks node plan calls' raw) :
    Safe crates checks node plan calls (session.transaction crates node raw role eligible)
      fun calls' result => Transacted crates node plan calls session raw role eligible calls'
        result.1 result.2 := by
  rw [Session.transaction]
  apply Holds.cut (fun calls' transaction =>
    calls = calls' ∧ decodeStandard crates raw = .ok transaction)
  · exact holds_lift_returning.mpr fun _ hdecode => ⟨rfl, hdecode⟩
  · rintro _ transaction ⟨rfl, hdecode⟩
    obtain ⟨txid, hid⟩ : ∃ txid, txid = crates.reveal.consensus.computeTxid transaction := ⟨_, rfl⟩
    have htxid : txidOf crates raw = some txid := by rw [txidOf, hdecode, hid]
    rw [← hid]
    apply holds_bind.mpr
    apply holds_call.mpr
    refine ⟨trivial, ?_⟩
    intro answer _
    show Safe crates checks node plan _ _ _
    have hextends := @extends_presence calls txid answer
    cases answer with
    | error error =>
        refine ⟨⟨txid, htxid, hextends, rfl⟩, recorded_unavailable _ _ _, rfl, ?_, ?_⟩
        · intro h
          cases h
        · intro _ _ h
          cases h
    | ok presence =>
        have hclear' : Clear crates node (calls ++ [⟨.presenceCached txid, .ok presence⟩]) :=
          hclear.presenceCached
        have hlast := @getLast?_observations calls txid presence
        by_cases hsubmits : (eligible && decide (presence = Presence.missing)) = true
        · -- the transaction is submitted
          show Safe crates checks node plan _ (if (eligible && _) = true then _ else _) _
          rw [if_pos hsubmits]
          obtain ⟨heligible, hmissing⟩ := Bool.and_eq_true_iff.mp hsubmits
          rw [of_decide_eq_true hmissing] at hextends hclear' hlast ⊢
          apply Holds.andThen (submission_safe hclear' htxid hlast fun calls' hmore hclear'' =>
            hpermit heligible txid htxid calls' (hextends.trans hmore) hclear'')
          rintro sent ⟨seen, session'⟩ ⟨hsent, hseen, hrows, hsentClear⟩
          apply (record_safe role seen).imp
          rintro calls' ⟨noted, session''⟩ ⟨hquiet, ⟨attempted, hstate⟩, hrow, hsubmit, hisOpen⟩
          refine ⟨⟨txid, htxid, (hextends.trans hsent).trans hquiet.still.extends, ?_⟩, ?_,
            hsubmit.trans hrows.submit, ?_, ?_⟩
          · rw [hrow, hrows.observations]
          · rw [hstate]
            apply recorded_state htxid
            rw [hquiet.still.observations_eq]
            exact hseen
          · intro hopen''
            exact hquiet.clear _ (hsentClear (hisOpen ▸ hopen''))
          · intro hfalse
            rw [hfalse] at heligible
            cases heligible
        · show Safe crates checks node plan _ (if (eligible && _) = true then _ else _) _
          rw [if_neg hsubmits]
          apply (record_safe role presence).imp
          rintro calls' ⟨noted, session'⟩ ⟨hquiet, ⟨attempted, hstate⟩, hrow, hsubmit, hisOpen⟩
          refine ⟨⟨txid, htxid, hextends.trans hquiet.still.extends, hrow⟩, ?_, hsubmit, ?_, ?_⟩
          · rw [hstate]
            apply recorded_state htxid
            rw [hquiet.still.observations_eq]
            exact hlast
          · intro _
            exact hquiet.clear _ hclear'
          · intro _ hopen' _
            exact hisOpen.trans hopen'

end Urma.Runtime
