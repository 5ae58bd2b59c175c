import Urma.Runtime.JournalExact
import Urma.Runtime.Relay

/-!
# What the relay asks before it submits

The relay asks for the commit output at a reveal's place in the journal. If the journal lists the
reveals in the order of the outputs that they spend, this is the output that the reveal spends, and
whatever the provider answers, a reveal is submitted only after its own output was reported unspent.
-/

namespace Urma.Runtime.Relay

open Chain Lib Lib.Stateful
open Journal (Plan)

/-- The number of the output that an encoded transaction spends. -/
def spends (crates : Journal.Crates) (raw : String) : Option ℕ :=
  match Journal.decodeTransaction crates raw with
  | .ok tx => tx.input.head?.map fun input => input.previousOutput.vout.toNat
  | .error _ => none

/-- The journal lists the reveals in the order of the outputs that they spend. -/
def InOrder (crates : Journal.Crates) (plan : Plan) : Prop :=
  ∀ index raw, plan.reveals[index]? = some raw → spends crates raw = some index

/-- The state that a provider reports of an encoded transaction. -/
def reports {σ : Type} (crates : Crates) (provider : Provider σ) (state : σ) (raw : String) :
    Except ServiceError TxState := do
  let tip ← provider.height state
  let observed ← observeEncoded crates provider tip state raw
  .ok observed.state

section

variable {σ : Type} (crates : Crates) (provider : Provider σ) (plan : Plan) (options : Options)
  (state : σ)

/-- The output that a reveal of the plan spends. -/
structure Own (index : ℕ) (txid : Txid) (vout : ℕ) : Prop where
  commit : ∃ commit, Journal.decodeTransaction crates.toCrates plan.commit = .ok commit ∧
    txid = crates.reveal.consensus.computeTxid commit
  reveal : ∃ raw, plan.reveals[index]? = some raw ∧ spends crates.toCrates raw = some vout

/-- What the provider reported when a reveal may be submitted. -/
structure Submittable (index : ℕ) (raw : String) : Prop where
  at_index : plan.reveals[index]? = some raw
  missing : reports crates provider state raw = .ok .unknown
  commit : reports crates provider state plan.commit = .ok .confirmed ∨
    (reports crates provider state plan.commit = .ok .pending ∧
      options.allowUnconfirmedCommit = true)

/-- What has been done is sound: for a reveal no output but its own is asked for, and a reveal is
submitted only when it may be, and after its own output was reported unspent. -/
structure Sound (log : List Event) : Prop where
  asks : ∀ index txid vout spent, .asked (some index) txid vout spent ∈ log →
    Own crates plan index txid vout
  submits : ∀ before after index raw, log = before ++ .posted (some index) raw :: after →
    Submittable crates provider plan options state index raw ∧
      ∃ txid vout, Own crates plan index txid vout ∧
        .asked (some index) txid vout (some false) ∈ before

end

section

variable {σ : Type} {crates : Crates} {provider : Provider σ} {plan : Plan} {options : Options}
  {state : σ} {log : List Event}

theorem Sound.nil : Sound crates provider plan options state [] where
  asks index txid vout spent h := absurd h List.not_mem_nil
  submits before after index raw h := by
    have hlength := congrArg List.length h
    rw [List.length_append, List.length_cons, List.length_nil] at hlength
    omega

/-- An output is asked for. -/
theorem Sound.ask {reveal : Option ℕ} {txid : Txid} {vout : ℕ} {spent : Option Bool}
    (h : Sound crates provider plan options state log)
    (hown : ∀ index ∈ reveal, Own crates plan index txid vout) :
    Sound crates provider plan options state (log ++ [.asked reveal txid vout spent]) where
  asks index txid' vout' spent' hmem := by
    rcases List.mem_append.mp hmem with hmem | hmem
    · exact h.asks index txid' vout' spent' hmem
    · cases List.mem_singleton.mp hmem
      exact hown index rfl
  submits before after index raw heq := by
    rcases List.append_eq_append_iff.mp heq with ⟨middle, hbefore, hlast⟩ | ⟨middle, hlog, hafter⟩
    · cases middle with
      | nil => cases hlast
      | cons event middle =>
          have hlength := congrArg List.length hlast
          rw [List.length_singleton, List.length_append, List.length_cons, List.length_cons]
            at hlength
          omega
    · cases middle with
      | nil =>
          rw [List.nil_append] at hafter
          cases hafter
      | cons event middle =>
          rw [List.cons_append, List.cons.injEq] at hafter
          obtain ⟨rfl, _⟩ := hafter
          exact h.submits before middle index raw hlog

/-- A transaction is submitted. -/
theorem Sound.post {reveal : Option ℕ} {posted : String}
    (h : Sound crates provider plan options state log)
    (hmay : ∀ index ∈ reveal, Submittable crates provider plan options state index posted ∧
      ∃ txid vout, Own crates plan index txid vout ∧
        .asked (some index) txid vout (some false) ∈ log) :
    Sound crates provider plan options state (log ++ [.posted reveal posted]) where
  asks index txid vout spent hmem := by
    rcases List.mem_append.mp hmem with hmem | hmem
    · exact h.asks index txid vout spent hmem
    · cases List.mem_singleton.mp hmem
  submits before after index raw heq := by
    rcases List.append_eq_append_iff.mp heq with ⟨middle, hbefore, hlast⟩ | ⟨middle, hlog, hafter⟩
    · cases middle with
      | nil =>
          rw [List.nil_append, List.cons.injEq] at hlast
          rw [List.append_nil] at hbefore
          cases hlast.1
          rw [hbefore]
          exact hmay index rfl
      | cons event middle =>
          have hlength := congrArg List.length hlast
          rw [List.length_singleton, List.length_append, List.length_cons, List.length_cons]
            at hlength
          omega
    · cases middle with
      | nil =>
          rw [List.nil_append, List.cons.injEq] at hafter
          rw [List.append_nil] at hlog
          cases hafter.1
          rw [← hlog]
          exact hmay index rfl
      | cons event middle =>
          rw [List.cons_append, List.cons.injEq] at hafter
          obtain ⟨rfl, _⟩ := hafter
          exact h.submits before middle index raw hlog

/-! ## Programs of the relay -/

theorem ends_asking {α : Type} {answer : σ → Except ServiceError α} {world : World σ}
    {post : Except ServiceError α → World σ → Prop} :
    Ends (asking answer) world post ↔ post (answer world.state) world := Iff.rfl

/-- What can fail without a trace keeps everything. -/
theorem ends_lift_kept {α : Type} {inv : World σ → Prop} {world : World σ}
    {result : Except ServiceError α} (h : inv world) :
    Ends (Stateful.lift result) world (kept inv) := by
  rw [ends_lift]
  cases result with
  | error error => exact h
  | ok a => exact ⟨h, trivial⟩

/-- So does an answer of the provider. -/
theorem ends_asking_kept {α : Type} {inv : World σ → Prop} {world : World σ}
    {answer : σ → Except ServiceError α} (h : inv world) :
    Ends (asking answer) world (kept inv) :=
  ends_lift_kept h

/-- What the relay has done is sound, in a world. -/
def SoundIn (crates : Crates) (provider : Provider σ) (plan : Plan) (options : Options) (state : σ)
    (world : World σ) : Prop :=
  Sound crates provider plan options state world.log

/-- **An output is asked for**, and reported unspent if the relay goes on. -/
theorem ends_requireUnspent {world : World σ} {reveal : Option ℕ} {txid : Txid} {vout : ℕ}
    (h : SoundIn crates provider plan options state world)
    (hown : ∀ index ∈ reveal, Own crates plan index txid vout) :
    Ends (requireUnspent provider reveal txid vout) world
      (keeping (SoundIn crates provider plan options state)
        fun _ world => .asked reveal txid vout (some false) ∈ world.log) := by
  have hasked : Ends (asking fun state => provider.spent state txid vout) world
      (kept (SoundIn crates provider plan options state)) := ends_asking_kept h
  refine hasked.seq ?_
  intro spent world hworld _
  rw [ends_modify_bind, ends_lift]
  cases hspent : ensureService (spent = some false)
      "relay input is spent or unspentness is unknown" with
  | error error => exact Sound.ask hworld hown
  | ok _ =>
      refine ⟨Sound.ask hworld hown, List.mem_append_right _ (List.mem_singleton.mpr ?_)⟩
      rw [of_decide_eq_true (ensureService_eq_ok.mp hspent)]

/-- **A transaction is submitted.** -/
theorem ends_postTransaction {world : World σ} {reveal : Option ℕ} {raw : String}
    (h : SoundIn crates provider plan options state world)
    (hmay : ∀ index ∈ reveal, Submittable crates provider plan options state index raw ∧
      ∃ txid vout, Own crates plan index txid vout ∧
        .asked (some index) txid vout (some false) ∈ world.log) :
    Ends (postTransaction crates provider reveal raw) world
      (kept (SoundIn crates provider plan options state)) := by
  unfold postTransaction
  cases ensureService (raw.utf8ByteSize ≤ 8000000) "transaction exceeds relay byte limit" with
  | error error => exact h
  | ok _ =>
  cases decodeBounded crates.toPublishCrates raw 8000000 with
  | error error => exact h
  | ok tx =>
  have hposted : Ends (Stateful.ofOutcome fun world =>
      ((provider.post world.state raw).1,
        (⟨(provider.post world.state raw).2, world.log ++ [.posted reveal raw]⟩ : World σ))) world
      (kept (SoundIn crates provider plan options state)) := by
    rw [ends_ofOutcome]
    cases (provider.post world.state raw).1 with
    | error error => exact Sound.post h hmay
    | ok response => exact ⟨Sound.post h hmay, trivial⟩
  refine hposted.seq ?_
  intro response world h _
  refine (ends_lift_kept h).seq fun _ world h _ => ?_
  refine (ends_lift_kept h).seq fun _ world h _ => ?_
  refine (ends_lift_kept h).seq fun _ world h _ => ?_
  refine (ends_lift_kept h).seq fun _ world h _ => ?_
  exact ⟨h, trivial⟩

/-- **The funding of the commit is looked at.** -/
theorem ends_confirmedFunding {world : World σ} {network : Network}
    (h : SoundIn crates provider plan options state world) :
    Ends (confirmedFunding crates provider network plan) world
      (kept (SoundIn crates provider plan options state)) := by
  unfold confirmedFunding
  refine (ends_lift_kept h).seq fun _ world h _ => ?_
  refine (ends_lift_kept h).seq fun raw world h _ => ?_
  refine (ends_lift_kept h).seq fun expected world h _ => ?_
  refine (ends_asking_kept h).seq fun tip world h _ => ?_
  refine (ends_asking_kept h).seq fun tipHash world h _ => ?_
  refine (ends_asking_kept h).seq fun found world h _ => ?_
  refine (ends_lift_kept h).seq fun _ world h _ => ?_
  refine (ends_lift_kept h).seq fun _ world h _ => ?_
  refine (ends_asking_kept h).seq fun status world h _ => ?_
  refine (ends_asking_kept h).seq fun confirmations world h _ => ?_
  refine (ends_lift_kept h).seq fun _ world h _ => ?_
  have hnone : ∀ index ∈ (none : Option ℕ), Own crates plan index
      (crates.reveal.consensus.computeTxid expected) plan.funding.vout := fun _ hindex => by
    cases hindex
  refine (ends_requireUnspent h hnone).seq fun _ world h _ => ?_
  refine (ends_asking_kept h).seq fun again world h _ => ?_
  exact ends_lift_kept h

/-! ## The loop over the reveals -/

variable {commit : Transaction}

/-- **One reveal** of a journal in order is submitted after its own output was asked for. -/
theorem ends_submitReveal {world : World σ} {index : ℕ} (horder : InOrder crates.toCrates plan)
    (hcommit : Journal.decodeTransaction crates.toCrates plan.commit = .ok commit)
    (hmay : ∀ raw, plan.reveals[index]? = some raw →
      Submittable crates provider plan options state index raw)
    (h : SoundIn crates provider plan options state world) :
    Ends (submitReveal crates provider plan commit index) world
      (kept (SoundIn crates provider plan options state)) := by
  unfold submitReveal
  cases hraw : plan.reveals[index]? with
  | none => exact h
  | some raw =>
  cases ensureService (index ≤ u32Max) "out of range integral type conversion attempted" with
  | error error => exact h
  | ok _ =>
  have hown : Own crates plan index (crates.reveal.consensus.computeTxid commit) index :=
    ⟨⟨commit, hcommit, rfl⟩, raw, hraw, horder index raw hraw⟩
  have hsome : ∀ other ∈ some index,
      Own crates plan other (crates.reveal.consensus.computeTxid commit) index := by
    intro other hother
    cases hother
    exact hown
  refine (ends_requireUnspent h hsome).seq fun _ world h hmem => ?_
  refine ends_postTransaction h fun other hother => ?_
  cases hother
  exact ⟨hmay raw hraw, _, _, hown, hmem⟩

/-- **All missing reveals.** -/
theorem ends_submitReveals {world : World σ} {indices : List ℕ}
    (horder : InOrder crates.toCrates plan)
    (hcommit : Journal.decodeTransaction crates.toCrates plan.commit = .ok commit)
    (hmay : ∀ index ∈ indices, ∀ raw, plan.reveals[index]? = some raw →
      Submittable crates provider plan options state index raw)
    (h : SoundIn crates provider plan options state world) :
    Ends (submitReveals crates provider plan commit indices) world
      (kept (SoundIn crates provider plan options state)) := by
  induction indices generalizing world with
  | nil => exact ⟨h, trivial⟩
  | cons index indices ih =>
      have hfirst := ends_submitReveal horder hcommit (hmay index List.mem_cons_self) h
      refine hfirst.seq fun txid world h _ => ?_
      have hothers := ih (fun other hother => hmay other (List.mem_cons_of_mem index hother)) h
      exact hothers.seq fun txids world h _ => ⟨h, trivial⟩

/-! ## What is known before a step -/

theorem mapM_forall₂ {ε α β : Type} {f : α → Except ε β} {xs : List α} {ys : List β} :
    xs.mapM f = .ok ys ↔ List.Forall₂ (fun x y => f x = .ok y) xs ys := by
  induction xs generalizing ys with
  | nil =>
      rw [List.mapM_nil]
      constructor
      · intro h
        cases h
        exact .nil
      · intro h
        cases h
        rfl
  | cons x xs ih =>
      rw [List.mapM_cons, Except.bind_eq_ok]
      constructor
      · intro h
        obtain ⟨y, hy, h⟩ := h
        obtain ⟨others, hothers, h⟩ := Except.bind_eq_ok.mp h
        cases h
        exact .cons hy (ih.mp hothers)
      · intro h
        cases h with
        | cons hy hothers =>
            exact ⟨_, hy, Except.bind_eq_ok.mpr ⟨_, ih.mpr hothers, rfl⟩⟩

/-- What `status_plan` has read. -/
structure Reported (crates : Crates) (provider : Provider σ) (network : Network) (url : String)
    (plan : Plan) (state : σ) (status : PlanStatus) : Prop where
  report : validatePlan crates plan = .ok status.report
  network : plan.network = network.display
  height : provider.height state = .ok status.tipHeight
  commit : observeEncoded crates provider status.tipHeight state plan.commit =
    .ok status.commitStatus
  reveals : List.Forall₂ (fun raw observed =>
    observeEncoded crates provider status.tipHeight state raw = .ok observed) plan.reveals
      status.revealStatuses
  phase : planPhase status.commitStatus status.revealStatuses = .ok status.status

theorem statusPlan_reported {network : Network} {url : String} {status : PlanStatus}
    (h : statusPlan crates provider network url plan state = .ok status) :
    Reported crates provider network url plan state status := by
  obtain ⟨report, hreport, h⟩ := Except.bind_eq_ok.mp h
  obtain ⟨_, hnetwork, h⟩ := Except.bind_eq_ok.mp h
  obtain ⟨tip, htip, h⟩ := Except.bind_eq_ok.mp h
  obtain ⟨hash, _, h⟩ := Except.bind_eq_ok.mp h
  obtain ⟨commit, hcommit, h⟩ := Except.bind_eq_ok.mp h
  obtain ⟨reveals, hreveals, h⟩ := Except.bind_eq_ok.mp h
  obtain ⟨again, _, h⟩ := Except.bind_eq_ok.mp h
  obtain ⟨_, _, h⟩ := Except.bind_eq_ok.mp h
  obtain ⟨phase, hphase, h⟩ := Except.bind_eq_ok.mp h
  cases h
  exact ⟨hreport, of_decide_eq_true (ensureService_eq_ok.mp hnetwork), htip, hcommit,
    mapM_forall₂.mp hreveals, hphase⟩

/-- The missing reveals are those reported unknown. -/
theorem missingReveals_mem {status : PlanStatus} {missing : List ℕ} {index : ℕ}
    (h : missingReveals status = .ok missing) (hindex : index ∈ missing) :
    ∃ observed, status.revealStatuses[index]? = some observed ∧ observed.state = .unknown := by
  obtain ⟨_, _, h⟩ := Except.bind_eq_ok.mp h
  cases h
  obtain ⟨_, hany⟩ := List.mem_filter.mp hindex
  obtain ⟨observed, hobserved, hstate⟩ := (Option.any_eq_true _ _).mp hany
  exact ⟨observed, hobserved, of_decide_eq_true hstate⟩

/-- **Reveals are submitted** when the commit is confirmed, or pending and this was allowed. -/
theorem nextStep_reveals {status : PlanStatus} {allow : Bool} {missing : List ℕ}
    (h : nextStep status allow = .ok (.reveals missing)) :
    (status.commitStatus.state = .confirmed ∨
      (status.commitStatus.state = .pending ∧ allow = true)) ∧
      ∀ index ∈ missing, ∃ observed, status.revealStatuses[index]? = some observed ∧
        observed.state = .unknown := by
  unfold nextStep at h
  split at h
  · cases h
  · split at h
    · next hallow =>
        obtain ⟨_, hpending, h⟩ := Except.bind_eq_ok.mp h
        obtain ⟨found, hfound, h⟩ := Except.bind_eq_ok.mp h
        split at h
        · cases h
        · cases h
          exact ⟨Or.inr ⟨of_decide_eq_true (ensureService_eq_ok.mp hpending), hallow⟩,
            fun index hindex => missingReveals_mem hfound hindex⟩
    · cases h
  · cases h
  · cases h
  · obtain ⟨_, hconfirmed, h⟩ := Except.bind_eq_ok.mp h
    obtain ⟨found, hfound, h⟩ := Except.bind_eq_ok.mp h
    cases h
    exact ⟨Or.inl (of_decide_eq_true (ensureService_eq_ok.mp hconfirmed)),
      fun index hindex => missingReveals_mem hfound hindex⟩

/-- What was observed at the reported height is what the provider reports. -/
theorem reports_of_observed {tip : ℕ} {raw : String} {observed : Observed}
    (hheight : provider.height state = .ok tip)
    (h : observeEncoded crates provider tip state raw = .ok observed) :
    reports crates provider state raw = .ok observed.state := by
  rw [reports, hheight]
  show (observeEncoded crates provider tip state raw >>= _) = _
  rw [h]
  rfl

/-- **Every missing reveal** may be submitted. -/
theorem prepareStep_submittable {before : PlanStatus} {missing : List ℕ} {index : ℕ} {raw : String}
    (h : prepareStep crates provider options plan state = .ok (before, .reveals missing))
    (hindex : index ∈ missing) (hraw : plan.reveals[index]? = some raw) :
    Submittable crates provider plan options state index raw := by
  obtain ⟨_, _, h⟩ := Except.bind_eq_ok.mp h
  obtain ⟨_, _, h⟩ := Except.bind_eq_ok.mp h
  obtain ⟨_, _, h⟩ := Except.bind_eq_ok.mp h
  obtain ⟨url, _, h⟩ := Except.bind_eq_ok.mp h
  obtain ⟨status, hstatus, h⟩ := Except.bind_eq_ok.mp h
  obtain ⟨step, hstep, h⟩ := Except.bind_eq_ok.mp h
  cases h
  have hreported := statusPlan_reported hstatus
  obtain ⟨hcommit, hmissing⟩ := nextStep_reveals hstep
  obtain ⟨observed, hobserved, hunknown⟩ := hmissing index hindex
  have hreport := reports_of_observed hreported.height hreported.commit
  refine ⟨hraw, ?_, ?_⟩
  · have hlength := hreported.reveals.length_eq
    obtain ⟨hlt, hget⟩ := List.getElem?_eq_some_iff.mp hobserved
    obtain ⟨hltRaw, hgetRaw⟩ := List.getElem?_eq_some_iff.mp hraw
    have hpair := (List.forall₂_iff_get.mp hreported.reveals).2 index hltRaw hlt
    rw [List.get_eq_getElem, List.get_eq_getElem, hgetRaw, hget] at hpair
    rw [reports_of_observed hreported.height hpair, hunknown]
  · rcases hcommit with hconfirmed | ⟨hpending, hallow⟩
    · exact Or.inl (by rw [hreport, hconfirmed])
    · exact Or.inr ⟨by rw [hreport, hpending], hallow⟩

/-- A plan is validated before its step. -/
theorem prepareStep_valid {prepared : PlanStatus × Step}
    (h : prepareStep crates provider options plan state = .ok prepared) :
    ∃ report, validatePlan crates plan = .ok report := by
  obtain ⟨_, _, h⟩ := Except.bind_eq_ok.mp h
  obtain ⟨report, hreport, _⟩ := Except.bind_eq_ok.mp h
  exact ⟨report, hreport⟩

/-- The commit of a valid plan decodes with the limit of the journal, too. -/
theorem decode_own (hvalid : ∃ report, validatePlan crates plan = .ok report)
    (h : decodeBounded crates.toPublishCrates plan.commit plan.commit.utf8ByteSize = .ok commit) :
    Journal.decodeTransaction crates.toCrates plan.commit = .ok commit := by
  obtain ⟨report, hvalid⟩ := hvalid
  obtain ⟨_, _, hvalid⟩ := Except.bind_eq_ok.mp hvalid
  obtain ⟨_, _, hvalid⟩ := Except.bind_eq_ok.mp hvalid
  obtain ⟨_, _, hvalid⟩ := Except.bind_eq_ok.mp hvalid
  obtain ⟨_, _, hvalid⟩ := Except.bind_eq_ok.mp hvalid
  obtain ⟨_, _, hvalid⟩ := Except.bind_eq_ok.mp hvalid
  obtain ⟨decoded, hdecoded, _⟩ := Except.bind_eq_ok.mp hvalid
  obtain ⟨_, _, hown⟩ := Except.bind_eq_ok.mp h
  obtain ⟨_, hsize, _⟩ := Except.bind_eq_ok.mp hdecoded
  exact Except.bind_eq_ok.mpr ⟨_, hsize, hown⟩

/-- **A journal in order is relayed soundly**, whatever the provider answers. -/
theorem broadcastPlan_sound (horder : InOrder crates.toCrates plan) :
    Sound crates provider plan options state
      (outcome (broadcastPlan crates provider options plan) ⟨state, []⟩).2.log := by
  have hstart : SoundIn crates provider plan options state ⟨state, []⟩ := Sound.nil
  have hends : Ends (broadcastPlan crates provider options plan) ⟨state, []⟩
      (kept (SoundIn crates provider plan options state)) := by
    unfold broadcastPlan
    have hasked : Ends (asking (prepareStep crates provider options plan)) ⟨state, []⟩
        (keeping (SoundIn crates provider plan options state)
          fun prepared _ => prepareStep crates provider options plan state = .ok prepared) := by
      rw [ends_asking]
      cases prepareStep crates provider options plan state with
      | error error => exact hstart
      | ok prepared => exact ⟨hstart, rfl⟩
    refine hasked.seq fun prepared world h hprepared => ?_
    obtain ⟨before, step⟩ := prepared
    have hstep : Ends (takeStep crates provider options plan step) world
        (kept (SoundIn crates provider plan options state)) := by
      cases step with
      | commit =>
          refine (ends_confirmedFunding h).seq fun _ world h _ => ?_
          have hnone : ∀ index ∈ (none : Option ℕ),
              Submittable crates provider plan options state index plan.commit ∧
                ∃ txid vout, Own crates plan index txid vout ∧
                  .asked (some index) txid vout (some false) ∈ world.log := fun _ hindex => by
            cases hindex
          refine (ends_postTransaction h hnone).seq fun txid world h _ => ?_
          exact ⟨h, trivial⟩
      | reveals missing =>
          rw [takeStep]
          cases hcommit : decodeBounded crates.toPublishCrates plan.commit
              plan.commit.utf8ByteSize with
          | error error => exact h
          | ok commit =>
              have hdecoded := decode_own (prepareStep_valid hprepared) hcommit
              have hmay : ∀ index ∈ missing, ∀ raw, plan.reveals[index]? = some raw →
                  Submittable crates provider plan options state index raw :=
                fun index hindex raw hraw => prepareStep_submittable hprepared hindex hraw
              refine (ends_submitReveals horder hdecoded hmay h).seq fun txids world h _ => ?_
              exact ⟨h, trivial⟩
      | wait => exact ⟨h, trivial⟩
      | complete => exact ⟨h, trivial⟩
    exact hstep.seq fun _ world h _ => ⟨h, trivial⟩
  have hlog := hends
  rw [Ends] at hlog
  cases hresult : (outcome (broadcastPlan crates provider options plan) ⟨state, []⟩).1 with
  | error error =>
      rw [hresult] at hlog
      exact hlog
  | ok relayed =>
      rw [hresult] at hlog
      exact hlog.1

end

end Urma.Runtime.Relay
