import Urma.Runtime.RelayHonest

/-!
# A call of the relay

What the relay does keeps every invariant that neither a question nor a submission breaks. Before an
honest provider it takes the step that the ledger calls for: the commit becomes known, or every
reveal does if each spends the output at its place in the journal.
-/

namespace Urma.Runtime.Relay

open Chain Lib Lib.Stateful
open Journal (Plan)

/-! ## What a call keeps -/

section

variable {σ : Type} {crates : Crates} {provider : Provider σ} {plan : Plan} {options : Options}
  {inv : World σ → Prop} {world : World σ}

/-- An invariant that neither a question nor a submission breaks. -/
structure Steady (provider : Provider σ) (inv : World σ → Prop) : Prop where
  asked : ∀ world reveal txid vout spent, inv world →
    inv { world with log := world.log ++ [.asked reveal txid vout spent] }
  posted : ∀ world reveal raw, inv world →
    inv ⟨(provider.post world.state raw).2, world.log ++ [.posted reveal raw]⟩

theorem Steady.requireUnspent {reveal : Option ℕ} {txid : Txid} {vout : ℕ}
    (hsteady : Steady provider inv) (h : inv world) :
    Ends (requireUnspent provider reveal txid vout) world (kept inv) := by
  refine (ends_asking_kept h).seq fun spent world h _ => ?_
  rw [ends_modify_bind]
  exact ends_lift_kept (hsteady.asked world reveal txid vout spent h)

theorem Steady.postTransaction {reveal : Option ℕ} {raw : String} (hsteady : Steady provider inv)
    (h : inv world) : Ends (postTransaction crates provider reveal raw) world (kept inv) := by
  refine (ends_lift_kept h).seq fun _ world h _ => ?_
  refine (ends_lift_kept h).seq fun tx world h _ => ?_
  have hposted : Ends (Stateful.ofOutcome fun world =>
      ((provider.post world.state raw).1,
        (⟨(provider.post world.state raw).2, world.log ++ [.posted reveal raw]⟩ : World σ))) world
      (kept inv) := by
    rw [ends_ofOutcome]
    cases (provider.post world.state raw).1 with
    | error error => exact hsteady.posted world reveal raw h
    | ok response => exact ⟨hsteady.posted world reveal raw h, trivial⟩
  refine hposted.seq fun response world h _ => ?_
  refine (ends_lift_kept h).seq fun _ world h _ => ?_
  refine (ends_lift_kept h).seq fun _ world h _ => ?_
  refine (ends_lift_kept h).seq fun _ world h _ => ?_
  refine (ends_lift_kept h).seq fun _ world h _ => ?_
  exact ⟨h, trivial⟩

theorem Steady.confirmedFunding {network : Network} (hsteady : Steady provider inv)
    (h : inv world) : Ends (confirmedFunding crates provider network plan) world (kept inv) := by
  refine (ends_lift_kept h).seq fun _ world h _ => ?_
  refine (ends_lift_kept h).seq fun raw world h _ => ?_
  refine (ends_lift_kept h).seq fun expected world h _ => ?_
  refine (ends_asking_kept h).seq fun tip world h _ => ?_
  refine (ends_asking_kept h).seq fun tipHash world h _ => ?_
  refine (ends_asking_kept h).seq fun found world h _ => ?_
  refine (ends_lift_kept h).seq fun _ world h _ => ?_
  refine (ends_lift_kept h).seq fun _ world h _ => ?_
  refine (ends_asking_kept h).seq fun status world h _ => ?_
  refine (ends_asking_kept h).seq fun confirmations world h _ => ?_
  refine (ends_lift_kept h).seq fun _ world h _ => ?_
  refine (hsteady.requireUnspent h).seq fun _ world h _ => ?_
  refine (ends_asking_kept h).seq fun again world h _ => ?_
  exact ends_lift_kept h

theorem Steady.submitReveals {commit : Transaction} {indices : List ℕ}
    (hsteady : Steady provider inv) (h : inv world) :
    Ends (submitReveals crates provider plan commit indices) world (kept inv) := by
  induction indices generalizing world with
  | nil => exact ⟨h, trivial⟩
  | cons index indices ih =>
      have hfirst : Ends (submitReveal crates provider plan commit index) world (kept inv) := by
        refine (ends_lift_kept h).seq fun raw world h _ => ?_
        refine (ends_lift_kept h).seq fun _ world h _ => ?_
        refine (hsteady.requireUnspent h).seq fun _ world h _ => ?_
        exact hsteady.postTransaction h
      refine hfirst.seq fun txid world h _ => ?_
      exact (ih h).seq fun txids world h _ => ⟨h, trivial⟩

/-- **A call** keeps what is steady. -/
theorem Steady.broadcastPlan (hsteady : Steady provider inv) (h : inv world) :
    Ends (broadcastPlan crates provider options plan) world (kept inv) := by
  refine (ends_asking_kept h).seq fun prepared world h _ => ?_
  obtain ⟨before, step⟩ := prepared
  have hstep : Ends (takeStep crates provider options plan step) world (kept inv) := by
    cases step with
    | commit =>
        refine (hsteady.confirmedFunding h).seq fun _ world h _ => ?_
        exact (hsteady.postTransaction h).seq fun txid world h _ => ⟨h, trivial⟩
    | reveals missing =>
        refine (ends_lift_kept h).seq fun commit world h _ => ?_
        exact (hsteady.submitReveals h).seq fun txids world h _ => ⟨h, trivial⟩
    | wait => exact ⟨h, trivial⟩
    | complete => exact ⟨h, trivial⟩
  exact hstep.seq fun _ world h _ => ⟨h, trivial⟩

/-- What has been done stays in the log. -/
theorem steady_log {event : Event} : Steady provider fun world => event ∈ world.log where
  asked _ _ _ _ _ h := List.mem_append_left _ h
  posted _ _ _ h := List.mem_append_left _ h

end

section

variable {crates : Crates} {serialize : Transaction → Bytes} {url : String} {plan : Plan}
  {network : Network} {options : Options} {ledger : Ledger} {commit : Transaction}

/-- A transaction that is known stays known. -/
theorem steady_known {tx : Transaction} :
    Steady (Ledger.provider crates serialize url) fun world => tx ∈ world.state.known where
  asked _ _ _ _ _ h := h
  posted world reveal raw h := by
    dsimp only [Ledger.provider]
    split
    · exact h
    · split
      · rw [Ledger.known, Ledger.admitted, ← List.append_assoc]
        exact List.mem_append_left _ h
      · exact h

/-- A call of the relay forgets nothing. -/
theorem known_after {tx : Transaction} (h : tx ∈ ledger.known) :
    tx ∈ (after crates serialize url options plan ledger).known :=
  (@Steady.broadcastPlan Ledger crates (Ledger.provider crates serialize url) plan options _
    ⟨ledger, []⟩ steady_known h).invariant

/-! ## The step that is taken -/

/-- A reveal of the journal that a ledger does not know, by its place. -/
def IsMissing (crates : Journal.Crates) (plan : Plan) (ledger : Ledger) (index : ℕ) : Prop :=
  ∃ raw tx, plan.reveals[index]? = some raw ∧ Journal.decodeTransaction crates raw = .ok tx ∧
    tx ∉ ledger.known

/-- A ledger calls for a step. -/
def CallsFor (crates : Journal.Crates) (plan : Plan) (commit : Transaction) (options : Options)
    (ledger : Ledger) : Step → Prop
  | .commit => commit ∉ ledger.known
  | .reveals missing => commit ∈ ledger.known ∧ missing.Nodup ∧
      ∀ index, index ∈ missing ↔ IsMissing crates plan ledger index
  | .wait => commit ∈ ledger.known ∧ (Submitted crates plan ledger ∨
      (options.allowUnconfirmedCommit = false ∧ commit ∉ ledger.mined))
  | .complete => Submitted crates plan ledger

theorem stateOf_eq_unknown {tx : Transaction} : ledger.stateOf tx = .unknown ↔ tx ∉ ledger.known := by
  rw [Ledger.stateOf]
  constructor
  · intro h hknown
    rw [if_pos hknown] at h
    split at h <;> cases h
  · intro hknown
    rw [if_neg fun hmined => hknown (Ledger.known_of_mined hmined), if_neg hknown]

theorem stateOf_eq_confirmed {tx : Transaction} :
    ledger.stateOf tx = .confirmed ↔ tx ∈ ledger.mined := by
  rw [Ledger.stateOf]
  constructor
  · intro h
    by_contra hmined
    rw [if_neg hmined] at h
    split at h <;> cases h
  · intro hmined
    rw [if_pos hmined]

theorem stateOf_eq_pending {tx : Transaction} :
    ledger.stateOf tx = .pending ↔ tx ∉ ledger.mined ∧ tx ∈ ledger.known := by
  rw [Ledger.stateOf]
  constructor
  · intro h
    split at h
    · cases h
    · next hmined =>
        split at h
        · next hknown => exact ⟨hmined, hknown⟩
        · cases h
  · rintro ⟨hmined, hknown⟩
    rw [if_neg hmined, if_pos hknown]

/-- The observation at the place of a reveal. -/
theorem Shows.at_index {status : PlanStatus} {index : ℕ} {observed : Observed}
    (h : Shows crates plan commit ledger status)
    (hobserved : status.revealStatuses[index]? = some observed) :
    ∃ raw, plan.reveals[index]? = some raw ∧ Observes crates.toCrates ledger raw observed := by
  obtain ⟨hlt, hget⟩ := List.getElem?_eq_some_iff.mp hobserved
  have hlt' : index < plan.reveals.length := by rw [h.reveals.length_eq]; exact hlt
  refine ⟨plan.reveals[index], List.getElem?_eq_getElem hlt', ?_⟩
  have hpair := h.reveals.get hlt' hlt
  rw [List.get_eq_getElem, List.get_eq_getElem, hget] at hpair
  exact hpair

/-- The observation of a reveal. -/
theorem Shows.of_index {status : PlanStatus} {index : ℕ} {raw : String}
    (h : Shows crates plan commit ledger status) (hraw : plan.reveals[index]? = some raw) :
    ∃ observed, status.revealStatuses[index]? = some observed ∧
      Observes crates.toCrates ledger raw observed := by
  obtain ⟨hlt, hget⟩ := List.getElem?_eq_some_iff.mp hraw
  have hlt' : index < status.revealStatuses.length := by rw [← h.reveals.length_eq]; exact hlt
  refine ⟨status.revealStatuses[index], List.getElem?_eq_getElem hlt', ?_⟩
  have hpair := h.reveals.get hlt hlt'
  rw [List.get_eq_getElem, List.get_eq_getElem, hget] at hpair
  exact hpair

/-- **The missing reveals** of a status are those that the ledger does not know. -/
theorem missingReveals_eq_ok {status : PlanStatus} (hvalid : Valid crates plan commit)
    (h : Shows crates plan commit ledger status) :
    ∃ missing, missingReveals status = .ok missing ∧ missing.Nodup ∧
      ∀ index, index ∈ missing ↔ IsMissing crates.toCrates plan ledger index := by
  have hlength := h.reveals.length_eq
  obtain ⟨hpositive, hlimit⟩ := hvalid.count
  have hcount : (!status.revealStatuses.isEmpty && decide (status.revealStatuses.length ≤ limitRecords))
      = true := by
    rw [Bool.and_eq_true, Bool.not_eq_true', List.isEmpty_eq_false_iff, decide_eq_true_eq]
    refine ⟨List.ne_nil_of_length_pos (by omega), by omega⟩
  refine ⟨_, Except.bind_eq_ok.mpr ⟨(), ensureService_eq_ok.mpr hcount, rfl⟩,
    List.nodup_range.filter _, ?_⟩
  intro index
  rw [List.mem_filter, Option.any_eq_true]
  constructor
  · intro ⟨_, observed, hobserved, hunknown⟩
    obtain ⟨raw, hraw, tx, hdecoded, hstate⟩ := h.at_index hobserved
    refine ⟨raw, tx, hraw, hdecoded, stateOf_eq_unknown.mp ?_⟩
    rw [← hstate]
    exact of_decide_eq_true hunknown
  · intro ⟨raw, tx, hraw, hdecoded, hknown⟩
    obtain ⟨observed, hobserved, tx', hdecoded', hstate⟩ := h.of_index hraw
    rw [hdecoded] at hdecoded'
    cases hdecoded'
    refine ⟨List.mem_range.mpr (List.getElem?_eq_some_iff.mp hobserved).1, observed, hobserved, ?_⟩
    rw [hstate]
    exact decide_eq_true (stateOf_eq_unknown.mpr hknown)

/-- All reveals are known where none is missing. -/
theorem submitted_of_no_missing
    (h : ∀ index, ¬ IsMissing crates.toCrates plan ledger index) :
    Submitted crates.toCrates plan ledger := by
  intro reveal ⟨raw, hraw, hdecoded⟩
  obtain ⟨index, hindex, hget⟩ := List.mem_iff_getElem.mp hraw
  by_contra hknown
  refine h index ⟨raw, reveal, ?_, hdecoded, hknown⟩
  rw [List.getElem?_eq_getElem hindex, hget]

/-- **The next step** is one that the ledger calls for. -/
theorem nextStep_callsFor {status : PlanStatus} (hvalid : Valid crates plan commit)
    (h : Shows crates plan commit ledger status) :
    ∃ step, nextStep status options.allowUnconfirmedCommit = .ok step ∧
      CallsFor crates.toCrates plan commit options ledger step := by
  obtain ⟨missing, hmissing, hnodup, hmem⟩ := missingReveals_eq_ok hvalid h
  have hphase := h.phase
  have hcommit := h.commit
  cases hstate : status.commitStatus.state with
  | unknown =>
      rw [hstate] at hcommit
      simp only [planPhase, hstate] at hphase
      obtain ⟨_, _, hphase⟩ := Except.bind_eq_ok.mp hphase
      cases hphase' : status.status with
      | prepared =>
          refine ⟨.commit, ?_, stateOf_eq_unknown.mp hcommit.symm⟩
          rw [nextStep, hphase']
      | _ => rw [hphase'] at hphase; cases hphase
  | pending =>
      rw [hstate] at hcommit
      obtain ⟨hmined, hknown⟩ := stateOf_eq_pending.mp hcommit.symm
      simp only [planPhase, hstate] at hphase
      obtain ⟨_, _, hphase⟩ := Except.bind_eq_ok.mp hphase
      cases hphase' : status.status with
      | commitPending =>
          rw [nextStep, hphase']
          cases hallow : options.allowUnconfirmedCommit with
          | false => exact ⟨.wait, rfl, hknown, Or.inr ⟨hallow, hmined⟩⟩
          | true =>
              refine ⟨if missing.isEmpty then .wait else .reveals missing, ?_, ?_⟩
              · refine Except.bind_eq_ok.mpr ⟨(), ensureService_eq_ok.mpr ?_, ?_⟩
                · rw [hstate]
                  exact decide_eq_true rfl
                · exact Except.bind_eq_ok.mpr ⟨missing, hmissing, rfl⟩
              · split
                · next hempty =>
                    rw [List.isEmpty_iff] at hempty
                    refine ⟨hknown, Or.inl (submitted_of_no_missing fun index hindex => ?_)⟩
                    rw [← hmem index, hempty] at hindex
                    exact List.not_mem_nil hindex
                · exact ⟨hknown, hnodup, hmem⟩
      | _ => rw [hphase'] at hphase; cases hphase
  | confirmed =>
      rw [hstate] at hcommit
      have hmined := stateOf_eq_confirmed.mp hcommit.symm
      have hknown := Ledger.known_of_mined hmined
      simp only [planPhase, hstate] at hphase
      split at hphase
      · next hall =>
          cases hphase' : status.status with
          | confirmed =>
              refine ⟨.complete, by rw [nextStep, hphase'], ?_⟩
              refine submitted_of_no_missing fun index hindex => ?_
              obtain ⟨raw, tx, hraw, hdecoded, htx⟩ := hindex
              obtain ⟨observed, hobserved, tx', hdecoded', hstate'⟩ := h.of_index hraw
              rw [hdecoded] at hdecoded'
              cases hdecoded'
              have hconfirmed := of_decide_eq_true
                (List.all_eq_true.mp hall observed (List.mem_of_getElem? hobserved))
              rw [hstate'] at hconfirmed
              exact htx (Ledger.known_of_mined (stateOf_eq_confirmed.mp hconfirmed))
          | _ => rw [hphase'] at hphase; cases hphase
      · split at hphase
        · cases hphase' : status.status with
          | awaitingReveals =>
              refine ⟨.reveals missing, ?_, hknown, hnodup, hmem⟩
              rw [nextStep, hphase']
              refine Except.bind_eq_ok.mpr ⟨(), ensureService_eq_ok.mpr ?_, ?_⟩
              · rw [hstate]
                exact decide_eq_true rfl
              · exact Except.bind_eq_ok.mpr ⟨missing, hmissing, rfl⟩
          | _ => rw [hphase'] at hphase; cases hphase
        · next hany =>
            cases hphase' : status.status with
            | confirming =>
                refine ⟨.wait, by rw [nextStep, hphase'], hknown, Or.inl ?_⟩
                refine submitted_of_no_missing fun index hindex => ?_
                obtain ⟨raw, tx, hraw, hdecoded, htx⟩ := hindex
                obtain ⟨observed, hobserved, tx', hdecoded', hstate'⟩ := h.of_index hraw
                rw [hdecoded] at hdecoded'
                cases hdecoded'
                refine hany (List.any_eq_true.mpr ⟨observed, List.mem_of_getElem? hobserved, ?_⟩)
                rw [hstate']
                exact decide_eq_true (stateOf_eq_unknown.mpr htx)
            | _ => rw [hphase'] at hphase; cases hphase

/-- The networks of valid journals. -/
theorem network_of_supported {found : Network} (h : supportedNetwork network.display = .ok found) :
    network = .regtest ∨ network = .testnet4 := by
  cases network with
  | regtest => exact Or.inl rfl
  | testnet4 => exact Or.inr rfl
  | _ => simp [supportedNetwork, Network.display] at h

/-- **Everything before the step** succeeds. -/
theorem prepareStep_callsFor {report : Journal.Report} (hlawful : crates.Lawful serialize)
    (hreport : validatePlan crates plan = .ok report) (hvalid : Valid crates plan commit)
    (hallowed : options.Authorize plan) (h : Consistent crates plan options.network ledger) :
    ∃ prepared, prepareStep crates (Ledger.provider crates serialize url) options plan ledger =
      .ok prepared ∧ CallsFor crates.toCrates plan commit options ledger prepared.2 := by
  obtain ⟨found, hfound⟩ := hvalid.network
  rw [hallowed.network] at hfound
  have hnetwork := network_of_supported hfound
  have hauthorize : authorize options.network plan.feeSats options.budget
      options.acceptProviderTrust = .ok () := by
    obtain ⟨hpositive, hlimit, hfee⟩ := hallowed.budget
    refine Except.bind_eq_ok.mpr ⟨(), ensureService_eq_ok.mpr ?_, ?_⟩
    · rcases hnetwork with hnetwork | hnetwork <;> rw [hnetwork] <;> rfl
    refine Except.bind_eq_ok.mpr ⟨(), ensureService_eq_ok.mpr hallowed.trust, ?_⟩
    rw [ensureService_eq_ok, Bool.and_eq_true, Bool.and_eq_true, decide_eq_true_eq,
      decide_eq_true_eq, decide_eq_true_eq]
    exact ⟨⟨hpositive, hlimit⟩, hfee⟩
  have hconnect : connect crates (Ledger.provider crates serialize url) options.network ledger =
      .ok url := by
    obtain ⟨block, hblock, hgenesis⟩ := Option.map_eq_some_iff.mp h.genesis
    refine Except.bind_eq_ok.mpr ⟨(), ensureService_eq_ok.mpr ?_, ?_⟩
    · rcases hnetwork with hnetwork | hnetwork <;> rw [hnetwork] <;> rfl
    refine Except.bind_eq_ok.mpr ⟨url, rfl, ?_⟩
    refine Except.bind_eq_ok.mpr ⟨block.1, ?_, ?_⟩
    · show (ledger.blocks[0]?).elim _ _ = _
      rw [hblock]
      rfl
    · exact Except.bind_eq_ok.mpr ⟨(), ensureService_eq_ok.mpr (decide_eq_true hgenesis), rfl⟩
  obtain ⟨status, hstatus, hshows⟩ := @statusPlan_shows crates serialize url plan options.network
    ledger commit report hlawful hreport hvalid hallowed.network h
  obtain ⟨step, hstep, hcalls⟩ := nextStep_callsFor hvalid hshows
  refine ⟨(status, step), ?_, hcalls⟩
  refine Except.bind_eq_ok.mpr ⟨(), hauthorize, ?_⟩
  refine Except.bind_eq_ok.mpr ⟨report, hreport, ?_⟩
  refine Except.bind_eq_ok.mpr
    ⟨(), ensureService_eq_ok.mpr (decide_eq_true hallowed.network), ?_⟩
  refine Except.bind_eq_ok.mpr ⟨url, hconnect, ?_⟩
  refine Except.bind_eq_ok.mpr ⟨status, hstatus, ?_⟩
  exact Except.bind_eq_ok.mpr ⟨step, hstep, rfl⟩

/-! ## A submission -/

/-- A check that succeeds. -/
theorem outcome_ensure {world : World Ledger} {condition : Bool} {message : String}
    (h : condition = true) :
    outcome (Stateful.lift (ensureService condition message)) world = (.ok (), world) :=
  outcome_lift (ensureService_eq_ok.mpr h)

/-- An answer that is there. -/
theorem outcome_asking {α : Type} {world : World Ledger} {answer : Ledger → Except ServiceError α}
    {a : α} (h : answer world.state = .ok a) : outcome (asking answer) world = (.ok a, world) :=
  outcome_lift h

/-- An output that is not spent. -/
theorem outcome_requireUnspent {world : World Ledger} {reveal : Option ℕ} {txid : Txid} {vout : ℕ}
    (h : (Ledger.provider crates serialize url).spent world.state txid vout = .ok (some false)) :
    outcome (requireUnspent (Ledger.provider crates serialize url) reveal txid vout) world =
      (.ok (), { world with log := world.log ++ [.asked reveal txid vout (some false)] }) := by
  have hasked : outcome (asking fun state =>
      (Ledger.provider crates serialize url).spent state txid vout) world =
        (.ok (some false), world) := outcome_asking h
  rw [requireUnspent, outcome_bind, hasked]
  rfl

/-- **A transaction that the ledger takes** is submitted. -/
theorem ends_postTransaction_taken {world : World Ledger} {reveal : Option ℕ} {raw : String}
    {tx : Transaction} (hdecoded : Journal.decodeTransaction crates.toCrates raw = .ok tx)
    (htakes : world.state.takes crates tx = true) :
    Ends (postTransaction crates (Ledger.provider crates serialize url) reveal raw) world
      fun result after => (∃ txid, result = .ok txid) ∧ after.state = world.state.admitted tx := by
  obtain ⟨_, hsize, hdecode⟩ := Except.bind_eq_ok.mp hdecoded
  have hpost : (Ledger.provider crates serialize url).post world.state raw =
      (.ok ⟨200, (crates.reveal.consensus.computeTxid tx).bytes.toList,
        .ok (crates.reveal.consensus.computeTxid tx)⟩, world.state.admitted tx) := by
    dsimp only [Ledger.provider]
    rw [hdecode]
    dsimp only
    rw [if_pos htakes]
  have hbody : (crates.reveal.consensus.computeTxid tx).bytes.toList.length ≤ 1024 := by
    rw [Vector.length_toList]
    decide
  refine Ends.after (outcome_ensure (ensureService_eq_ok.mp hsize)) ?_
  refine Ends.after (outcome_lift hdecoded) ?_
  have hsent : outcome (Stateful.ofOutcome fun world =>
      (((Ledger.provider crates serialize url).post world.state raw).1,
        (⟨((Ledger.provider crates serialize url).post world.state raw).2,
          world.log ++ [.posted reveal raw]⟩ : World Ledger))) world =
      (.ok ⟨200, (crates.reveal.consensus.computeTxid tx).bytes.toList,
        .ok (crates.reveal.consensus.computeTxid tx)⟩,
        ⟨world.state.admitted tx, world.log ++ [.posted reveal raw]⟩) := by
    show (_, _) = _
    rw [hpost]
  refine Ends.after hsent ?_
  refine Ends.after (outcome_ensure (decide_eq_true hbody)) ?_
  refine Ends.after (outcome_ensure (decide_eq_true rfl)) ?_
  refine Ends.after (outcome_lift rfl) ?_
  refine Ends.after (outcome_ensure (decide_eq_true rfl)) ?_
  exact ⟨⟨_, rfl⟩, rfl⟩

/-- The output of a reveal that is not known has not been spent. -/
theorem isSpent_eq_false {index vout : ℕ} {raw : String} {tx : Transaction}
    (hvalid : Valid crates plan commit) (h : Consistent crates plan network ledger)
    (hraw : plan.reveals[index]? = some raw) (hspends : Spends crates plan commit raw tx vout)
    (hknown : tx ∉ ledger.known) :
    ledger.isSpent (crates.reveal.consensus.computeTxid commit) vout = false := by
  rw [Ledger.isSpent, List.any_eq_false]
  intro other hother hany
  obtain ⟨input, hinput, hmatch⟩ := List.any_eq_true.mp hany
  rw [Bool.and_eq_true, decide_eq_true_eq, decide_eq_true_eq] at hmatch
  obtain ⟨htxid, hvout⟩ := hmatch
  have hlt : input.previousOutput.vout.toNat < plan.reveals.length := by
    rw [hvout]
    exact hspends.vout_lt
  -- Who spends it is a reveal, and no two reveals spend the same output.
  obtain ⟨raw', hraw', hdecoded'⟩ := h.children commit hvalid.decoded other hother input hinput htxid hlt
  obtain ⟨index', hindex', hget'⟩ := List.mem_iff_getElem.mp hraw'
  have hat : plan.reveals[index']? = some raw' := by
    rw [List.getElem?_eq_getElem hindex', hget']
  obtain ⟨tx', vout', hspends'⟩ := hvalid.reveals index' raw' hat
  have hsame := hspends'.decoded
  rw [hdecoded', Except.ok.injEq] at hsame
  obtain ⟨only, honly, _, hvoutOnly⟩ := hspends'.input
  rw [← hsame] at honly
  rw [honly, List.mem_singleton] at hinput
  have hspent : spends crates.toCrates raw' = some vout := by
    rw [hspends'.spends, ← hvoutOnly, ← hinput, hvout]
  have heq := hvalid.apart index raw index' raw' vout hraw hat hspends.spends hspent
  rw [← heq, hraw, Option.some.injEq] at hat
  rw [← hat, hspends.decoded, Except.ok.injEq] at hdecoded'
  rw [hdecoded'] at hknown
  exact hknown hother

/-- **A missing reveal** is taken. -/
theorem takes_reveal {index vout : ℕ} {raw : String} {tx : Transaction}
    (hvalid : Valid crates plan commit) (h : Consistent crates plan network ledger)
    (hcommit : commit ∈ ledger.known) (hraw : plan.reveals[index]? = some raw)
    (hspends : Spends crates plan commit raw tx vout) (hknown : tx ∉ ledger.known) :
    ledger.takes crates tx = true := by
  have hpart : IsPart crates.toCrates plan tx :=
    ⟨raw, List.mem_cons_of_mem _ (List.mem_of_getElem? hraw), hspends.decoded⟩
  have hunspent := isSpent_eq_false hvalid h hraw hspends hknown
  obtain ⟨input, hinput, htxid, hvout⟩ := hspends.input
  have hparent := find_eq_some (h.identifies (isPart_commit hvalid)) hcommit
  have houtput : vout < commit.output.length := by
    rw [hvalid.outputs]
    exact Nat.lt_succ_of_lt hspends.vout_lt
  rw [Ledger.takes, find_eq_none (h.identifies hpart) hknown, hinput, List.all_cons, List.all_nil,
    htxid, hvout, hparent, hunspent, Option.any_some, decide_eq_true houtput]
  rfl

/-- The ledger stays consistent with the journal. -/
theorem consistent_admitted {tx : Transaction} (hdistinct : Distinct crates.toCrates plan)
    (hvalid : Valid crates plan commit) (h : Consistent crates plan network ledger)
    (hcommit : commit ∈ ledger.known) (hreveal : IsReveal crates.toCrates plan tx) :
    Consistent crates plan network (ledger.admitted tx) := by
  have hknown : ∀ other, other ∈ (ledger.admitted tx).known → other ∈ ledger.known ∨ other = tx := by
    intro other hother
    rw [Ledger.known, Ledger.admitted, ← List.append_assoc] at hother
    rcases List.mem_append.mp hother with hother | hother
    · exact Or.inl hother
    · exact Or.inr (List.mem_singleton.mp hother)
  have hkeeps : ∀ other, other ∈ ledger.known → other ∈ (ledger.admitted tx).known := by
    intro other hother
    rw [Ledger.known, Ledger.admitted, ← List.append_assoc]
    exact List.mem_append_left _ hother
  refine ⟨h.genesis, h.hashes, ?_, ?_, ?_⟩
  · intro other hother part hpart htxid
    rcases hknown other hother with hother | rfl
    · exact h.own other hother part hpart htxid
    · exact hdistinct.parts other part hreveal.isPart hpart htxid
  · intro commit' reveal hdecoded hreveal'
    rw [hvalid.decoded, Except.ok.injEq] at hdecoded
    rw [← hdecoded]
    exact ⟨fun _ => hkeeps commit hcommit, (h.parents commit reveal hvalid.decoded hreveal').2⟩
  · intro commit' hdecoded other hother input hinput htxid hvout
    rcases hknown other hother with hother | rfl
    · exact h.children commit' hdecoded other hother input hinput htxid hvout
    · exact hreveal

/-- **A missing reveal at its own place** is submitted. -/
theorem ends_submitReveal_taken {world : World Ledger} {index : ℕ} {raw : String} {tx : Transaction}
    (hvalid : Valid crates plan commit) (h : Consistent crates plan network world.state)
    (hcommit : commit ∈ world.state.known) (hraw : plan.reveals[index]? = some raw)
    (hspends : Spends crates plan commit raw tx index) (hknown : tx ∉ world.state.known) :
    Ends (submitReveal crates (Ledger.provider crates serialize url) plan commit index) world
      fun result after => (∃ txid, result = .ok txid) ∧ after.state = world.state.admitted tx := by
  have hindex : index ≤ u32Max := by
    have hlt := hspends.vout_lt
    have hlimit := hvalid.count.2
    have hbound : limitRecords ≤ u32Max := by decide
    omega
  have hspent : (Ledger.provider crates serialize url).spent world.state
      (crates.reveal.consensus.computeTxid commit) index = .ok (some false) := by
    show Except.ok (some (world.state.isSpent _ _)) = _
    rw [isSpent_eq_false hvalid h hraw hspends hknown]
  refine Ends.after (outcome_lift (contextService_eq_ok.mpr hraw)) ?_
  refine Ends.after (outcome_ensure (decide_eq_true hindex)) ?_
  refine Ends.after (outcome_requireUnspent hspent) ?_
  exact ends_postTransaction_taken hspends.decoded
    (takes_reveal hvalid h hcommit hraw hspends hknown)

/-- **All missing reveals** of a journal in order are submitted. -/
theorem ends_submitReveals_taken {world : World Ledger} {indices : List ℕ}
    (horder : InOrder crates.toCrates plan) (hdistinct : Distinct crates.toCrates plan)
    (hvalid : Valid crates plan commit) (h : Consistent crates plan network world.state)
    (hcommit : commit ∈ world.state.known) (hnodup : indices.Nodup)
    (hmissing : ∀ index ∈ indices, IsMissing crates.toCrates plan world.state index) :
    Ends (submitReveals crates (Ledger.provider crates serialize url) plan commit indices) world
      fun _ after => (∀ tx ∈ world.state.known, tx ∈ after.state.known) ∧
        ∀ index ∈ indices, ¬ IsMissing crates.toCrates plan after.state index := by
  induction indices generalizing world with
  | nil => exact ⟨fun _ htx => htx, fun _ hindex => absurd hindex List.not_mem_nil⟩
  | cons index indices ih =>
      obtain ⟨hfresh, hothers⟩ := List.nodup_cons.mp hnodup
      obtain ⟨raw, tx, hraw, hdecoded, hknown⟩ := hmissing index List.mem_cons_self
      obtain ⟨tx', vout, hspends⟩ := hvalid.reveals index raw hraw
      have hsame := hspends.decoded
      rw [hdecoded, Except.ok.injEq] at hsame
      subst hsame
      have hvout := horder index raw hraw
      rw [hspends.spends, Option.some.injEq] at hvout
      rw [hvout] at hspends
      have hfirst := @ends_submitReveal_taken crates serialize url plan network commit world index
        raw tx hvalid h hcommit hraw hspends hknown
      refine hfirst.bind ?_ ?_
      · rintro txid world' ⟨_, hstate⟩
        have hstays : ∀ other ∈ world.state.known, other ∈ world'.state.known := by
          intro other hother
          rw [hstate, Ledger.known, Ledger.admitted, ← List.append_assoc]
          exact List.mem_append_left _ hother
        have hposted : tx ∈ world'.state.known := by
          rw [hstate, Ledger.known, Ledger.admitted]
          exact List.mem_append_right _ (List.mem_append_right _ List.mem_cons_self)
        have hnext : Consistent crates plan network world'.state := by
          rw [hstate]
          exact consistent_admitted hdistinct hvalid h hcommit
            ⟨raw, List.mem_of_getElem? hraw, hdecoded⟩
        have hleft : ∀ other ∈ indices, IsMissing crates.toCrates plan world'.state other := by
          intro other hother
          obtain ⟨raw', tx', hraw', hdecoded', hknown'⟩ :=
            hmissing other (List.mem_cons_of_mem _ hother)
          refine ⟨raw', tx', hraw', hdecoded', fun hin => ?_⟩
          rw [hstate, Ledger.known, Ledger.admitted, ← List.append_assoc] at hin
          rcases List.mem_append.mp hin with hin | hin
          · exact hknown' hin
          · -- The same transaction at two places would spend two outputs.
            rw [List.mem_singleton] at hin
            have hown := horder other raw' hraw'
            rw [spends, hdecoded', hin, ← hdecoded] at hown
            have heq : spends crates.toCrates raw = some other := by
              rw [spends]
              exact hown
            rw [horder index raw hraw, Option.some.injEq] at heq
            rw [heq] at hfresh
            exact hfresh hother
        have hgone : ∀ {state : Ledger}, tx ∈ state.known →
            ¬ IsMissing crates.toCrates plan state index := by
          rintro state htx ⟨raw', tx', hraw', hdecoded', hknown'⟩
          rw [hraw, Option.some.injEq] at hraw'
          rw [← hraw', hdecoded, Except.ok.injEq] at hdecoded'
          rw [← hdecoded'] at hknown'
          exact hknown' htx
        have hrest := ih hnext (hstays commit hcommit) hothers hleft
        have hdone : ∀ {state : Ledger}, (∀ other ∈ world'.state.known, other ∈ state.known) ∧
            (∀ other ∈ indices, ¬ IsMissing crates.toCrates plan state other) →
            (∀ other ∈ world.state.known, other ∈ state.known) ∧
            ∀ other ∈ index :: indices, ¬ IsMissing crates.toCrates plan state other := by
          rintro state ⟨hkeeps, hall⟩
          refine ⟨fun other hother => hkeeps other (hstays other hother), ?_⟩
          intro other hother
          rcases List.mem_cons.mp hother with rfl | hother
          · exact hgone (hkeeps tx hposted)
          · exact hall other hother
        exact hrest.bind (fun txids world'' h => hdone h) fun error world'' h => hdone h
      · rintro error world' ⟨⟨_, hok⟩, _⟩
        cases hok

/-! ## The commit -/

/-- The funding of a valid journal is an output of what the journal has as its transaction. -/
theorem funding_of_prevout {bytes : Bytes} {funding : Transaction} {outpoint : OutPoint}
    {output : TxOut} (hlawful : crates.Lawful serialize)
    (hbytes : crates.hexDecode plan.funding.rawTransaction = .ok bytes)
    (hfunding : crates.deserialize bytes = .ok funding)
    (h : plan.funding.prevout crates.toPlanCrates = .ok (outpoint, output)) :
    plan.funding.vout < funding.output.length ∧
      outpoint = ⟨crates.reveal.consensus.computeTxid funding, UInt32.ofNat plan.funding.vout⟩ := by
  obtain ⟨decoded, hdecoded, h⟩ := Except.bind_eq_ok.mp h
  obtain ⟨found, hfound, h⟩ := Except.bind_eq_ok.mp h
  obtain ⟨_, _, h⟩ := Except.bind_eq_ok.mp h
  obtain ⟨_, _, h⟩ := Except.bind_eq_ok.mp h
  obtain ⟨_, _, hdecode⟩ := Except.bind_eq_ok.mp hdecoded
  obtain ⟨bytes', hbytes', hdecoded'⟩ := hlawful.decodeHex _ decoded hdecode
  rw [hbytes, Except.ok.injEq] at hbytes'
  rw [← hbytes', hfunding, Except.ok.injEq] at hdecoded'
  rw [contextService_eq_ok, ← hdecoded'] at hfound
  rw [← hdecoded'] at h
  cases h
  exact ⟨(List.getElem?_eq_some_iff.mp hfound).1, rfl⟩

/-- **The commit** is submitted where its funding is confirmed and not spent. -/
theorem ends_commit_taken {world : World Ledger} (hlawful : crates.Lawful serialize)
    (hvalid : Valid crates plan commit) (hnetwork : plan.network = options.network.display)
    (h : Consistent crates plan options.network world.state)
    (hfunded : Funded crates plan world.state) (hknown : commit ∉ world.state.known) :
    Ends (takeStep crates (Ledger.provider crates serialize url) options plan .commit) world
      fun _ after => commit ∈ after.state.known := by
  obtain ⟨bytes, funding, hbytes, hfunding, hmined, hidentifies, hunspent⟩ := hfunded.transaction
  obtain ⟨outpoint, output, input, hprevout, hinput, houtpoint⟩ := hvalid.funding
  obtain ⟨houtput, hpoint⟩ := funding_of_prevout hlawful hbytes hfunding hprevout
  obtain ⟨hash, htip⟩ := @exists_tip crates serialize url plan options.network world.state h
  have hfind := find_eq_some hidentifies (Ledger.known_of_mined hmined)
  obtain ⟨height, block, hblock, hin, hplace⟩ := place_eq_some hidentifies hmined
  have hstatus : (Ledger.provider crates serialize url).status world.state
      (crates.reveal.consensus.computeTxid funding) = .ok ⟨true, some height, some block.1⟩ := by
    dsimp only [Ledger.provider]
    rw [hplace]
  obtain ⟨confirmations, hpositive, hverified⟩ := @verifyConfirmation_eq_ok crates serialize url plan
    options.network world.state height block funding h hblock hin
  have hoptional := @transactionOptional_eq_some crates serialize url world.state bytes funding
    hfunding (hlawful.serialize bytes funding hfunding) hfind
  have htransaction : transaction crates (Ledger.provider crates serialize url)
      (crates.reveal.consensus.computeTxid funding) world.state = .ok (funding, bytes) :=
    Except.bind_eq_ok.mpr ⟨_, hoptional, rfl⟩
  have hspent : (Ledger.provider crates serialize url).spent world.state
      (crates.reveal.consensus.computeTxid funding) plan.funding.vout = .ok (some false) := by
    show Except.ok (some (world.state.isSpent _ _)) = _
    rw [hunspent]
  have hconfirmed : outcome (confirmedFunding crates (Ledger.provider crates serialize url)
      options.network plan) world = (.ok (), { world with log := world.log ++
        [.asked none (crates.reveal.consensus.computeTxid funding) plan.funding.vout
          (some false)] }) := by
    have hends : Ends (confirmedFunding crates (Ledger.provider crates serialize url)
        options.network plan) world fun result after => result = .ok () ∧ after = { world with
          log := world.log ++ [.asked none (crates.reveal.consensus.computeTxid funding)
            plan.funding.vout (some false)] } := by
      refine Ends.after (outcome_ensure (decide_eq_true hnetwork)) ?_
      refine Ends.after (outcome_lift hbytes) ?_
      refine Ends.after (outcome_lift hfunding) ?_
      refine Ends.after (outcome_asking rfl) ?_
      refine Ends.after (outcome_asking htip) ?_
      refine Ends.after (outcome_asking htransaction) ?_
      refine Ends.after (outcome_ensure ?_) ?_
      · rw [decide_eq_true rfl, decide_eq_true rfl]
        rfl
      refine Ends.after (outcome_ensure (decide_eq_true houtput)) ?_
      refine Ends.after (outcome_asking hstatus) ?_
      refine Ends.after (outcome_asking hverified) ?_
      refine Ends.after (outcome_ensure (decide_eq_true hpositive)) ?_
      refine Ends.after (outcome_requireUnspent hspent) ?_
      refine Ends.after (outcome_asking htip) ?_
      exact ⟨ensureService_eq_ok.mpr (decide_eq_true rfl), rfl⟩
    exact Prod.ext hends.1 hends.2
  have htakes : world.state.takes crates commit = true := by
    have hvout : (UInt32.ofNat plan.funding.vout).toNat = plan.funding.vout := by
      have hle := hfunded.vout
      rw [UInt32.toNat_ofNat']
      exact Nat.mod_eq_of_lt (by rw [u32Max] at hle; omega)
    rw [Ledger.takes, find_eq_none (h.identifies (isPart_commit hvalid)) hknown, hinput,
      List.all_cons, List.all_nil, houtpoint, hpoint]
    show (true && ((world.state.find crates (crates.reveal.consensus.computeTxid funding)).any _ &&
      !world.state.isSpent (crates.reveal.consensus.computeTxid funding)
        (UInt32.ofNat plan.funding.vout).toNat && true)) = true
    rw [hvout, hfind, hunspent, Option.any_some, decide_eq_true houtput]
    rfl
  refine Ends.after hconfirmed ?_
  have hposted := @ends_postTransaction_taken crates serialize url
    { world with log := world.log ++
        [.asked none (crates.reveal.consensus.computeTxid funding) plan.funding.vout
          (some false)] } none plan.commit commit hvalid.decoded htakes
  refine hposted.bind ?_ ?_
  · rintro txid world' ⟨_, hstate⟩
    show commit ∈ world'.state.known
    rw [hstate, Ledger.known, Ledger.admitted]
    exact List.mem_append_right _ (List.mem_append_right _ List.mem_cons_self)
  · rintro error world' ⟨⟨_, hok⟩, _⟩
    cases hok

end

end Urma.Runtime.Relay
