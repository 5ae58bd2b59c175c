import Urma.Chain.TransactionExact
import Urma.Core.ScriptSize
import Urma.Runtime.RelayRun

/-!
# When a journal is relayed

Repeated calls before an honest provider end with every reveal submitted if the journal lists the
reveals in the order of the outputs that they spend. If a reveal stands in another place, there is a
ledger with everything but this reveal, and the relay asks for the output of another one.
-/

namespace Urma.Runtime.Relay

open Chain Lib Lib.Stateful
open Journal (Plan)

section

variable {crates : Crates} {serialize : Transaction → Bytes} {url : String} {plan : Plan}
  {options : Options} {ledger : Ledger} {commit : Transaction} {report : Journal.Report}

/-! ## One call -/

/-- What is submitted stays submitted. -/
theorem Submitted.mono {later : Ledger} (h : Submitted crates.toCrates plan ledger)
    (hkeeps : ∀ tx ∈ ledger.known, tx ∈ later.known) : Submitted crates.toCrates plan later :=
  fun reveal hreveal => hkeeps reveal (h reveal hreveal)

/-- Nothing is submitted before the commit. -/
theorem submitted_commit (h : Submitted crates.toCrates plan ledger)
    (hvalid : Valid crates plan commit)
    (hconsistent : Consistent crates plan options.network ledger) :
    commit ∈ ledger.known := by
  have hpositive : 0 < plan.reveals.length := hvalid.count.1
  obtain ⟨tx, vout, hspends⟩ := hvalid.reveals 0 plan.reveals[0] (List.getElem?_eq_getElem hpositive)
  have hreveal : IsReveal crates.toCrates plan tx := ⟨_, List.getElem_mem hpositive, hspends.decoded⟩
  exact (hconsistent.parents commit tx hvalid.decoded hreveal).1 (h tx hreveal)

/-- The commit decodes with its own length as the limit. -/
theorem decode_commit (hvalid : Valid crates plan commit) :
    decodeBounded crates.toPublishCrates plan.commit plan.commit.utf8ByteSize = .ok commit := by
  obtain ⟨_, _, hdecode⟩ := Except.bind_eq_ok.mp hvalid.decoded
  exact Except.bind_eq_ok.mpr ⟨(), ensureService_eq_ok.mpr (decide_eq_true (le_refl _)), hdecode⟩

/-- How a call ends follows from how its step does. -/
theorem ends_broadcastPlan_of_step {prepared : PlanStatus × Step} {post : Ledger → Prop}
    (hprepared : prepareStep crates (Ledger.provider crates serialize url) options plan ledger =
      .ok prepared)
    (hstep : Ends (takeStep crates (Ledger.provider crates serialize url) options plan prepared.2)
      ⟨ledger, []⟩ fun _ after => post after.state) :
    post (after crates serialize url options plan ledger) := by
  have hends : Ends (broadcastPlan crates (Ledger.provider crates serialize url) options plan)
      ⟨ledger, []⟩ fun _ after => post after.state := by
    refine Ends.after (outcome_asking hprepared) ?_
    exact hstep.bind (fun _ world h => h) fun _ world h => h
  exact hends

/-- **After a call the commit is known.** -/
theorem commit_known_after (hlawful : crates.Lawful serialize)
    (hreport : validatePlan crates plan = .ok report) (hvalid : Valid crates plan commit)
    (hallowed : options.Authorize plan) (h : Consistent crates plan options.network ledger)
    (hfunded : commit ∉ ledger.known → Funded crates plan ledger) :
    commit ∈ (after crates serialize url options plan ledger).known := by
  by_cases hknown : commit ∈ ledger.known
  · exact known_after hknown
  obtain ⟨⟨before, step⟩, hprepared, hcalls⟩ := @prepareStep_callsFor crates serialize url plan
    options ledger commit report hlawful hreport hvalid hallowed h
  cases step with
  | commit =>
      refine @ends_broadcastPlan_of_step crates serialize url plan options ledger _
        (fun state => commit ∈ state.known) hprepared ?_
      exact @ends_commit_taken crates serialize url plan options commit ⟨ledger, []⟩ hlawful hvalid
        hallowed.network h (hfunded hknown) hknown
  | reveals missing => exact absurd hcalls.1 hknown
  | wait => exact absurd hcalls.1 hknown
  | complete => exact absurd (submitted_commit hcalls hvalid h) hknown

/-- **After a call every reveal is known**, where the commit is confirmed or need not be. -/
theorem submitted_after (hlawful : crates.Lawful serialize)
    (hreport : validatePlan crates plan = .ok report) (hvalid : Valid crates plan commit)
    (hdistinct : Distinct crates.toCrates plan) (horder : InOrder crates.toCrates plan)
    (hallowed : options.Authorize plan) (h : Consistent crates plan options.network ledger)
    (hknown : commit ∈ ledger.known)
    (hready : options.allowUnconfirmedCommit = true ∨ commit ∈ ledger.mined) :
    Submitted crates.toCrates plan (after crates serialize url options plan ledger) := by
  obtain ⟨⟨before, step⟩, hprepared, hcalls⟩ := @prepareStep_callsFor crates serialize url plan
    options ledger commit report hlawful hreport hvalid hallowed h
  cases step with
  | commit => exact absurd hknown hcalls
  | reveals missing =>
      obtain ⟨_, hnodup, hmem⟩ := hcalls
      refine @ends_broadcastPlan_of_step crates serialize url plan options ledger _
        (Submitted crates.toCrates plan) hprepared ?_
      refine Ends.after (outcome_lift (decode_commit hvalid)) ?_
      have hloop := @ends_submitReveals_taken crates serialize url plan options.network commit
        ⟨ledger, []⟩ missing horder hdistinct hvalid h hknown hnodup
        fun index hindex => (hmem index).mp hindex
      have hdone : ∀ {state : Ledger}, (∀ tx ∈ ledger.known, tx ∈ state.known) ∧
          (∀ index ∈ missing, ¬ IsMissing crates.toCrates plan state index) →
          Submitted crates.toCrates plan state := by
        intro state ⟨hkeeps, hgone⟩
        refine submitted_of_no_missing fun index hindex => ?_
        obtain ⟨raw, tx, hraw, hdecoded, hmissing⟩ := hindex
        have hbefore : IsMissing crates.toCrates plan ledger index :=
          ⟨raw, tx, hraw, hdecoded, fun htx => hmissing (hkeeps tx htx)⟩
        exact hgone index ((hmem index).mpr hbefore) ⟨raw, tx, hraw, hdecoded, hmissing⟩
      exact hloop.bind (fun _ world h => hdone h) fun _ world h => hdone h
  | wait =>
      obtain ⟨_, hsubmitted | ⟨hallow, hmined⟩⟩ := hcalls
      · exact hsubmitted.mono fun tx htx => known_after htx
      · rcases hready with hready | hready
        · rw [hready] at hallow
          cases hallow
        · exact absurd hready hmined
  | complete => exact Submitted.mono hcalls fun tx htx => known_after htx

/-! ## Repeated calls -/

/-- What is known stays known over calls. -/
theorem Calls.known {ledgers : ℕ → Ledger} {tx : Transaction}
    (hcalls : Calls crates serialize url options plan ledgers) {n m : ℕ} (hle : n ≤ m)
    (h : tx ∈ (ledgers n).known) : tx ∈ (ledgers m).known := by
  induction m, hle using Nat.le_induction with
  | base => exact h
  | succ m hle ih => exact hcalls.keeps m tx (known_after ih)

/-- **Repeated calls** of a journal in order end with every reveal submitted. -/
theorem Calls.completes {ledgers : ℕ → Ledger} (hlawful : crates.Lawful serialize)
    (hreport : validatePlan crates plan = .ok report) (hdistinct : Distinct crates.toCrates plan)
    (horder : InOrder crates.toCrates plan) (hallowed : options.Authorize plan)
    (hcalls : Calls crates serialize url options plan ledgers) :
    ∃ n, Submitted crates.toCrates plan (ledgers n) := by
  obtain ⟨commit, hvalid⟩ := valid_of_validatePlan hreport
  have hknown : commit ∈ (ledgers 1).known :=
    hcalls.keeps 0 commit (commit_known_after hlawful hreport hvalid hallowed (hcalls.consistent 0)
      (hcalls.funded 0 commit hvalid.decoded))
  have hready : ∃ m, commit ∈ (ledgers m).known ∧
      (options.allowUnconfirmedCommit = true ∨ commit ∈ (ledgers m).mined) := by
    rcases hcalls.confirms with hallow | hconfirms
    · exact ⟨1, hknown, Or.inl hallow⟩
    · obtain ⟨m, hle, hmined⟩ := hconfirms 1 commit hvalid.decoded hknown
      exact ⟨m, hcalls.known hle hknown, Or.inr hmined⟩
  obtain ⟨m, hm, hready⟩ := hready
  refine ⟨m + 1, Submitted.mono ?_ (hcalls.keeps m)⟩
  exact submitted_after hlawful hreport hvalid hdistinct horder hallowed (hcalls.consistent m) hm
    hready

/-! ## A reveal at another place -/

/-- A ledger with the commit in its mempool, and some reveals. -/
def pendingLedger (crates : Crates) (network : Network) (commit : Transaction)
    (reveals : List Transaction) : Ledger :=
  ⟨[(crates.genesisBlock network, [])], commit :: reveals⟩

theorem pendingLedger_known {network : Network} {reveals : List Transaction} :
    (pendingLedger crates network commit reveals).known = commit :: reveals := rfl

theorem pendingLedger_mined {network : Network} {reveals : List Transaction} :
    (pendingLedger crates network commit reveals).mined = [] := rfl

/-- Such a ledger is consistent with the journal. -/
theorem pendingLedger_consistent {network : Network} {reveals : List Transaction}
    (hdistinct : Distinct crates.toCrates plan) (hvalid : Valid crates plan commit)
    (hreveals : ∀ tx ∈ reveals, IsReveal crates.toCrates plan tx) :
    Consistent crates plan network (pendingLedger crates network commit reveals) := by
  refine ⟨rfl, List.nodup_singleton _, ?_, ?_, ?_⟩
  · intro tx htx part hpart htxid
    refine hdistinct.parts tx part ?_ hpart htxid
    rcases List.mem_cons.mp htx with rfl | htx
    · exact isPart_commit hvalid
    · exact (hreveals tx htx).isPart
  · intro commit' reveal hdecoded _
    rw [hvalid.decoded, Except.ok.injEq] at hdecoded
    rw [← hdecoded]
    exact ⟨fun _ => List.mem_cons_self, fun hmined => absurd hmined List.not_mem_nil⟩
  · intro commit' hdecoded tx htx input hinput htxid _
    rw [hvalid.decoded, Except.ok.injEq] at hdecoded
    rcases List.mem_cons.mp htx with rfl | htx
    · obtain ⟨outpoint, previous, only, hprevout, honly, houtpoint⟩ := hvalid.funding
      rw [honly, List.mem_singleton] at hinput
      refine absurd ?_ (hdistinct.funding outpoint previous tx hprevout hvalid.decoded)
      rw [← houtpoint, ← hinput, htxid, hdecoded]
    · exact hreveals tx htx

/-- An output has been asked for, for the sake of a reveal. -/
def Asked (index : ℕ) (txid : Txid) (vout : ℕ) (world : World Ledger) : Prop :=
  ∃ spent, .asked (some index) txid vout spent ∈ world.log

theorem steady_asked {index vout : ℕ} {txid : Txid} :
    Steady (Ledger.provider crates serialize url) (Asked index txid vout) where
  asked _ _ _ _ _ h := h.imp fun _ hmem => List.mem_append_left _ hmem
  posted _ _ _ h := h.imp fun _ hmem => List.mem_append_left _ hmem

/-- For a reveal the output at its place is asked for. -/
theorem ends_submitReveal_asked {world : World Ledger} {index : ℕ} {raw : String}
    (hvalid : Valid crates plan commit) (hraw : plan.reveals[index]? = some raw) :
    Ends (submitReveal crates (Ledger.provider crates serialize url) plan commit index) world
      (kept (Asked index (crates.reveal.consensus.computeTxid commit) index)) := by
  have hindex : index ≤ u32Max := by
    have hlt := (List.getElem?_eq_some_iff.mp hraw).1
    have hlimit := hvalid.count.2
    have hbound : limitRecords ≤ u32Max := by decide
    omega
  have hasked : Ends (requireUnspent (Ledger.provider crates serialize url) (some index)
      (crates.reveal.consensus.computeTxid commit) index) world
      (kept (Asked index (crates.reveal.consensus.computeTxid commit) index)) := by
    refine Ends.after (outcome_asking rfl) ?_
    rw [ends_modify_bind]
    exact ends_lift_kept ⟨_, List.mem_append_right _ List.mem_cons_self⟩
  refine Ends.after (outcome_lift (contextService_eq_ok.mpr hraw)) ?_
  refine Ends.after (outcome_ensure (decide_eq_true hindex)) ?_
  exact hasked.seq fun _ world h _ => steady_asked.postTransaction h

/-- **The output at the place** of the only missing reveal is asked for. -/
theorem asked_of_missing {index : ℕ} {raw : String} {tx : Transaction}
    (hlawful : crates.Lawful serialize) (hreport : validatePlan crates plan = .ok report)
    (hvalid : Valid crates plan commit) (hallowed : options.Authorize plan)
    (hallow : options.allowUnconfirmedCommit = true)
    (h : Consistent crates plan options.network ledger) (hknown : commit ∈ ledger.known)
    (hraw : plan.reveals[index]? = some raw)
    (hdecoded : Journal.decodeTransaction crates.toCrates raw = .ok tx) (htx : tx ∉ ledger.known)
    (honly : ∀ other, IsMissing crates.toCrates plan ledger other → other = index) :
    Asked index (crates.reveal.consensus.computeTxid commit) index
      (outcome (broadcastPlan crates (Ledger.provider crates serialize url) options plan)
        ⟨ledger, []⟩).2 := by
  obtain ⟨⟨before, step⟩, hprepared, hcalls⟩ := @prepareStep_callsFor crates serialize url plan
    options ledger commit report hlawful hreport hvalid hallowed h
  have hmissing : IsMissing crates.toCrates plan ledger index := ⟨raw, tx, hraw, hdecoded, htx⟩
  have hnot : ¬ Submitted crates.toCrates plan ledger := fun hsubmitted =>
    htx (hsubmitted tx ⟨raw, List.mem_of_getElem? hraw, hdecoded⟩)
  cases step with
  | commit => exact absurd hknown hcalls
  | wait =>
      obtain ⟨_, hsubmitted | ⟨hno, _⟩⟩ := hcalls
      · exact absurd hsubmitted hnot
      · rw [hallow] at hno
        cases hno
  | complete => exact absurd hcalls hnot
  | reveals missing =>
      obtain ⟨_, hnodup, hmem⟩ := hcalls
      have hsingle : missing = [index] := by
        refine List.perm_singleton.mp ((List.perm_ext_iff_of_nodup hnodup
          (List.nodup_singleton index)).mpr fun other => ?_)
        rw [List.mem_singleton]
        constructor
        · intro hother
          exact honly other ((hmem other).mp hother)
        · intro heq
          rw [heq]
          exact (hmem index).mpr hmissing
      subst hsingle
      have hstep : Ends (takeStep crates (Ledger.provider crates serialize url) options plan
          (.reveals [index])) ⟨ledger, []⟩
          (kept (Asked index (crates.reveal.consensus.computeTxid commit) index)) := by
        refine Ends.after (outcome_lift (decode_commit hvalid)) ?_
        have hloop : Ends (submitReveals crates (Ledger.provider crates serialize url) plan commit
            [index]) ⟨ledger, []⟩
            (kept (Asked index (crates.reveal.consensus.computeTxid commit) index)) :=
          (ends_submitReveal_asked hvalid hraw).seq fun txid world h _ => ⟨h, trivial⟩
        exact hloop.seq fun txids world h _ => ⟨h, trivial⟩
      have hends : Ends (broadcastPlan crates (Ledger.provider crates serialize url) options plan)
          ⟨ledger, []⟩ (kept (Asked index (crates.reveal.consensus.computeTxid commit) index)) := by
        refine Ends.after (outcome_asking hprepared) ?_
        exact hstep.seq fun _ world h _ => ⟨h, trivial⟩
      exact hends.invariant

/-- The transactions of the reveals. -/
theorem Valid.transactions (hvalid : Valid crates plan commit) :
    ∃ txs, List.Forall₂ (fun raw tx => Journal.decodeTransaction crates.toCrates raw = .ok tx)
      plan.reveals txs := by
  refine exists_forall₂ fun raw hraw => ?_
  obtain ⟨index, hindex, hget⟩ := List.mem_iff_getElem.mp hraw
  have hat : plan.reveals[index]? = some raw := by
    rw [List.getElem?_eq_getElem hindex, hget]
  obtain ⟨tx, _, hspends⟩ := hvalid.reveals index raw hat
  exact ⟨tx, hspends.decoded⟩

/-- A supported network is what its name says. -/
theorem display_of_supported {name : String} {network : Network}
    (h : supportedNetwork name = .ok network) : name = network.display := by
  rw [supportedNetwork] at h
  split at h
  · next hname =>
      cases h
      exact hname
  · split at h
    · next hname =>
        cases h
        exact hname
    · cases h

/-- The options that allow every step of a valid journal. -/
def permissive (network : Network) : Options :=
  ⟨network, relayMaxBudgetSats, true, true⟩

/-- **A journal that is relayed soundly** is in order. -/
theorem inOrder_of_sound (hlawful : crates.Lawful serialize)
    (hreport : validatePlan crates plan = .ok report) (hdistinct : Distinct crates.toCrates plan)
    (hsound : ∀ url options ledger, Consistent crates plan options.network ledger →
      Sound crates (Ledger.provider crates serialize url) plan options ledger
        (outcome (broadcastPlan crates (Ledger.provider crates serialize url) options plan)
          ⟨ledger, []⟩).2.log) :
    InOrder crates.toCrates plan := by
  obtain ⟨commit, hvalid⟩ := valid_of_validatePlan hreport
  intro index raw hraw
  obtain ⟨tx, vout, hspends⟩ := hvalid.reveals index raw hraw
  obtain ⟨network, hnetwork⟩ := hvalid.network
  have hallowed : (permissive network).Authorize plan :=
    ⟨display_of_supported hnetwork, rfl, Nat.le_of_ble_eq_true rfl, le_refl _, hvalid.fee⟩
  obtain ⟨txs, htxs⟩ := hvalid.transactions
  have hof : ∀ other ∈ txs, IsReveal crates.toCrates plan other := by
    intro other hother
    obtain ⟨place, hplace, rfl⟩ := List.mem_iff_getElem.mp hother
    have hlt : place < plan.reveals.length := by rw [htxs.length_eq]; exact hplace
    exact ⟨plan.reveals[place], List.getElem_mem hlt, htxs.get hlt hplace⟩
  -- The ledger has everything but this reveal.
  have hreveals : ∀ other ∈ txs.filter (· ≠ tx), IsReveal crates.toCrates plan other :=
    fun other hother => hof other (List.mem_filter.mp hother).1
  have hconsistent := @pendingLedger_consistent crates plan commit network (txs.filter (· ≠ tx))
    hdistinct hvalid hreveals
  have htx : tx ∉ (pendingLedger crates network commit (txs.filter (· ≠ tx))).known := by
    intro hmem
    rcases List.mem_cons.mp hmem with heq | hmem
    · obtain ⟨outpoint, previous, only, hprevout, honly, houtpoint⟩ := hvalid.funding
      obtain ⟨input, hinput, htxid, _⟩ := hspends.input
      rw [heq, honly, List.cons.injEq] at hinput
      refine absurd ?_ (hdistinct.funding outpoint previous commit hprevout hvalid.decoded)
      rw [← houtpoint, hinput.1, htxid]
    · exact of_decide_eq_true (List.mem_filter.mp hmem).2 rfl
  have honly : ∀ other, IsMissing crates.toCrates plan
      (pendingLedger crates network commit (txs.filter (· ≠ tx))) other → other = index := by
    intro other ⟨raw', tx', hraw', hdecoded', hmissing⟩
    have hsame : tx' = tx := by
      by_contra hne
      refine hmissing (List.mem_cons_of_mem _ (List.mem_filter.mpr ⟨?_, decide_eq_true hne⟩))
      obtain ⟨hlt, hget⟩ := List.getElem?_eq_some_iff.mp hraw'
      have hlt' : other < txs.length := by rw [← htxs.length_eq]; exact hlt
      have hpair := htxs.get hlt hlt'
      rw [List.get_eq_getElem, List.get_eq_getElem, hget, hdecoded', Except.ok.injEq] at hpair
      rw [hpair]
      exact List.getElem_mem hlt'
    have hspent : spends crates.toCrates raw' = some vout := by
      rw [← hspends.spends, spends, spends, hdecoded', hspends.decoded, hsame]
    exact (hvalid.apart index raw other raw' vout hraw hraw' hspends.spends hspent).symm
  obtain ⟨spent, hasked⟩ := @asked_of_missing crates serialize "" plan (permissive network)
    (pendingLedger crates network commit (txs.filter (· ≠ tx))) commit report index raw tx hlawful
    hreport hvalid hallowed rfl hconsistent List.mem_cons_self hraw hspends.decoded htx honly
  obtain ⟨raw', hraw', hown⟩ := ((hsound "" (permissive network) _ hconsistent).asks index _ index
    spent hasked).reveal
  rw [hraw, Option.some.injEq] at hraw'
  rw [hraw']
  exact hown

/-- **A journal is relayed** as it should be if and only if it lists the reveals in the order of the
outputs that they spend. -/
theorem relay_checks_own_outputs (crates : Crates) (serialize : Transaction → Bytes) (plan : Plan)
    (report : Journal.Report) (hlawful : crates.Lawful serialize)
    (hreport : validatePlan crates plan = .ok report)
    (hdistinct : Distinct crates.toCrates plan) :
    Relays crates serialize plan ↔ InOrder crates.toCrates plan := by
  constructor
  · intro hrelays
    exact inOrder_of_sound hlawful hreport hdistinct hrelays.sound
  · intro horder
    exact ⟨fun url options ledger _ => broadcastPlan_sound horder,
      fun url options ledgers hallowed hcalls =>
        hcalls.completes hlawful hreport hdistinct horder hallowed⟩

end

/-! ## A journal of two records -/

namespace Sample

open Planning.Sample Container Layout
open Journal.Sample (objectId)

/-- The P2TR script that is paid. -/
def payout : Bytes :=
  81 :: 32 :: author.key.serialize.toList

/-- Crates that know the address of the script. -/
def crates : Crates where
  toCrates := Journal.Sample.crates
  deserialize bytes :=
    match Standard.deserialize bytes with
    | .ok tx => .ok tx
    | .error _ => .error (.message "data not consumed entirely")
  addressScript network address :=
    if network = .regtest ∧
        address = "bcrt1p0xlxvlhemja6c4dqv22uapctqupfhlxm9h8z3k2e72q4k9hcz7vqc8gma6" then
      .ok payout
    else .error (.message "invalid address")
  genesisBlock _ := zeroHash
  displayHash hash := Web.hexEncode hash.toList.reverse

/-- A record of an object of two. -/
def recordAt (index : ℕ) : Bytes :=
  RecordKind.privateRecord.prefixOf ++ (objectId.toList ++
    ((Vector.replicate 16 3 : Vector UInt8 16).toList ++ (toLe 4 index ++ (toLe 4 2 ++
      List.replicate 32864 0))))

/-- The script of a record. -/
def scriptAt (index : ℕ) : Bytes :=
  Envelope.recordScript Envelope.Sample.library (recordAt index) author.key

/-- The commit spends the first coin; a media output holds the fee and what is returned. -/
def commit : Transaction where
  version := 2
  lockTime := 0
  input := [⟨(source 1000000 0).1, [], enableRbfNoLocktime,
    [List.replicate 70 48 ++ [1], Planning.Sample.crates.publicKey zeroHash]⟩]
  output := [⟨9411, payout⟩, ⟨9411, payout⟩, ⟨980970, payout⟩]

/-- What a reveal returns. -/
def returned : TxOut := ⟨1000, payout⟩

/-- The reveal of a record spends the output of the same number. -/
def revealAt (index : ℕ) : Transaction :=
  revealOf ⟨Planning.Sample.crates.reveal.consensus.computeTxid commit, UInt32.ofNat index⟩ returned
    [List.replicate 64 1, scriptAt index, tapScript :: author.key.serialize.toList]

/-- The journal lists the reveals in the other order. -/
def plan : Plan where
  version := 0
  network := "regtest"
  objectId := Planning.Sample.crates.hexEncode objectId.toList
  startHeight := 0
  inputBytes := 40000
  feeSats := 17030
  commitFeeSats := 208
  revealFeeSats := 16822
  feeRateSatVb := 1
  funding := (coin 1000000 0).funding
  commit := Planning.Sample.crates.encodeTransaction commit
  reveals := [Planning.Sample.crates.encodeTransaction (revealAt 1),
    Planning.Sample.crates.encodeTransaction (revealAt 0)]
  miningAddress := "bcrt1p0xlxvlhemja6c4dqv22uapctqupfhlxm9h8z3k2e72q4k9hcz7vqc8gma6"

/-! ### Ids -/

theorem txid_coins : Planning.Sample.crates.reveal.consensus.computeTxid (coins 1000000) =
    ⟨#v[156, 82, 88, 155, 248, 108, 31, 239, 97, 162, 239, 56, 251, 64, 96, 63, 60, 201, 43, 191,
      159, 48, 157, 35, 252, 52, 247, 11, 147, 23, 40, 91]⟩ := by
  decide +kernel

theorem txid_commit : Planning.Sample.crates.reveal.consensus.computeTxid commit =
    ⟨#v[9, 200, 162, 115, 20, 87, 218, 246, 177, 142, 39, 212, 53, 55, 185, 237, 185, 108, 55, 154,
      39, 171, 143, 52, 219, 43, 93, 59, 247, 217, 124, 36]⟩ := by
  rw [commit, source, txid_coins]
  decide +kernel

theorem txid_first : Planning.Sample.crates.reveal.consensus.computeTxid (revealAt 0) =
    ⟨#v[196, 167, 128, 3, 247, 188, 39, 190, 63, 85, 23, 45, 209, 14, 144, 90, 55, 209, 75, 248,
      148, 70, 196, 221, 172, 46, 210, 47, 19, 54, 106, 246]⟩ := by
  rw [revealAt, txid_commit]
  decide +kernel

theorem txid_second : Planning.Sample.crates.reveal.consensus.computeTxid (revealAt 1) =
    ⟨#v[82, 143, 218, 38, 68, 117, 35, 242, 13, 140, 40, 50, 223, 110, 204, 235, 186, 84, 202, 215,
      72, 204, 22, 218, 108, 174, 219, 59, 70, 138, 252, 187]⟩ := by
  rw [revealAt, txid_commit]
  decide +kernel

/-! ### Records -/

theorem recordAt_length (index : ℕ) : (recordAt index).length = Format.privateRecordBytes := by
  simp only [recordAt, List.length_append, RecordKind.prefixOf_length, Vector.length_toList,
    toLe_length, List.length_replicate]
  rfl

theorem recordAt_header {index : ℕ} (h : index < 2) : Container.inspectHeader (recordAt index) =
    .ok ⟨objectId, Vector.replicate 16 3, index, 2⟩ :=
  inspectHeader_fields rfl (recordAt_length index) h (by decide)

theorem recordAt_valid {index : ℕ} (h : index < 2) :
    Envelope.validateRecord (recordAt index) = .ok () := by
  have hkind : RecordKind.parse (recordAt index) = .ok .privateRecord :=
    RecordKind.parse_eq_ok.mpr ⟨_, rfl⟩
  rw [Envelope.validateRecord, hkind, Except.ok_bind, recordAt_header h]
  rfl

theorem scriptAt_length (index : ℕ) : (scriptAt index).length = 33161 := by
  have hlength := recordAt_length index
  have hsaved : Envelope.saved (recordAt index) = 0 := by
    apply Envelope.saved_of_length
    rw [hlength]
    decide
  have hsize := Envelope.recordScript_size Envelope.Sample.library_lawful (recordAt index) author.key
  rw [hsaved, hlength] at hsize
  exact hsize

/-! ### Sizes -/

theorem payout_length : payout.length = 34 := by
  rw [payout, List.length_cons, List.length_cons, Vector.length_toList]

theorem revealAt_weight (index : ℕ) : (revealAt index).weight = 33642 := by
  have hcompact : (Standard.compactSize (scriptAt index).length).length = 3 := by
    rw [scriptAt_length]
    decide
  have hcontrol : (tapScript :: author.key.serialize.toList).length = 33 := by
    rw [List.length_cons, Vector.length_toList]
  rw [revealAt, reveal_weight_of (show payout.length < 253 by rw [payout_length]; decide)
    List.length_replicate hcontrol, hcompact, scriptAt_length]
  show 342 + 4 * payout.length + 3 + 33161 = 33642
  rw [payout_length]

/-- The weight of the commit with one witness. -/
theorem commit_weight_of {input : TxIn} {signature key : Bytes} (hscript : input.scriptSig = [])
    (hwitness : input.witness = [signature, key]) (hsignature : signature.length < 253)
    (hkey : key.length = 33) : ({ commit with input := [input] } : Transaction).weight =
      758 + signature.length := by
  have hinputs : (Standard.counted Standard.input [input]).length = 42 :=
    inputs_length (show 1 < 253 by decide) (by
      intro other hother
      rw [List.mem_singleton.mp hother, hscript])
  have houtput : ∀ value, (Standard.output ⟨value, payout⟩).length = 43 := by
    intro value
    rw [output_length_small (show payout.length < 253 by rw [payout_length]; decide)]
    show 9 + payout.length = 43
    rw [payout_length]
  have houtputs : (Standard.counted Standard.output commit.output).length = 130 := by
    simp only [commit, Standard.counted_length, List.length_cons, List.length_nil, List.map_cons,
      List.map_nil, List.sum_cons, List.sum_nil, houtput,
      @compactSize_length_small (0 + 1 + 1 + 1) (by decide), Nat.reduceAdd]
  have hbase : (Standard.serializeBase { commit with input := [input] }).length = 180 := by
    rw [Standard.serializeBase_length, Standard.body, List.length_append]
    show 8 + ((Standard.counted Standard.input [input]).length +
      (Standard.counted Standard.output commit.output).length) = 180
    rw [hinputs, houtputs]
  have hsize : Standard.witnessSize [input] = 36 + signature.length := by
    rw [Standard.witnessSize, List.map_singleton, List.sum_singleton, hwitness,
      funding_witness_length hsignature hkey]
  have hany : ([input].any fun input => !input.witness.isEmpty) = true := by
    rw [List.any_cons, hwitness]
    rfl
  rw [Transaction.weight, Standard.serialize_length hany, hbase]
  show 3 * 180 + (2 + 180 + Standard.witnessSize [input]) = _
  rw [hsize]
  omega

theorem vsize_eq_weight (tx : Transaction) : crates.vsize tx = (tx.weight + 3) / 4 := rfl

theorem commit_weight : commit.weight = 829 := by
  have hkey : (Planning.Sample.crates.publicKey zeroHash).length = 33 :=
    Planning.Sample.crates_lawful.publicKey_length zeroHash
  exact @commit_weight_of ⟨(source 1000000 0).1, [], enableRbfNoLocktime,
    [List.replicate 70 48 ++ [1], Planning.Sample.crates.publicKey zeroHash]⟩
    (List.replicate 70 48 ++ [1]) _ rfl rfl (by decide) hkey

theorem commit_worst : (withWitnesses commit [List.replicate 73 0, List.replicate 33 0]).weight =
    831 :=
  @commit_weight_of ⟨(source 1000000 0).1, [], enableRbfNoLocktime,
    [List.replicate 73 0, List.replicate 33 0]⟩ (List.replicate 73 0) _ rfl rfl (by decide)
    (by decide)

/-! ### What the journal is checked for -/

theorem decode_commit : Journal.decodeTransaction crates.toCrates plan.commit = .ok commit :=
  decodeBounded_encode Planning.Sample.crates_lawful
    (by rw [commit_weight, standardTxWeight]; decide) (by decide)

theorem decode_reveal (index : ℕ) : Journal.decodeTransaction crates.toCrates
    (Planning.Sample.crates.encodeTransaction (revealAt index)) = .ok (revealAt index) :=
  decodeBounded_encode Planning.Sample.crates_lawful
    (by rw [revealAt_weight, standardTxWeight]; decide) (by decide)

theorem verify_reveal {index : ℕ} (h : index < 2) :
    ∃ parsed, Envelope.verifyReveal crates.reveal (revealAt index) commit = .ok parsed ∧
      parsed.record = recordAt index := by
  have hvout : (UInt32.ofNat index).toNat = index := UInt32.toNat_ofNat_of_lt' (by
    show index < 2 ^ 32
    omega)
  have hpublished : commit.output[(UInt32.ofNat index).toNat]? = some ⟨9411, payout⟩ := by
    rw [hvout]
    cases index with
    | zero => rfl
    | succ index =>
        cases index with
        | zero => rfl
        | succ index => omega
  have hcontrol : (tapScript :: author.key.serialize.toList).length = 33 := by
    rw [List.length_cons, Vector.length_toList]
  have htree : Planning.Sample.crates.reveal.script.controlBlock (scriptAt index, author.key)
      (scriptAt index) = some (tapScript :: author.key.serialize.toList) := if_pos rfl
  obtain ⟨parsed, hverify, hrecord, _⟩ := @verifyReveal_revealOf Planning.Sample.crates
    Planning.Sample.crates_lawful author (recordAt index)
    (tapScript :: author.key.serialize.toList) (List.replicate 64 1) (scriptAt index)
    (scriptAt index, author.key) returned ⟨9411, payout⟩ commit (UInt32.ofNat index)
    (List.replicate 64 1) zeroHash Planning.Sample.author_lawful.key (recordAt_valid h) rfl rfl
    htree hcontrol (Or.inr (by decide)) hpublished rfl (by decide) List.length_replicate rfl rfl rfl
  exact ⟨parsed, hverify, hrecord⟩

theorem validateMetadata_plan : Journal.validateMetadata crates.toCrates plan = .ok () := by
  have hid : crates.hexDecode plan.objectId = .ok objectId.toList :=
    Planning.Sample.crates_lawful.hexDecode _
  simp only [Journal.validateMetadata, Except.bind_eq_ok, ensureService_eq_ok, decide_eq_true_eq]
  refine ⟨(), by decide, (), rfl, (), by decide, (), rfl, (), by decide, (), by decide,
    (), by decide, _, hid, ?_⟩
  rw [Vector.length_toList]
  rfl

theorem funding_prevout : plan.funding.prevout crates.toPlanCrates =
    .ok ((source 1000000 0).1, ⟨1000000, script⟩) :=
  coin_prevout (by decide) (by decide)

theorem validateShape_of {tx : Transaction} {input : TxIn} (hversion : tx.version = 2)
    (hlockTime : tx.lockTime = 0) (hinput : tx.input = [input]) (hscript : input.scriptSig = [])
    (hsequence : input.sequence = enableRbfNoLocktime) (hweight : tx.weight ≤ standardTxWeight) :
    Journal.validateShape crates.toCrates tx = .ok () := by
  simp only [Journal.validateShape, Except.bind_eq_ok, ensureService_eq_ok, decide_eq_true_eq,
    hversion, hlockTime, hinput, hscript, hsequence]
  exact ⟨(), rfl, (), rfl, hweight⟩

theorem verifyFundingSignature_commit : Journal.verifyFundingSignature crates.toCrates commit
    ⟨1000000, script⟩ true = .ok () := by
  refine Except.bind_eq_ok.mpr ⟨_, rfl, ?_⟩
  refine Except.bind_eq_ok.mpr ⟨(), rfl, ?_⟩
  refine Except.bind_eq_ok.mpr ⟨List.replicate 70 48 ++ [1], rfl, ?_⟩
  refine Except.bind_eq_ok.mpr ⟨⟨(List.replicate 70 (48 : UInt8) ++ [1]).dropLast, .all⟩, rfl, ?_⟩
  refine Except.bind_eq_ok.mpr ⟨(), rfl, ?_⟩
  refine Except.bind_eq_ok.mpr ⟨Planning.Sample.crates.publicKey zeroHash, rfl, ?_⟩
  refine Except.bind_eq_ok.mpr ⟨_, rfl, ?_⟩
  refine Except.bind_eq_ok.mpr ⟨_, rfl, ?_⟩
  refine Except.bind_eq_ok.mpr ⟨(), rfl, ?_⟩
  refine Except.bind_eq_ok.mpr ⟨(), ensureService_eq_ok.mpr (beq_iff_eq.mpr rfl), ?_⟩
  exact Except.bind_eq_ok.mpr ⟨zeroHash, rfl, rfl⟩

theorem validateCommit_plan : Journal.validateCommit crates.toCrates plan payout commit
    (source 1000000 0).1 ⟨1000000, script⟩ true = .ok 208 := by
  have hshape : Journal.validateShape crates.toCrates commit = .ok () :=
    validateShape_of rfl rfl rfl rfl rfl (by rw [commit_weight, standardTxWeight]; decide)
  have hworst : crates.vsize (withWitnesses commit [List.replicate 73 0, List.replicate 33 0]) =
      208 := by
    rw [vsize_eq_weight, commit_worst]
  have hsize : crates.vsize commit = 208 := by
    rw [vsize_eq_weight, commit_weight]
  simp only [Journal.validateCommit, Except.bind_eq_ok, ensureService_eq_ok, contextService_eq_ok,
    hshape, hworst, hsize, verifyFundingSignature_commit]
  exact ⟨(), trivial, _, rfl, (), by simp, (), rfl, _, rfl, (), by decide, 999792, by decide, 208,
    by decide, (), rfl, (), by decide, (), trivial, rfl⟩

/-- One round of the loop over the reveals. -/
theorem append_reveal {scan : Journal.Scan} {index fee : ℕ} (h : index < 2)
    (hseen : scan.seen.contains index = false) (hchunks : scan.seenChunks.contains index = false)
    (htag : scan.discoveryTag.all (· == (Vector.replicate 16 3 : Vector UInt8 16)) = true)
    (hfee : scan.revealFee = fee) (hle : fee ≤ 8411) :
    ∃ ids sizes, scan.append crates.toCrates plan payout commit
      (Planning.Sample.crates.encodeTransaction (revealAt index)) =
        .ok ⟨index :: scan.seen, index :: scan.seenChunks, some (Vector.replicate 16 3),
          fee + 8411, ids, sizes⟩ := by
  have hvout : (UInt32.ofNat index).toNat = index := UInt32.toNat_ofNat_of_lt' (by
    show index < 2 ^ 32
    omega)
  have hsource : ∃ input, (revealAt index).input[0]? = some input ∧
      input.previousOutput.txid = crates.reveal.consensus.computeTxid commit ∧
      input.previousOutput.vout.toNat = index := ⟨_, rfl, rfl, hvout⟩
  obtain ⟨input, hinput, htxid, hspent⟩ := hsource
  have hprevout : commit.output[index]? = some ⟨9411, payout⟩ := by
    cases index with
    | zero => rfl
    | succ index =>
        cases index with
        | zero => rfl
        | succ index => omega
  have hshape : Journal.validateShape crates.toCrates (revealAt index) = .ok () :=
    validateShape_of rfl rfl rfl rfl rfl (by rw [revealAt_weight, standardTxWeight]; decide)
  obtain ⟨parsed, hverify, hrecord⟩ := verify_reveal h
  have hheader : Container.inspectHeader parsed.record =
      .ok ⟨objectId, Vector.replicate 16 3, index, 2⟩ := by
    rw [hrecord]
    exact recordAt_header h
  have hid : crates.hexDecode plan.objectId = .ok objectId.toList :=
    Planning.Sample.crates_lawful.hexDecode _
  have hsize : crates.vsize (revealAt index) = 8411 := by
    rw [vsize_eq_weight, revealAt_weight]
  have hpayout : Journal.isPayout payout (revealAt index).output = true := by
    show Journal.isPayout payout [returned] = true
    decide
  have hsum : checkedAdd scan.revealFee 8411 = some (fee + 8411) := by
    rw [checkedAdd_eq_some, hfee, u64Max]
    omega
  refine ⟨scan.revealIds ++ [crates.displayTxid (crates.reveal.consensus.computeTxid
    (revealAt index))], scan.revealSizes ++ [crates.vsize (revealAt index)], ?_⟩
  refine Except.bind_eq_ok.mpr ⟨revealAt index, decode_reveal index, ?_⟩
  refine Except.bind_eq_ok.mpr ⟨(), hshape, ?_⟩
  refine Except.bind_eq_ok.mpr ⟨input, contextService_eq_ok.mpr hinput, ?_⟩
  simp only [Except.bind_eq_ok, ensureService_eq_ok, contextService_eq_ok,
    PlanCrates.protocol_eq_ok, Bool.and_eq_true, beq_iff_eq, decide_eq_true_eq, htxid, hspent,
    hseen, hsize]
  refine ⟨(), ⟨trivial, h⟩, (), rfl, (), hpayout, _, hprevout, (), by decide, 8411, by decide,
    (), rfl, _, hsum, parsed, hverify, _, hheader, _, hid, (), ⟨rfl, rfl⟩, (), ?_, (), htag, rfl⟩
  rw [hchunks]
  rfl

theorem validateReveals_plan : ∃ ids sizes,
    Journal.validateReveals crates.toCrates plan payout commit = .ok (16822, ids, sizes) := by
  obtain ⟨ids, sizes, hsecond⟩ := @append_reveal Journal.Scan.new 1 0 (by decide) rfl rfl rfl
    rfl (Nat.zero_le _)
  obtain ⟨ids', sizes', hfirst⟩ := @append_reveal ⟨[1], [1], some (Vector.replicate 16 3),
    8411, ids, sizes⟩ 0 8411 (by decide) rfl rfl (beq_self_eq_true _) rfl (Nat.le_refl _)
  have hall : Journal.Scan.new.appendAll crates.toCrates plan payout commit plan.reveals =
      .ok ⟨[0, 1], [0, 1], some (Vector.replicate 16 3), 16822, ids', sizes'⟩ :=
    Except.bind_eq_ok.mpr ⟨_, hsecond, Except.bind_eq_ok.mpr ⟨_, hfirst, rfl⟩⟩
  exact ⟨ids', sizes', Except.bind_eq_ok.mpr ⟨_, hall, rfl⟩⟩

theorem exists_ok_bind {α β : Type} {x : Except ServiceError α} {f : α → Except ServiceError β}
    {a : α} (h : x = .ok a) (hrest : ∃ b, f a = .ok b) : ∃ b, (x >>= f) = .ok b := by
  obtain ⟨b, hb⟩ := hrest
  exact ⟨b, Except.bind_eq_ok.mpr ⟨a, h, hb⟩⟩

/-- **The journal is accepted.** -/
theorem validatePlan_plan : ∃ report, validatePlan crates plan = .ok report := by
  obtain ⟨ids, sizes, hreveals⟩ := validateReveals_plan
  have hlast : commit.output.getLast? = some ⟨980970, payout⟩ := rfl
  apply exists_ok_bind (a := Network.regtest) rfl
  apply exists_ok_bind (a := payout) rfl
  apply exists_ok_bind (a := ()) (ensureService_eq_ok.mpr (by decide))
  apply exists_ok_bind validateMetadata_plan
  apply exists_ok_bind funding_prevout
  apply exists_ok_bind decode_commit
  apply exists_ok_bind validateCommit_plan
  apply exists_ok_bind (contextService_eq_ok.mpr hlast)
  apply exists_ok_bind hreveals
  apply exists_ok_bind (a := ()) (ensureService_eq_ok.mpr (by decide))
  exact ⟨_, rfl⟩

theorem crates_lawful : crates.Lawful Standard.serialize where
  decodeHex raw tx h := by
    obtain ⟨bytes, hbytes, h⟩ := Except.bind_eq_ok.mp h
    exact ⟨bytes, hbytes, h⟩
  serialize bytes tx h := by
    apply Standard.serialize_of_deserialize
    dsimp only [crates] at h
    split at h
    · next found hfound =>
        cases h
        exact hfound
    · cases h

/-- The transactions of the journal. -/
theorem isPart_plan {tx : Transaction} (h : IsPart crates.toCrates plan tx) :
    tx = commit ∨ tx = revealAt 1 ∨ tx = revealAt 0 := by
  obtain ⟨raw, hraw, hdecoded⟩ := h
  rcases List.mem_cons.mp hraw with rfl | hraw
  · rw [decode_commit, Except.ok.injEq] at hdecoded
    exact Or.inl hdecoded.symm
  rcases List.mem_cons.mp hraw with rfl | hraw
  · rw [decode_reveal, Except.ok.injEq] at hdecoded
    exact Or.inr (Or.inl hdecoded.symm)
  · rw [List.mem_singleton.mp hraw, decode_reveal, Except.ok.injEq] at hdecoded
    exact Or.inr (Or.inr hdecoded.symm)

theorem ids_ne :
    crates.reveal.consensus.computeTxid commit ≠ crates.reveal.consensus.computeTxid (revealAt 1) ∧
    crates.reveal.consensus.computeTxid commit ≠ crates.reveal.consensus.computeTxid (revealAt 0) ∧
    crates.reveal.consensus.computeTxid (revealAt 1) ≠
      crates.reveal.consensus.computeTxid (revealAt 0) := by
  show Planning.Sample.crates.reveal.consensus.computeTxid commit ≠
      Planning.Sample.crates.reveal.consensus.computeTxid (revealAt 1) ∧
    Planning.Sample.crates.reveal.consensus.computeTxid commit ≠
      Planning.Sample.crates.reveal.consensus.computeTxid (revealAt 0) ∧
    Planning.Sample.crates.reveal.consensus.computeTxid (revealAt 1) ≠
      Planning.Sample.crates.reveal.consensus.computeTxid (revealAt 0)
  rw [txid_commit, txid_first, txid_second]
  decide

theorem plan_distinct : Distinct crates.toCrates plan where
  parts tx other htx hother htxid := by
    obtain ⟨hfirst, hsecond, hothers⟩ := ids_ne
    rcases isPart_plan htx with rfl | rfl | rfl
    · rcases isPart_plan hother with rfl | rfl | rfl
      · rfl
      · exact absurd htxid hfirst
      · exact absurd htxid hsecond
    · rcases isPart_plan hother with rfl | rfl | rfl
      · exact absurd htxid.symm hfirst
      · rfl
      · exact absurd htxid hothers
    · rcases isPart_plan hother with rfl | rfl | rfl
      · exact absurd htxid.symm hsecond
      · exact absurd htxid.symm hothers
      · rfl
  funding outpoint previous found hprevout hdecoded := by
    rw [funding_prevout, Except.ok.injEq, Prod.mk.injEq] at hprevout
    rw [decode_commit, Except.ok.injEq] at hdecoded
    rw [← hprevout.1, ← hdecoded]
    show Planning.Sample.crates.reveal.consensus.computeTxid (coins 1000000) ≠
      Planning.Sample.crates.reveal.consensus.computeTxid commit
    rw [txid_coins, txid_commit]
    decide

/-- The first reveal of the journal spends the second output. -/
theorem plan_not_inOrder : ¬ InOrder crates.toCrates plan := by
  intro h
  have hspends := h 0 (Planning.Sample.crates.encodeTransaction (revealAt 1)) rfl
  rw [spends, decode_reveal] at hspends
  cases hspends

end Sample

/-- **A journal in another order is accepted, and not relayed** as it should be: for its first reveal
the output of the second one is asked for. -/
theorem permuted_journal_asks_other_output : ∃ crates serialize plan report,
    Crates.Lawful crates serialize ∧ validatePlan crates plan = .ok report ∧
      Distinct crates.toCrates plan ∧ ¬ Relays crates serialize plan := by
  obtain ⟨report, hreport⟩ := Sample.validatePlan_plan
  refine ⟨Sample.crates, Standard.serialize, Sample.plan, report, Sample.crates_lawful, hreport,
    Sample.plan_distinct, fun hrelays => ?_⟩
  exact Sample.plan_not_inOrder
    (inOrder_of_sound Sample.crates_lawful hreport Sample.plan_distinct hrelays.sound)

theorem relay_checks_own_outputs_sample : ∃ report,
    validatePlan Sample.crates Sample.plan = .ok report ∧
      (Relays Sample.crates Standard.serialize Sample.plan ↔
        InOrder Sample.crates.toCrates Sample.plan) := by
  obtain ⟨report, hreport⟩ := Sample.validatePlan_plan
  exact ⟨report, hreport, relay_checks_own_outputs Sample.crates Standard.serialize Sample.plan
    report Sample.crates_lawful hreport Sample.plan_distinct⟩

end Urma.Runtime.Relay
