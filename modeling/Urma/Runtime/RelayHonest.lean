import Urma.Runtime.RelayLedger

/-!
# The relay before an honest provider

With a consistent ledger every observation of the relay succeeds, and it is of the state that the
ledger has. A missing reveal whose place in the journal is the output that it spends is submitted.
-/

namespace Urma.Runtime.Relay

open Chain Lib Lib.Stateful
open Journal (Plan)

section

variable {crates : Crates} {serialize : Transaction → Bytes} {url : String} {plan : Plan}
  {network : Network} {ledger : Ledger} {commit : Transaction}

/-! ## Valid journals -/

/-- A reveal of a valid journal. -/
structure Spends (crates : Crates) (plan : Plan) (commit : Transaction) (raw : String)
    (tx : Transaction) (vout : ℕ) : Prop where
  decoded : Journal.decodeTransaction crates.toCrates raw = .ok tx
  input : ∃ input, tx.input = [input] ∧
    input.previousOutput.txid = crates.reveal.consensus.computeTxid commit ∧
    input.previousOutput.vout.toNat = vout
  vout_lt : vout < plan.reveals.length

/-- What is known of a valid journal. -/
structure Valid (crates : Crates) (plan : Plan) (commit : Transaction) : Prop where
  network : ∃ network, supportedNetwork plan.network = .ok network
  decoded : Journal.decodeTransaction crates.toCrates plan.commit = .ok commit
  reveals : ∀ (index : ℕ) (raw : String), plan.reveals[index]? = some raw →
    ∃ tx vout, Spends crates plan commit raw tx vout
  apart : ∀ (index : ℕ) (raw : String) (other : ℕ) (raw' : String) (vout : ℕ),
    plan.reveals[index]? = some raw →
    plan.reveals[other]? = some raw' → spends crates.toCrates raw = some vout →
    spends crates.toCrates raw' = some vout → index = other
  outputs : commit.output.length = plan.reveals.length + 1
  funding : ∃ outpoint previous input, plan.funding.prevout crates.toPlanCrates =
    .ok (outpoint, previous) ∧ commit.input = [input] ∧ input.previousOutput = outpoint
  count : 1 ≤ plan.reveals.length ∧ plan.reveals.length ≤ limitRecords
  fee : plan.feeSats ≤ bitcoinMaxFeeSats

theorem Spends.spends {raw : String} {tx : Transaction} {vout : ℕ}
    (h : Spends crates plan commit raw tx vout) : spends crates.toCrates raw = some vout := by
  obtain ⟨input, hinput, _, hvout⟩ := h.input
  rw [Relay.spends, h.decoded]
  show tx.input.head?.map (fun input => input.previousOutput.vout.toNat) = some vout
  rw [hinput, ← hvout]
  rfl

theorem spends_of_isRow {payout : Bytes} {raw : String} {row : Journal.Row}
    (h : Journal.IsRow crates.toCrates plan payout commit raw row) :
    Spends crates plan commit raw row.reveal row.vout :=
  ⟨h.decoded, h.source, h.vout_lt⟩

/-- The input of a commit is what it was checked against. -/
theorem validateCommit_input {payout : Bytes} {outpoint : OutPoint} {previous : TxOut}
    {signed : Bool} {fee : ℕ}
    (h : Journal.validateCommit crates.toCrates plan payout commit outpoint previous signed =
      .ok fee) : ∃ input, commit.input = [input] ∧ input.previousOutput = outpoint := by
  obtain ⟨_, hshape, h⟩ := Except.bind_eq_ok.mp h
  obtain ⟨input, hinput, h⟩ := Except.bind_eq_ok.mp h
  obtain ⟨_, houtpoint, _⟩ := Except.bind_eq_ok.mp h
  obtain ⟨only, honly⟩ := Journal.validateShape_eq_ok hshape
  rw [honly, List.getElem?_cons_zero, contextService_eq_ok, Option.some.injEq] at hinput
  rw [← hinput, ensureService_eq_ok, beq_iff_eq] at houtpoint
  exact ⟨only, honly, houtpoint⟩

/-- **A valid journal.** -/
theorem valid_of_validatePlan {report : Journal.Report} (h : validatePlan crates plan = .ok report) :
    ∃ commit, Valid crates plan commit := by
  obtain ⟨network, hnetwork, h⟩ := Except.bind_eq_ok.mp h
  obtain ⟨payout, _, h⟩ := Except.bind_eq_ok.mp h
  obtain ⟨_, _, h⟩ := Except.bind_eq_ok.mp h
  obtain ⟨_, hmetadata, h⟩ := Except.bind_eq_ok.mp h
  obtain ⟨⟨outpoint, previous⟩, hprevout, h⟩ := Except.bind_eq_ok.mp h
  obtain ⟨commit, hcommit, h⟩ := Except.bind_eq_ok.mp h
  obtain ⟨commitFee, hvalid, h⟩ := Except.bind_eq_ok.mp h
  obtain ⟨change, _, h⟩ := Except.bind_eq_ok.mp h
  obtain ⟨⟨revealFee, ids, sizes⟩, hreveals, _⟩ := Except.bind_eq_ok.mp h
  obtain ⟨scan, hscan, _⟩ := Except.bind_eq_ok.mp hreveals
  obtain ⟨rows, hrows, hscanned⟩ := Journal.Scan.appendAll_ok hscan .nil Journal.scanned_new
  rw [List.nil_append] at hrows
  have hrow : ∀ (index : ℕ) (raw : String), plan.reveals[index]? = some raw → ∃ row, rows[index]? = some row ∧
      Journal.IsRow crates.toCrates plan payout commit raw row := by
    intro index raw hraw
    obtain ⟨hlt, hget⟩ := List.getElem?_eq_some_iff.mp hraw
    have hlt' : index < rows.length := by rw [← hrows.length_eq]; exact hlt
    refine ⟨rows[index], List.getElem?_eq_getElem hlt', ?_⟩
    rw [← hget]
    exact hrows.get hlt hlt'
  obtain ⟨houtputs, _, _⟩ := Journal.validateCommit_eq_ok hvalid
  obtain ⟨input, hinput, houtpoint⟩ := validateCommit_input hvalid
  simp only [Journal.validateMetadata, Except.bind_eq_ok, ensureService_eq_ok, Bool.and_eq_true,
    beq_iff_eq, decide_eq_true_eq] at hmetadata
  obtain ⟨_, _, _, _, _, hcount, _, _, _, _, _, _, _, hfee, _⟩ := hmetadata
  refine ⟨commit, ⟨network, hnetwork⟩, hcommit, ?_, ?_, houtputs,
    ⟨outpoint, previous, input, hprevout, hinput, houtpoint⟩, hcount, hfee⟩
  · intro index raw hraw
    obtain ⟨row, _, hisRow⟩ := hrow index raw hraw
    exact ⟨row.reveal, row.vout, spends_of_isRow hisRow⟩
  · intro index raw other raw' vout hraw hraw' hspends hspends'
    obtain ⟨row, hget, hisRow⟩ := hrow index raw hraw
    obtain ⟨row', hget', hisRow'⟩ := hrow other raw' hraw'
    rw [(spends_of_isRow hisRow).spends, Option.some.injEq] at hspends
    rw [(spends_of_isRow hisRow').spends, Option.some.injEq] at hspends'
    have hnodup : (rows.map Journal.Row.vout).Nodup := by
      have hnodup := hscanned.nodup
      rw [hscanned.seen, List.nodup_reverse] at hnodup
      exact hnodup
    have hlt : index < (rows.map Journal.Row.vout).length := by
      rw [List.length_map]
      exact (List.getElem?_eq_some_iff.mp hget).1
    refine (List.getElem?_inj hlt hnodup).mp ?_
    rw [List.getElem?_map, List.getElem?_map, hget, hget']
    show some row.vout = some row'.vout
    rw [hspends, hspends']

/-! ## Looking up -/

theorem isPart_commit (h : Valid crates plan commit) : IsPart crates.toCrates plan commit :=
  ⟨plan.commit, List.mem_cons_self, h.decoded⟩

theorem IsReveal.isPart {tx : Transaction} (h : IsReveal crates.toCrates plan tx) :
    IsPart crates.toCrates plan tx := by
  obtain ⟨raw, hraw, htx⟩ := h
  exact ⟨raw, List.mem_cons_of_mem _ hraw, htx⟩

/-- A ledger knows nothing else under the id of a transaction. -/
def Ledger.Identifies (crates : Crates) (ledger : Ledger) (part : Transaction) : Prop :=
  ∀ tx ∈ ledger.known,
    crates.reveal.consensus.computeTxid tx = crates.reveal.consensus.computeTxid part → tx = part

theorem Consistent.identifies {part : Transaction} (h : Consistent crates plan network ledger)
    (hpart : IsPart crates.toCrates plan part) : ledger.Identifies crates part :=
  fun tx htx htxid => h.own tx htx part hpart htxid

/-- A transaction is found under its id if it is known. -/
theorem find_eq_some {part : Transaction} (h : ledger.Identifies crates part)
    (hknown : part ∈ ledger.known) :
    ledger.find crates (crates.reveal.consensus.computeTxid part) = some part := by
  rw [Ledger.find]
  cases hfound : ledger.known.find? fun tx =>
      crates.reveal.consensus.computeTxid tx = crates.reveal.consensus.computeTxid part with
  | none =>
      have hno := List.find?_eq_none.mp hfound part hknown
      exact absurd (decide_eq_true rfl) hno
  | some tx =>
      have htxid := List.find?_some hfound
      rw [h tx (List.mem_of_find?_eq_some hfound) (of_decide_eq_true htxid)]

/-- Otherwise nothing is found. -/
theorem find_eq_none {part : Transaction} (h : ledger.Identifies crates part)
    (hknown : part ∉ ledger.known) :
    ledger.find crates (crates.reveal.consensus.computeTxid part) = none := by
  rw [Ledger.find, List.find?_eq_none]
  intro tx htx htxid
  have heq := h tx htx (of_decide_eq_true htxid)
  rw [heq] at htx
  exact hknown htx

theorem Ledger.known_of_mined {tx : Transaction} (h : tx ∈ ledger.mined) : tx ∈ ledger.known :=
  List.mem_append_left _ h

/-- The block of a transaction that is mined. -/
theorem place_eq_some {part : Transaction} (h : ledger.Identifies crates part)
    (hmined : part ∈ ledger.mined) :
    ∃ (height : ℕ) (block : Bytes32 × List Transaction), ledger.blocks[height]? = some block ∧
      part ∈ block.2 ∧
      ledger.place crates (crates.reveal.consensus.computeTxid part) = some (height, block.1) := by
  rw [Ledger.place]
  obtain ⟨block, hblock, hmem⟩ := List.mem_flatMap.mp hmined
  cases hfound : ledger.blocks.zipIdx.find? fun block => block.1.2.any fun tx =>
      crates.reveal.consensus.computeTxid tx = crates.reveal.consensus.computeTxid part with
  | none =>
      obtain ⟨height, hheight, rfl⟩ := List.mem_iff_getElem.mp hblock
      have hno := List.find?_eq_none.mp hfound (ledger.blocks[height], height)
        (List.mk_mem_zipIdx_iff_getElem?.mpr (List.getElem?_eq_getElem hheight))
      exact absurd (List.any_eq_true.mpr ⟨part, hmem, decide_eq_true rfl⟩) hno
  | some found =>
      obtain ⟨⟨hash, txs⟩, height⟩ := found
      have hplace := List.mk_mem_zipIdx_iff_getElem?.mp (List.mem_of_find?_eq_some hfound)
      have hany : (txs.any fun tx => crates.reveal.consensus.computeTxid tx =
          crates.reveal.consensus.computeTxid part) = true := by
        have hsome := List.find?_some hfound
        exact hsome
      obtain ⟨tx, htx, htxid⟩ := List.any_eq_true.mp hany
      have hknown : tx ∈ ledger.known := Ledger.known_of_mined
        (List.mem_flatMap.mpr ⟨(hash, txs), List.mem_of_getElem? hplace, htx⟩)
      have heq := h tx hknown (of_decide_eq_true htxid)
      rw [heq] at htx
      exact ⟨height, (hash, txs), hplace, htx, rfl⟩

/-- A transaction that is not mined is in no block. -/
theorem place_eq_none {part : Transaction} (h : ledger.Identifies crates part)
    (hmined : part ∉ ledger.mined) :
    ledger.place crates (crates.reveal.consensus.computeTxid part) = none := by
  rw [Ledger.place, Option.map_eq_none_iff, List.find?_eq_none]
  intro found hfound hany
  obtain ⟨⟨hash, txs⟩, height⟩ := found
  have hplace := List.mk_mem_zipIdx_iff_getElem?.mp hfound
  obtain ⟨tx, htx, htxid⟩ := List.any_eq_true.mp hany
  have hin : tx ∈ ledger.mined :=
    List.mem_flatMap.mpr ⟨(hash, txs), List.mem_of_getElem? hplace, htx⟩
  have heq := h tx (Ledger.known_of_mined hin) (of_decide_eq_true htxid)
  rw [heq] at hin
  exact hmined hin

/-- The block of a hash is the one at its height. -/
theorem block_eq_ok {height : ℕ} {block : Bytes32 × List Transaction}
    (h : Consistent crates plan network ledger) (hblock : ledger.blocks[height]? = some block) :
    (Ledger.provider crates serialize url).block ledger block.1 = .ok block.2 := by
  show (ledger.blocks.find? fun other => other.1 = block.1).elim _ _ = _
  have hmem := List.mem_of_getElem? hblock
  cases hfound : ledger.blocks.find? fun other => other.1 = block.1 with
  | none => exact absurd (decide_eq_true rfl) (List.find?_eq_none.mp hfound block hmem)
  | some other =>
      have hhash : decide (other.1 = block.1) = true := by
        have hsome := List.find?_some hfound
        exact hsome
      have heq : other = block := List.inj_on_of_nodup_map h.hashes
        (List.mem_of_find?_eq_some hfound) hmem (of_decide_eq_true hhash)
      rw [heq]
      rfl

/-! ## Observing -/

/-- The state of a transaction. -/
def Ledger.stateOf (ledger : Ledger) (tx : Transaction) : TxState :=
  if tx ∈ ledger.mined then .confirmed
  else if tx ∈ ledger.known then .pending
  else .unknown

/-- **A confirmation** is verified. -/
theorem verifyConfirmation_eq_ok {height : ℕ} {block : Bytes32 × List Transaction}
    {tx : Transaction} (h : Consistent crates plan network ledger)
    (hblock : ledger.blocks[height]? = some block) (hmem : tx ∈ block.2) :
    ∃ confirmations, 1 ≤ confirmations ∧
      verifyConfirmation crates (Ledger.provider crates serialize url) tx
        ⟨true, some height, some block.1⟩ (ledger.blocks.length - 1) ledger =
          .ok confirmations := by
  have hlt := (List.getElem?_eq_some_iff.mp hblock).1
  have hheight : height ≤ ledger.blocks.length - 1 := by omega
  have hactive : (Ledger.provider crates serialize url).blockHash ledger height = .ok block.1 := by
    show (ledger.blocks[height]?).elim _ _ = _
    rw [hblock]
    rfl
  refine ⟨ledger.blocks.length - 1 - height + 1, Nat.succ_pos _, ?_⟩
  show (contextService (some height) _ >>= _) = _
  refine Except.bind_eq_ok.mpr ⟨height, rfl, ?_⟩
  refine Except.bind_eq_ok.mpr ⟨block.1, rfl, ?_⟩
  refine Except.bind_eq_ok.mpr ⟨(), ensureService_eq_ok.mpr (decide_eq_true hheight), ?_⟩
  refine Except.bind_eq_ok.mpr ⟨block.1, hactive, ?_⟩
  refine Except.bind_eq_ok.mpr ⟨(), ensureService_eq_ok.mpr (decide_eq_true rfl), ?_⟩
  refine Except.bind_eq_ok.mpr ⟨block.2, block_eq_ok h hblock, ?_⟩
  exact Except.bind_eq_ok.mpr ⟨(), ensureService_eq_ok.mpr (List.contains_iff_mem.mpr hmem), rfl⟩

/-- The bytes of an encoded part. -/
theorem bytes_of_decoded (hlawful : crates.Lawful serialize) {raw : String} {tx : Transaction}
    (h : Journal.decodeTransaction crates.toCrates raw = .ok tx) :
    ∃ bytes, crates.hexDecode raw = .ok bytes ∧ crates.deserialize bytes = .ok tx ∧
      serialize tx = bytes := by
  obtain ⟨_, _, hdecode⟩ := Except.bind_eq_ok.mp h
  obtain ⟨bytes, hbytes, htx⟩ := hlawful.decodeHex raw tx hdecode
  exact ⟨bytes, hbytes, htx, hlawful.serialize bytes tx htx⟩

/-- What the provider sends of a transaction that it finds. -/
theorem transactionOptional_eq_some {bytes : Bytes} {tx : Transaction}
    (htx : crates.deserialize bytes = .ok tx) (hbytes : serialize tx = bytes)
    (hfind : ledger.find crates (crates.reveal.consensus.computeTxid tx) = some tx) :
    transactionOptional crates (Ledger.provider crates serialize url)
      (crates.reveal.consensus.computeTxid tx) ledger = .ok (some (tx, bytes)) := by
  have hraw : (Ledger.provider crates serialize url).raw ledger
      (crates.reveal.consensus.computeTxid tx) = .ok (some bytes) := by
    show Except.ok ((ledger.find crates _).map serialize) = _
    rw [hfind, Option.map_some, hbytes]
  refine Except.bind_eq_ok.mpr ⟨some bytes, hraw, ?_⟩
  refine Except.bind_eq_ok.mpr ⟨tx, htx, ?_⟩
  exact Except.bind_eq_ok.mpr ⟨(), ensureService_eq_ok.mpr (decide_eq_true rfl), rfl⟩

/-- **A part of the journal is observed** in the state that it has. -/
theorem observeEncoded_eq_ok (hlawful : crates.Lawful serialize)
    (h : Consistent crates plan network ledger) {raw : String} {part : Transaction}
    (hmem : raw ∈ plan.commit :: plan.reveals)
    (hdecoded : Journal.decodeTransaction crates.toCrates raw = .ok part) :
    ∃ observed, observeEncoded crates (Ledger.provider crates serialize url)
      (ledger.blocks.length - 1) ledger raw = .ok observed ∧
        observed.state = ledger.stateOf part := by
  have hpart : ledger.Identifies crates part := h.identifies ⟨raw, hmem, hdecoded⟩
  obtain ⟨bytes, hbytes, htx, hserialize⟩ := bytes_of_decoded hlawful hdecoded
  by_cases hknown : part ∈ ledger.known
  · have hfind := find_eq_some hpart hknown
    have hoptional := @transactionOptional_eq_some crates serialize url ledger bytes part htx
      hserialize hfind
    by_cases hmined : part ∈ ledger.mined
    · obtain ⟨height, block, hblock, hin, hplace⟩ := place_eq_some hpart hmined
      obtain ⟨confirmations, _, hverified⟩ :=
        @verifyConfirmation_eq_ok crates serialize url plan network ledger height block part h
          hblock hin
      have hstatus : (Ledger.provider crates serialize url).status ledger
          (crates.reveal.consensus.computeTxid part) = .ok ⟨true, some height, some block.1⟩ := by
        dsimp only [Ledger.provider]
        rw [hplace]
      refine ⟨⟨crates.displayTxid (crates.reveal.consensus.computeTxid part), .confirmed,
        confirmations, some height, some (crates.displayHash block.1)⟩, ?_, ?_⟩
      · refine Except.bind_eq_ok.mpr ⟨bytes, hbytes, ?_⟩
        refine Except.bind_eq_ok.mpr ⟨part, htx, ?_⟩
        refine Except.bind_eq_ok.mpr ⟨_, hoptional, ?_⟩
        refine Except.bind_eq_ok.mpr ⟨(), ensureService_eq_ok.mpr ?_, ?_⟩
        · rw [decide_eq_true rfl, decide_eq_true rfl]
          rfl
        refine Except.bind_eq_ok.mpr ⟨_, hstatus, ?_⟩
        exact Except.bind_eq_ok.mpr ⟨_, hverified, rfl⟩
      · rw [Ledger.stateOf, if_pos hmined]
    · have hplace := place_eq_none hpart hmined
      have hstatus : (Ledger.provider crates serialize url).status ledger
          (crates.reveal.consensus.computeTxid part) = .ok ⟨false, none, none⟩ := by
        dsimp only [Ledger.provider]
        rw [hplace]
        show (if (ledger.find crates _).isSome then _ else _) = _
        rw [hfind]
        rfl
      refine ⟨⟨crates.displayTxid (crates.reveal.consensus.computeTxid part), .pending, 0, none,
        none⟩, ?_, ?_⟩
      · refine Except.bind_eq_ok.mpr ⟨bytes, hbytes, ?_⟩
        refine Except.bind_eq_ok.mpr ⟨part, htx, ?_⟩
        refine Except.bind_eq_ok.mpr ⟨_, hoptional, ?_⟩
        refine Except.bind_eq_ok.mpr ⟨(), ensureService_eq_ok.mpr ?_, ?_⟩
        · rw [decide_eq_true rfl, decide_eq_true rfl]
          rfl
        refine Except.bind_eq_ok.mpr ⟨_, hstatus, ?_⟩
        exact Except.bind_eq_ok.mpr ⟨0, rfl, rfl⟩
      · rw [Ledger.stateOf, if_neg hmined, if_pos hknown]
  · have hfind := find_eq_none hpart hknown
    have hmined : part ∉ ledger.mined := fun hin => hknown (Ledger.known_of_mined hin)
    have hoptional : transactionOptional crates (Ledger.provider crates serialize url)
        (crates.reveal.consensus.computeTxid part) ledger = .ok none := by
      have hraw : (Ledger.provider crates serialize url).raw ledger
          (crates.reveal.consensus.computeTxid part) = .ok none := by
        show Except.ok ((ledger.find crates _).map serialize) = _
        rw [hfind]
        rfl
      exact Except.bind_eq_ok.mpr ⟨none, hraw, rfl⟩
    refine ⟨⟨crates.displayTxid (crates.reveal.consensus.computeTxid part), .unknown, 0, none,
      none⟩, ?_, ?_⟩
    · refine Except.bind_eq_ok.mpr ⟨bytes, hbytes, ?_⟩
      refine Except.bind_eq_ok.mpr ⟨part, htx, ?_⟩
      exact Except.bind_eq_ok.mpr ⟨_, hoptional, rfl⟩
    · rw [Ledger.stateOf, if_neg hmined, if_neg hknown]

/-! ## The step -/

theorem exists_forall₂ {α β : Type} {r : α → β → Prop} {xs : List α}
    (h : ∀ x ∈ xs, ∃ y, r x y) : ∃ ys, List.Forall₂ r xs ys := by
  induction xs with
  | nil => exact ⟨[], .nil⟩
  | cons x xs ih =>
      obtain ⟨y, hy⟩ := h x List.mem_cons_self
      obtain ⟨ys, hys⟩ := ih fun other hother => h other (List.mem_cons_of_mem x hother)
      exact ⟨y :: ys, .cons hy hys⟩

/-- An observation has the state of the transaction that an encoded part decodes to. -/
def Observes (crates : Journal.Crates) (ledger : Ledger) (raw : String) (observed : Observed) :
    Prop :=
  ∃ tx, Journal.decodeTransaction crates raw = .ok tx ∧ observed.state = ledger.stateOf tx

/-- What `status_plan` reports of a ledger. -/
structure Shows (crates : Crates) (plan : Plan) (commit : Transaction) (ledger : Ledger)
    (status : PlanStatus) : Prop where
  commit : status.commitStatus.state = ledger.stateOf commit
  reveals : List.Forall₂ (Observes crates.toCrates ledger) plan.reveals status.revealStatuses
  phase : planPhase status.commitStatus status.revealStatuses = .ok status.status

/-- An observed reveal is of a transaction that is known only with the commit. -/
theorem state_of_observed {observed : Observed} {reveals : List Observed}
    (hconsistent : Consistent crates plan network ledger) (hvalid : Valid crates plan commit)
    (hreveals : List.Forall₂ (Observes crates.toCrates ledger) plan.reveals reveals)
    (hmem : observed ∈ reveals) :
    ∃ tx, IsReveal crates.toCrates plan tx ∧ observed.state = ledger.stateOf tx ∧
      (tx ∈ ledger.known → commit ∈ ledger.known) ∧ (tx ∈ ledger.mined → commit ∈ ledger.mined) := by
  obtain ⟨index, hindex, rfl⟩ := List.mem_iff_getElem.mp hmem
  have hlt : index < plan.reveals.length := by rw [hreveals.length_eq]; exact hindex
  obtain ⟨tx, hdecoded, hstate⟩ := hreveals.get hlt hindex
  have hreveal : IsReveal crates.toCrates plan tx := ⟨_, List.getElem_mem hlt, hdecoded⟩
  exact ⟨tx, hreveal, hstate, hconsistent.parents commit tx hvalid.decoded hreveal⟩

/-- The states of a consistent ledger are those of a phase. -/
theorem exists_planPhase {observed : Observed} {reveals : List Observed}
    (h : Consistent crates plan network ledger) (hvalid : Valid crates plan commit)
    (hreveals : List.Forall₂ (Observes crates.toCrates ledger) plan.reveals reveals)
    (hstate : observed.state = ledger.stateOf commit) :
    ∃ phase, planPhase observed reveals = .ok phase := by
  by_cases hmined : commit ∈ ledger.mined
  · have hconfirmed : observed.state = .confirmed := by
      rw [hstate, Ledger.stateOf, if_pos hmined]
    simp only [planPhase, hconfirmed]
    split
    · exact ⟨_, rfl⟩
    · split
      · exact ⟨_, rfl⟩
      · exact ⟨_, rfl⟩
  by_cases hknown : commit ∈ ledger.known
  · have hpending : observed.state = .pending := by
      rw [hstate, Ledger.stateOf, if_neg hmined, if_pos hknown]
    have hnone : (reveals.all fun s => s.state ≠ .confirmed) = true := by
      refine List.all_eq_true.mpr fun s hs => decide_eq_true ?_
      obtain ⟨tx, _, hs, _, hparent⟩ := state_of_observed h hvalid hreveals hs
      rw [hs, Ledger.stateOf, if_neg fun htx => hmined (hparent htx)]
      split
      · exact fun heq => by cases heq
      · exact fun heq => by cases heq
    simp only [planPhase, hpending]
    exact ⟨_, Except.bind_eq_ok.mpr ⟨(), ensureService_eq_ok.mpr hnone, rfl⟩⟩
  · have hunknown : observed.state = .unknown := by
      rw [hstate, Ledger.stateOf, if_neg hmined, if_neg hknown]
    have hnone : (reveals.all fun s => s.state = .unknown) = true := by
      refine List.all_eq_true.mpr fun s hs => decide_eq_true ?_
      obtain ⟨tx, _, hs, hparent, _⟩ := state_of_observed h hvalid hreveals hs
      have htx : tx ∉ ledger.known := fun htx => hknown (hparent htx)
      rw [hs, Ledger.stateOf, if_neg fun hin => htx (Ledger.known_of_mined hin), if_neg htx]
    simp only [planPhase, hunknown]
    exact ⟨_, Except.bind_eq_ok.mpr ⟨(), ensureService_eq_ok.mpr hnone, rfl⟩⟩

/-- The genesis block is there, so the tip is. -/
theorem exists_tip (h : Consistent crates plan network ledger) :
    ∃ hash, (Ledger.provider crates serialize url).blockHash ledger (ledger.blocks.length - 1) =
      .ok hash := by
  have hpositive : 0 < ledger.blocks.length := by
    obtain ⟨block, hblock, _⟩ := Option.map_eq_some_iff.mp h.genesis
    exact (List.getElem?_eq_some_iff.mp hblock).1
  refine ⟨(ledger.blocks.get ⟨ledger.blocks.length - 1, by omega⟩).1, ?_⟩
  show (ledger.blocks[ledger.blocks.length - 1]?).elim _ _ = _
  rw [List.getElem?_eq_getElem (by omega)]
  rfl

/-- **The status of a journal** is reported. -/
theorem statusPlan_shows {report : Journal.Report} (hlawful : crates.Lawful serialize)
    (hreport : validatePlan crates plan = .ok report) (hvalid : Valid crates plan commit)
    (hnetwork : plan.network = network.display)
    (h : Consistent crates plan network ledger) :
    ∃ status, statusPlan crates (Ledger.provider crates serialize url) network url plan ledger =
      .ok status ∧ Shows crates plan commit ledger status := by
  obtain ⟨observed, hobserved, hstate⟩ := @observeEncoded_eq_ok crates serialize url plan network
    ledger hlawful h plan.commit commit List.mem_cons_self hvalid.decoded
  have hall : ∀ raw ∈ plan.reveals, ∃ observed,
      observeEncoded crates (Ledger.provider crates serialize url) (ledger.blocks.length - 1) ledger
        raw = .ok observed ∧ Observes crates.toCrates ledger raw observed := by
    intro raw hraw
    obtain ⟨index, hindex, hget⟩ := List.mem_iff_getElem.mp hraw
    obtain ⟨tx, vout, hspends⟩ := hvalid.reveals index raw (by
      rw [List.getElem?_eq_getElem hindex, hget])
    obtain ⟨observed, hobserved, hstate⟩ := @observeEncoded_eq_ok crates serialize url plan network
      ledger hlawful h raw tx (List.mem_cons_of_mem _ hraw) hspends.decoded
    exact ⟨observed, hobserved, tx, hspends.decoded, hstate⟩
  obtain ⟨reveals, hreveals⟩ := exists_forall₂ hall
  have hobserves : List.Forall₂ (Observes crates.toCrates ledger) plan.reveals reveals :=
    hreveals.imp fun _ _ hboth => hboth.2
  have hphase := exists_planPhase h hvalid hobserves hstate
  obtain ⟨phase, hphase⟩ := hphase
  obtain ⟨hash, htip⟩ := @exists_tip crates serialize url plan network ledger h
  refine ⟨planStatus crates report phase url (ledger.blocks.length - 1) hash observed reveals, ?_,
    hstate, hobserves, hphase⟩
  refine Except.bind_eq_ok.mpr ⟨report, hreport, ?_⟩
  refine Except.bind_eq_ok.mpr ⟨(), ensureService_eq_ok.mpr (decide_eq_true hnetwork), ?_⟩
  refine Except.bind_eq_ok.mpr ⟨_, rfl, ?_⟩
  refine Except.bind_eq_ok.mpr ⟨hash, htip, ?_⟩
  refine Except.bind_eq_ok.mpr ⟨observed, hobserved, ?_⟩
  refine Except.bind_eq_ok.mpr ⟨reveals, mapM_forall₂.mpr (hreveals.imp fun _ _ hboth => hboth.1),
    ?_⟩
  refine Except.bind_eq_ok.mpr ⟨hash, htip, ?_⟩
  refine Except.bind_eq_ok.mpr ⟨(), ensureService_eq_ok.mpr (decide_eq_true rfl), ?_⟩
  exact Except.bind_eq_ok.mpr ⟨phase, hphase, rfl⟩

end

end Urma.Runtime.Relay
