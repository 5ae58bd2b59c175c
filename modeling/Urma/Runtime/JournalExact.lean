import Mathlib.Data.List.Forall2
import Mathlib.Data.List.Nodup
import Mathlib.Data.List.Perm.Subperm
import Urma.Core.Sealing
import Urma.Runtime.Journal
import Urma.Runtime.PlannerSafe

/-!
# What an accepted journal publishes

Every reveal of an accepted journal spends an output of its own and reveals a chunk of its own.
There are as many as the object has chunks, so both are permutations, and what the funding holds is
the change, what the reveals return, and the fees.
-/

namespace Urma.Runtime.Journal

open Chain Lib

section

variable {crates : Crates} {plan : Plan} {payout : Bytes} {commit : Transaction}

/-! ## Reveals -/

/-- A reveal of a journal, by what is read of it. -/
structure Row where
  reveal : Transaction
  vout : ℕ
  fee : ℕ
  header : Container.PrivateRecordHeader
  deriving DecidableEq

variable (crates plan payout commit) in
/-- What is known of an accepted reveal. -/
structure IsRow (raw : String) (row : Row) : Prop where
  decoded : decodeTransaction crates raw = .ok row.reveal
  source : ∃ input, row.reveal.input = [input] ∧
    input.previousOutput.txid = crates.reveal.consensus.computeTxid commit ∧
    input.previousOutput.vout.toNat = row.vout
  vout_lt : row.vout < plan.reveals.length
  output : ∃ value, row.reveal.output = [⟨value, payout⟩] ∧ value.toNat = bitcoinReturnSats
  /-- The output that is spent holds the fee and what is returned. -/
  prevout : ∃ prevout, commit.output[row.vout]? = some prevout ∧
    prevout.value.toNat = row.fee + bitcoinReturnSats
  fee : row.fee = crates.vsize row.reveal * plan.feeRateSatVb
  record : ∃ parsed, Envelope.verifyReveal crates.reveal row.reveal commit = .ok parsed ∧
    Container.inspectHeader parsed.record = .ok row.header
  objectId : crates.hexDecode plan.objectId = .ok row.header.id.toList
  count : row.header.count = plan.reveals.length

/-- The index of a row is that of one of the chunks. -/
theorem IsRow.index_lt {raw : String} {row : Row} (h : IsRow crates plan payout commit raw row) :
    row.header.index < plan.reveals.length := by
  obtain ⟨parsed, -, hheader⟩ := h.record
  rw [← h.count]
  exact (Container.inspectHeader_bounds hheader).2

/-- What one reveal adds to the variables of the loop. -/
structure Adds (scan : Scan) (row : Row) (scan' : Scan) : Prop where
  fresh : row.vout ∉ scan.seen
  seen : scan'.seen = row.vout :: scan.seen
  freshChunk : row.header.index ∉ scan.seenChunks
  seenChunks : scan'.seenChunks = row.header.index :: scan.seenChunks
  tag : ∀ tag ∈ scan.discoveryTag, tag = row.header.discoveryTag
  discoveryTag : scan'.discoveryTag = some row.header.discoveryTag
  revealFee : scan'.revealFee = scan.revealFee + row.fee

theorem validateShape_eq_ok {tx : Transaction} {u : Unit} (h : validateShape crates tx = .ok u) :
    ∃ input, tx.input = [input] := by
  simp only [validateShape, Except.bind_eq_ok, ensureService_eq_ok] at h
  obtain ⟨_, _, _, hinput, _⟩ := h
  split at hinput
  · next input heq => exact ⟨input, heq⟩
  · cases hinput

theorem isPayout_eq_true {outputs : List TxOut} (h : isPayout payout outputs = true) :
    ∃ value, outputs = [⟨value, payout⟩] ∧ value.toNat = bitcoinReturnSats := by
  unfold isPayout at h
  split at h
  · next output =>
    rw [Bool.and_eq_true, beq_iff_eq, beq_iff_eq] at h
    refine ⟨output.value, ?_, h.1⟩
    rw [← h.2]
  · cases h

/-- **One reveal.** -/
theorem Scan.append_ok {scan scan' : Scan} {raw : String}
    (h : scan.append crates plan payout commit raw = .ok scan') :
    ∃ row, IsRow crates plan payout commit raw row ∧ Adds scan row scan' := by
  simp only [Scan.append, Except.bind_eq_ok, ensureService_eq_ok, contextService_eq_ok,
    PlanCrates.protocol_eq_ok, Bool.and_eq_true, beq_iff_eq, decide_eq_true_eq] at h
  obtain ⟨reveal, hdecoded, _, hshape, input, hinput, _, ⟨htxid, hvout⟩, _, hfresh, _, hpayout,
    prevout, hprevout, _, -, fee, hfee, _, hrate, revealFee, hsum, parsed, hparsed, header, hheader,
    objectId, hobjectId, _, ⟨hid, hcount⟩, _, hchunk, _, htag, hscan⟩ := h
  obtain ⟨only, honly⟩ := validateShape_eq_ok hshape
  rw [honly, List.getElem?_cons_zero, Option.some.injEq] at hinput
  subst hinput
  rw [checkedSub_eq_some] at hfee
  rw [checkedAdd_eq_some] at hsum
  cases hscan
  refine ⟨⟨reveal, only.previousOutput.vout.toNat, fee, header⟩, ?_, ?_⟩
  · exact
      { decoded := hdecoded
        source := ⟨only, honly, htxid, rfl⟩
        vout_lt := hvout
        output := isPayout_eq_true hpayout
        prevout := ⟨prevout, hprevout, by dsimp only; omega⟩
        fee := hrate
        record := ⟨parsed, hparsed, hheader⟩
        objectId := by rw [hobjectId, hid]
        count := hcount }
  · exact
      { fresh := by
          intro hmem
          rw [List.contains_eq_mem, Bool.not_eq_true', decide_eq_false_iff_not] at hfresh
          exact hfresh hmem
        seen := rfl
        freshChunk := by
          intro hmem
          rw [List.contains_eq_mem, Bool.not_eq_true', decide_eq_false_iff_not] at hchunk
          exact hchunk hmem
        seenChunks := rfl
        tag := by
          intro tag hmem
          rw [Option.mem_def.mp hmem, Option.all_some, beq_iff_eq] at htag
          exact htag
        discoveryTag := rfl
        revealFee := hsum.2 }

/-- The variables of the loop after some rows: what they have seen is apart. -/
structure Scanned (scan : Scan) (rows : List Row) : Prop where
  seen : scan.seen = (rows.map Row.vout).reverse
  nodup : scan.seen.Nodup
  seenChunks : scan.seenChunks = (rows.map fun row => row.header.index).reverse
  nodupChunks : scan.seenChunks.Nodup
  tag : ∀ row ∈ rows, scan.discoveryTag = some row.header.discoveryTag
  revealFee : scan.revealFee = (rows.map Row.fee).sum

theorem scanned_new : Scanned Scan.new [] :=
  ⟨rfl, List.nodup_nil, rfl, List.nodup_nil, fun _ h => (List.not_mem_nil h).elim, rfl⟩

theorem Scanned.append {scan scan' : Scan} {rows : List Row} {row : Row} (h : Scanned scan rows)
    (hadds : Adds scan row scan') : Scanned scan' (rows ++ [row]) where
  seen := by rw [hadds.seen, h.seen, List.map_append, List.reverse_append]; rfl
  nodup := by rw [hadds.seen]; exact List.nodup_cons.mpr ⟨hadds.fresh, h.nodup⟩
  seenChunks := by rw [hadds.seenChunks, h.seenChunks, List.map_append, List.reverse_append]; rfl
  nodupChunks := by rw [hadds.seenChunks]; exact List.nodup_cons.mpr ⟨hadds.freshChunk, h.nodupChunks⟩
  tag := by
    intro other hother
    rw [hadds.discoveryTag]
    rcases List.mem_append.mp hother with hother | hother
    · rw [hadds.tag _ (h.tag other hother)]
    · rw [List.mem_singleton.mp hother]
  revealFee := by
    rw [hadds.revealFee, h.revealFee, List.map_append, List.sum_append]
    rfl

/-- **A run of the loop.** -/
theorem Scan.appendAll_ok {scan scan' : Scan} {raws before : List String} {rows : List Row}
    (h : scan.appendAll crates plan payout commit raws = .ok scan')
    (hrows : List.Forall₂ (IsRow crates plan payout commit) before rows)
    (hscanned : Scanned scan rows) :
    ∃ rows', List.Forall₂ (IsRow crates plan payout commit) (before ++ raws) rows' ∧
      Scanned scan' rows' := by
  induction raws generalizing scan before rows with
  | nil =>
      cases h
      rw [List.append_nil]
      exact ⟨rows, hrows, hscanned⟩
  | cons raw raws ih =>
      rw [Scan.appendAll] at h
      obtain ⟨next, hnext, hrest⟩ := Except.bind_eq_ok.mp h
      obtain ⟨row, hrow, hadds⟩ := Scan.append_ok hnext
      rw [List.append_cons]
      exact ih hrest (List.rel_append hrows (.cons hrow .nil)) (hscanned.append hadds)

/-! ## Permutations -/

/-- As many distinct numbers as there are below a bound are all of them. -/
theorem perm_range {numbers : List ℕ} {n : ℕ} (hnodup : numbers.Nodup)
    (hlength : numbers.length = n) (hlt : ∀ number ∈ numbers, number < n) :
    numbers.Perm (List.range n) := by
  have hsub : numbers ⊆ List.range n := fun number hnumber => List.mem_range.mpr (hlt number hnumber)
  apply (List.subperm_of_subset hnodup hsub).perm_of_length_le
  rw [List.length_range, hlength]

/-- What the outputs hold that these rows spend. -/
theorem sum_prevouts {raws : List String} {rows : List Row}
    (h : List.Forall₂ (IsRow crates plan payout commit) raws rows) :
    ((rows.map Row.vout).map fun vout => (commit.output[vout]?.elim 0 fun output =>
        output.value.toNat)).sum =
      (rows.map Row.fee).sum + rows.length * bitcoinReturnSats := by
  induction h with
  | nil => rfl
  | cons hrow _ ih =>
      obtain ⟨prevout, hprevout, hvalue⟩ := hrow.prevout
      simp only [List.map_cons, List.sum_cons, List.length_cons] at ih ⊢
      rw [ih, hprevout, Option.elim_some, hvalue, Nat.succ_mul]
      omega

/-- The values of the first outputs, by their positions. -/
theorem sum_range_values (outputs : List TxOut) :
    ((List.range outputs.length).map fun vout => (outputs[vout]?.elim 0 fun output =>
      output.value.toNat)).sum = (outputs.map fun output => output.value.toNat).sum := by
  congr 1
  apply List.ext_getElem
  · simp
  · intro k hk hk'
    rw [List.length_map] at hk'
    simp [hk']

theorem outputSats_eq_some {outputs : List TxOut} {total sum : ℕ}
    (h : outputSats outputs total = some sum) :
    sum = total + (outputs.map fun output => output.value.toNat).sum := by
  induction outputs generalizing total with
  | nil =>
      cases h
      rfl
  | cons output outputs ih =>
      rw [outputSats, Option.bind_eq_some_iff] at h
      obtain ⟨next, hnext, hrest⟩ := h
      rw [checkedAdd_eq_some] at hnext
      rw [ih hrest, hnext.2, List.map_cons, List.sum_cons, Nat.add_assoc]

/-! ## What is published -/

theorem validateCommit_eq_ok {outpoint : OutPoint} {previous : TxOut} {signed : Bool}
    {commitFee : ℕ}
    (h : validateCommit crates plan payout commit outpoint previous signed = .ok commitFee) :
    commit.output.length = plan.reveals.length + 1 ∧ commitFee = plan.commitFeeSats ∧
      previous.value.toNat =
        commitFee + (commit.output.map fun output => output.value.toNat).sum := by
  simp only [validateCommit, Except.bind_eq_ok, ensureService_eq_ok, contextService_eq_ok,
    beq_iff_eq] at h
  obtain ⟨_, _, _, _, _, _, _, hlength, _, _, _, _, outputs, houtputs, fee, hfee, _, hplan, _, _, _,
    _, hresult⟩ := h
  cases hresult
  have hsum := outputSats_eq_some houtputs
  rw [Nat.zero_add] at hsum
  rw [checkedSub_eq_some] at hfee
  exact ⟨hlength, hplan, by omega⟩

variable (crates plan payout) in
/-- What an accepted journal publishes. -/
structure Publishes (previous : TxOut) (commit : Transaction) (media : List TxOut) (change : TxOut)
    (rows : List Row) : Prop where
  outputs : commit.output = media ++ [change]
  accepted : List.Forall₂ (IsRow crates plan payout commit) plan.reveals rows
  /-- As many reveals as the object has chunks. -/
  chunks : rows.length = (plan.inputBytes + Format.chunkBytes - 1) / Format.chunkBytes
  media_length : media.length = rows.length
  /-- The reveals spend the media outputs, each of them once. -/
  spends : (rows.map Row.vout).Perm (List.range rows.length)
  /-- The reveals hold the chunks, each of them once. -/
  indices : (rows.map fun row => row.header.index).Perm (List.range rows.length)
  /-- They are chunks of one object, with one discovery tag. -/
  object : ∃ (id : Bytes32) (tag : Vector UInt8 16),
    crates.hexDecode plan.objectId = .ok id.toList ∧ ∀ row ∈ rows,
      row.header.id = id ∧ row.header.discoveryTag = tag ∧ row.header.count = rows.length
  /-- What the funding holds is the change, what the reveals return, and the fees. -/
  funding : previous.value.toNat =
    change.value.toNat + rows.length * bitcoinReturnSats + plan.feeSats
  fees : plan.feeSats = plan.commitFeeSats + (rows.map Row.fee).sum
  range : change.value.toNat + rows.length * bitcoinReturnSats + plan.feeSats ≤ u64Max

/-- A permutation of the positions sums what the media outputs hold. -/
theorem sum_media {media : List TxOut} {change : TxOut} {raws : List String} {rows : List Row}
    (houtputs : commit.output = media ++ [change])
    (hrows : List.Forall₂ (IsRow crates plan payout commit) raws rows)
    (hperm : (rows.map Row.vout).Perm (List.range media.length)) :
    (media.map fun output => output.value.toNat).sum =
      (rows.map Row.fee).sum + rows.length * bitcoinReturnSats := by
  have hvalue : ∀ vout ∈ List.range media.length,
      (media[vout]?.elim 0 fun output => output.value.toNat) =
        commit.output[vout]?.elim 0 fun output => output.value.toNat := by
    intro vout hvout
    rw [houtputs, List.getElem?_append_left (List.mem_range.mp hvout)]
  rw [← sum_range_values media, List.map_congr_left hvalue, ← sum_prevouts hrows]
  exact (hperm.map _).sum_nat.symm

/-- **An accepted journal publishes the whole object.** -/
theorem accepted_journal_publishes (crates : Crates) (plan : Plan) (payout : Bytes) (signed : Bool)
    (report : Report) (h : validateTransparentPlan crates plan payout signed = .ok report) :
    ∃ outpoint previous commit media change rows,
      plan.funding.prevout crates.toPlanCrates = .ok (outpoint, previous) ∧
      decodeTransaction crates plan.commit = .ok commit ∧
      Publishes crates plan payout previous commit media change rows ∧
      report.fundingSats = previous.value.toNat ∧ report.changeSats = change.value.toNat := by
  simp only [validateTransparentPlan, Except.bind_eq_ok, ensureService_eq_ok, contextService_eq_ok,
    Bool.and_eq_true, beq_iff_eq, Prod.exists] at h
  obtain ⟨_, hmetadata, outpoint, previous, hprevout, commit, hcommit, commitFee, hvalid, change,
    hchange, revealFee, ids, sizes, hreveals, _, ⟨-, htotal⟩, hreport⟩ := h
  cases hreport
  obtain ⟨hlength, hcommitFee, hsum⟩ := validateCommit_eq_ok hvalid
  obtain ⟨media, houtputs⟩ := List.getLast?_eq_some_iff.mp hchange
  have hmedia : media.length = plan.reveals.length := by
    rw [houtputs, List.length_append, List.length_singleton] at hlength
    omega
  -- the loop over the reveals
  simp only [validateReveals, Except.bind_eq_ok] at hreveals
  obtain ⟨scan, hscan, hresult⟩ := hreveals
  cases hresult
  obtain ⟨rows, hrows, hscanned⟩ := Scan.appendAll_ok hscan .nil scanned_new
  rw [List.nil_append] at hrows
  have hcount := hrows.length_eq
  have hrow : ∀ row ∈ rows, ∃ raw, IsRow crates plan payout commit raw row := by
    intro row hmem
    obtain ⟨k, hk, rfl⟩ := List.mem_iff_getElem.mp hmem
    have hk' : k < plan.reveals.length := by rw [hcount]; exact hk
    exact ⟨plan.reveals[k], hrows.get hk' hk⟩
  have hspends : (rows.map Row.vout).Perm (List.range rows.length) := by
    apply perm_range _ (List.length_map _)
    · intro vout hvout
      obtain ⟨row, hmem, rfl⟩ := List.mem_map.mp hvout
      obtain ⟨raw, hisRow⟩ := hrow row hmem
      exact hcount ▸ hisRow.vout_lt
    · have hnodup := hscanned.nodup
      rw [hscanned.seen, List.nodup_reverse] at hnodup
      exact hnodup
  have hindices : (rows.map fun row => row.header.index).Perm (List.range rows.length) := by
    apply perm_range _ (List.length_map _)
    · intro index hindex
      obtain ⟨row, hmem, rfl⟩ := List.mem_map.mp hindex
      obtain ⟨raw, hisRow⟩ := hrow row hmem
      exact hcount ▸ hisRow.index_lt
    · have hnodup := hscanned.nodupChunks
      rw [hscanned.seenChunks, List.nodup_reverse] at hnodup
      exact hnodup
  have hfees : plan.feeSats = plan.commitFeeSats + (rows.map Row.fee).sum := by
    rw [checkedAdd_eq_some, hscanned.revealFee, hcommitFee] at htotal
    exact htotal.2
  have hfunding : previous.value.toNat =
      change.value.toNat + rows.length * bitcoinReturnSats + plan.feeSats := by
    have hperm : (rows.map Row.vout).Perm (List.range media.length) := by
      rwa [hmedia, hcount]
    have hsumMedia := sum_media houtputs hrows hperm
    rw [houtputs, List.map_append, List.sum_append, hsumMedia, hcommitFee] at hsum
    rw [hsum, hfees]
    show _ + (_ + (change.value.toNat + 0)) = _
    omega
  simp only [validateMetadata, Except.bind_eq_ok, ensureService_eq_ok, Bool.and_eq_true,
    beq_iff_eq, decide_eq_true_eq] at hmetadata
  obtain ⟨_, -, _, -, _, hsome, _, -, _, hchunks, -⟩ := hmetadata
  refine ⟨outpoint, previous, commit, media, change, rows, hprevout, hcommit, ?_, rfl, rfl⟩
  refine
    { outputs := houtputs
      accepted := hrows
      chunks := by rw [hchunks, hcount]
      media_length := by rw [hmedia, hcount]
      spends := hspends
      indices := hindices
      object := ?_
      funding := hfunding
      fees := hfees
      range := by
        rw [← hfunding, u64Max]
        have hlt := previous.value.toNat_lt
        omega }
  -- the first row names the object, and the others agree with it
  obtain ⟨first, hfirst⟩ : ∃ first, first ∈ rows :=
    List.exists_mem_of_length_pos (by rw [← hcount]; exact hsome.1)
  obtain ⟨_, hisFirst⟩ := hrow first hfirst
  refine ⟨first.header.id, first.header.discoveryTag, hisFirst.objectId, ?_⟩
  intro row hmem
  obtain ⟨_, hisRow⟩ := hrow row hmem
  refine ⟨?_, ?_, by rw [hisRow.count, hcount]⟩
  · have hid := hisRow.objectId.symm.trans hisFirst.objectId
    exact Vector.toList_inj.mp (Except.ok.inj hid)
  · have htag := (hscanned.tag row hmem).symm.trans (hscanned.tag first hfirst)
    exact Option.some.inj htag

end

/-! ## A journal of one record -/

namespace Sample

open Planning.Sample Container Layout

/-- Crates that take every key. -/
def crates : Crates where
  toPlanCrates := Planning.Sample.crates.toPlanCrates
  publicFromSlice := .ok
  compressedTryFrom := .ok

/-- The id of the object. -/
def objectId : Bytes32 := Vector.replicate 32 9

/-- The one record of an object. -/
def record : Bytes :=
  RecordKind.privateRecord.prefixOf ++ (objectId.toList ++
    ((Vector.replicate 16 3 : Vector UInt8 16).toList ++ (toLe 4 0 ++ (toLe 4 1 ++
      List.replicate 32864 0))))

theorem record_length : record.length = Format.privateRecordBytes := by
  simp only [record, List.length_append, RecordKind.prefixOf_length, Vector.length_toList,
    toLe_length, List.length_replicate]
  rfl

theorem record_header : Container.inspectHeader record =
    .ok ⟨objectId, Vector.replicate 16 3, 0, 1⟩ :=
  inspectHeader_fields rfl record_length Nat.one_pos (by decide)

theorem record_valid : Envelope.validateRecord record = .ok () := by
  have hkind : RecordKind.parse record = .ok .privateRecord :=
    RecordKind.parse_eq_ok.mpr ⟨_, rfl⟩
  rw [Envelope.validateRecord, hkind, Except.ok_bind, record_header]
  rfl

/-- What a reveal returns. -/
def returned : TxOut := ⟨1000, script⟩

theorem script_length : script.length = 22 :=
  crates_lawful.p2wpkh_length _ (crates_lawful.newP2wpkh _)

/-- The commit of a draft of the record. -/
def commitFor (draft : Draft Planning.Sample.crates) (size : ℕ) : Transaction :=
  commitOf [(source 1000000 0).1]
    ⟨UInt64.ofNat (1000 + size), Planning.Sample.crates.newP2trTweaked draft.info⟩
    ⟨UInt64.ofNat (998847 - size), script⟩

/-- The journal of a commit and a reveal of this size. -/
def planOf (commit reveal : Transaction) (size : ℕ) : Plan where
  version := 0
  network := "litecoin"
  objectId := Planning.Sample.crates.hexEncode objectId.toList
  startHeight := 0
  inputBytes := 1
  feeSats := 153 + size
  commitFeeSats := 153
  revealFeeSats := size
  feeRateSatVb := 1
  funding := (coin 1000000 0).funding
  commit := Planning.Sample.crates.encodeTransaction commit
  reveals := [Planning.Sample.crates.encodeTransaction reveal]
  miningAddress := ""

section

variable {draft : Draft Planning.Sample.crates} {size : ℕ}

theorem commitFor_weight (hscript : (Planning.Sample.crates.newP2trTweaked draft.info).length = 34) :
    (commitFor draft size).weight ≤ 503 := by
  have hbase : (Standard.serializeBase (commitFor draft size)).length = 125 :=
    commit_base_length (show 1 < 253 by decide)
      (fun input hinput => by rw [List.mem_singleton.mp hinput]) rfl hscript script_length
  have hwitness : Standard.witnessSize (commitFor draft size).input = 1 := rfl
  have htotal := Standard.serialize_length_le (commitFor draft size)
  rw [Transaction.weight]
  omega

theorem commitFor_signed (hscript : (Planning.Sample.crates.newP2trTweaked draft.info).length = 34) :
    crates.vsize (withWitnesses (commitFor draft size)
      [List.replicate 73 0, List.replicate 33 0]) = 153 :=
  signedVsize_commitOf crates_lawful (List.cons_ne_nil _ _) (by decide) hscript script_length

theorem validateMetadata_planOf {commit reveal : Transaction} (hsize : size ≤ 70000) :
    validateMetadata crates (planOf commit reveal size) = .ok () := by
  have hfee : (planOf commit reveal size).feeSats ≤ bitcoinMaxFeeSats := by
    show 153 + size ≤ 500000
    omega
  have hid : crates.hexDecode (planOf commit reveal size).objectId = .ok objectId.toList :=
    crates_lawful.hexDecode _
  simp only [validateMetadata, Except.bind_eq_ok, ensureService_eq_ok, decide_eq_true_eq]
  have hcount : ((1 + Format.chunkBytes - 1) / Format.chunkBytes == 1) = true := by decide
  refine ⟨(), (show 1 ≤ limitInputBytes by decide), (), rfl, (), rfl, (), rfl, (), hcount, (), rfl,
    (), hfee, _, hid, ?_⟩
  rw [Vector.length_toList]
  rfl

theorem validateCommit_planOf {reveal : Transaction} (hsize : size ≤ 70000)
    (hscript : (Planning.Sample.crates.newP2trTweaked draft.info).length = 34) :
    validateCommit crates (planOf (commitFor draft size) reveal size) script
      (commitFor draft size) (source 1000000 0).1 ⟨1000000, script⟩ false = .ok 153 := by
  have hpublished : (UInt64.ofNat (1000 + size)).toNat = 1000 + size :=
    toNat_ofNat_of_lt (by omega)
  have hchange : (UInt64.ofNat (998847 - size)).toNat = 998847 - size :=
    toNat_ofNat_of_lt (by omega)
  have hweight := @commitFor_weight draft size hscript
  have hunsigned : crates.vsize (commitFor draft size) ≤ 153 := by
    show ((commitFor draft size).weight + 3) / 4 ≤ 153
    omega
  have hsigned := @commitFor_signed draft size hscript
  have hshape : validateShape crates (commitFor draft size) = .ok () := by
    simp only [validateShape, Except.bind_eq_ok, ensureService_eq_ok, decide_eq_true_eq]
    refine ⟨(), rfl, (), rfl, ?_⟩
    show (commitFor draft size).weight ≤ 400000
    omega
  have houtputs : outputSats (commitFor draft size).output 0 = some 999847 := by
    show (checkedAdd 0 (UInt64.ofNat (1000 + size)).toNat).bind _ = _
    rw [hpublished, checkedAdd, if_pos (by rw [u64Max]; omega), Option.bind_some]
    show (checkedAdd (0 + (1000 + size)) (UInt64.ofNat (998847 - size)).toNat).bind some = _
    rw [hchange, checkedAdd, if_pos (by rw [u64Max]; omega), Option.bind_some]
    congr 1
    omega
  simp only [validateCommit, Except.bind_eq_ok, ensureService_eq_ok, contextService_eq_ok,
    Bool.and_eq_true, beq_iff_eq, decide_eq_true_eq, hshape]
  refine ⟨(), trivial, _, rfl, (), rfl, (), rfl, _, rfl, (), ⟨rfl, ?_⟩, 999847, houtputs, 153, rfl, (),
    rfl, (), ⟨?_, ?_⟩, (), rfl, rfl⟩
  · show 1000 ≤ (UInt64.ofNat (998847 - size)).toNat
    omega
  · rw [hsigned]
    rfl
  · rw [show (planOf (commitFor draft size) reveal size).feeRateSatVb = 1 from rfl, Nat.mul_one]
    exact hunsigned

theorem funding_prevout : (coin 1000000 0).funding.prevout crates.toPlanCrates =
    .ok ((source 1000000 0).1, ⟨1000000, script⟩) :=
  coin_prevout (by decide) (by decide)

theorem returned_le (hsize : size ≤ 70000) : returned.value ≤ UInt64.ofNat (1000 + size) := by
  rw [UInt64.le_iff_toNat_le, toNat_ofNat_of_lt (by omega)]
  exact Nat.le_add_right 1000 size

/-- The reveal of the draft, with this signature. -/
def revealFor (draft : Draft Planning.Sample.crates) (size : ℕ) (signature control : Bytes) :
    Transaction :=
  revealOf ⟨crates.reveal.consensus.computeTxid (commitFor draft size), 0⟩ returned
    [signature, draft.script, control]

theorem validateReveals_planOf {signature control : Bytes} {parsed : Envelope.ParsedEnvelope}
    (hsize : size ≤ 70000)
    (htaproot : crates.reveal.isP2tr (Planning.Sample.crates.newP2trTweaked draft.info) = true)
    (hweight : (revealFor draft size signature control).weight ≤ standardTxWeight)
    (hvsize : crates.vsize (revealFor draft size signature control) = size)
    (hverify : Envelope.verifyReveal crates.reveal (revealFor draft size signature control)
      (commitFor draft size) = .ok parsed) (hrecord : parsed.record = record) :
    ∃ ids sizes, validateReveals crates
      (planOf (commitFor draft size) (revealFor draft size signature control) size) script
      (commitFor draft size) = .ok (size, ids, sizes) := by
  have hpublished : (UInt64.ofNat (1000 + size)).toNat = 1000 + size :=
    toNat_ofNat_of_lt (by omega)
  have hdecode : decodeTransaction crates (Planning.Sample.crates.encodeTransaction
      (revealFor draft size signature control)) = .ok (revealFor draft size signature control) :=
    decodeBounded_encode crates_lawful hweight (by decide)
  have hshape : validateShape crates (revealFor draft size signature control) = .ok () := by
    simp only [validateShape, Except.bind_eq_ok, ensureService_eq_ok, decide_eq_true_eq]
    exact ⟨(), rfl, (), rfl, hweight⟩
  have hid : crates.hexDecode (Planning.Sample.crates.hexEncode objectId.toList) =
      .ok objectId.toList := crates_lawful.hexDecode _
  have hfee : checkedSub (UInt64.ofNat (1000 + size)).toNat bitcoinReturnSats = some size := by
    rw [checkedSub_eq_some, hpublished, bitcoinReturnSats]
    omega
  have hheader : Container.inspectHeader parsed.record =
      .ok ⟨objectId, Vector.replicate 16 3, 0, 1⟩ := by
    rw [hrecord]
    exact record_header
  have happend : ∃ ids sizes, Scan.new.append crates (planOf (commitFor draft size)
      (revealFor draft size signature control) size) script (commitFor draft size)
      (Planning.Sample.crates.encodeTransaction (revealFor draft size signature control)) =
        .ok ⟨[0], [0], some (Vector.replicate 16 3), size, ids, sizes⟩ := by
    refine ⟨[crates.displayTxid (crates.reveal.consensus.computeTxid
      (revealFor draft size signature control))],
      [crates.vsize (revealFor draft size signature control)], ?_⟩
    simp only [Scan.append, Except.bind_eq_ok, ensureService_eq_ok, contextService_eq_ok,
      PlanCrates.protocol_eq_ok, Bool.and_eq_true, beq_iff_eq, decide_eq_true_eq]
    refine ⟨_, hdecode, (), hshape, _, rfl, (), ⟨rfl, Nat.one_pos⟩, (), rfl, (), ?_, _, rfl, (),
      htaproot, size, hfee, (), ?_, size, ?_, parsed, hverify, _, hheader, _, hid, (), ⟨rfl, rfl⟩,
      (), rfl, (), rfl, rfl⟩
    · show isPayout script [returned] = true
      rw [isPayout, Bool.and_eq_true, beq_iff_eq, beq_iff_eq]
      exact ⟨rfl, rfl⟩
    · rw [hvsize]
      exact (Nat.mul_one _).symm
    · rw [checkedAdd_eq_some, u64Max]
      show 0 + size ≤ _ ∧ size = 0 + size
      omega
  obtain ⟨ids, sizes, happend⟩ := happend
  refine ⟨ids, sizes, ?_⟩
  rw [validateReveals]
  simp only [planOf] at happend ⊢
  rw [Scan.appendAll, happend]
  rfl

/-- The journal of the record is accepted. -/
theorem exists_accepted : ∃ plan report,
    validateTransparentPlan crates plan script false = .ok report := by
  have hlawful := crates_lawful
  obtain ⟨draft, control, -, hdraft⟩ := @draft_ok _ hlawful record author.key returned record_valid
    author_lawful.key script_length
  have hmost := (@Envelope.recordScript_length _ record author.key hlawful.builder
    (validateRecord_length record_valid)).2
  rw [← hdraft.script, show Envelope.maxScriptBytes = 263701 by decide] at hmost
  have hcompact := compactSize_length_le draft.script.length
  obtain ⟨size, hsize⟩ : ∃ size, size = (430 + (Standard.compactSize draft.script.length).length +
    draft.script.length + 3) / 4 := ⟨_, rfl⟩
  have hfits : size ≤ 70000 := by omega
  have hleast := returned_le hfits
  obtain ⟨signature, parsed, hsignature, -, hverify, hrecord, -⟩ :=
    @signReveal_ok _ hlawful author author_lawful record control draft returned _
      (commitFor draft size) hdraft (hlawful.newP2wpkh _) rfl rfl hleast
  have hweight : (revealFor draft size signature control).weight =
      430 + (Standard.compactSize draft.script.length).length + draft.script.length :=
    reveal_weight script_length hsignature hdraft.tree_length
  have hstandard : (revealFor draft size signature control).weight ≤ standardTxWeight := by
    rw [hweight, standardTxWeight]
    omega
  have hvsize : crates.vsize (revealFor draft size signature control) = size := by
    show ((revealFor draft size signature control).weight + 3) / 4 = size
    rw [hweight, hsize]
  have htaproot := hlawful.taproot _ _ _ hdraft.info
  obtain ⟨ids, sizes, hreveals⟩ := validateReveals_planOf hfits htaproot.1 hstandard hvsize hverify
    hrecord
  have hcommit : decodeTransaction crates (Planning.Sample.crates.encodeTransaction
      (commitFor draft size)) = .ok (commitFor draft size) := by
    have hlight := @commitFor_weight draft size htaproot.2.1
    exact decodeBounded_encode hlawful (by rw [standardTxWeight]; omega) (by decide)
  have htotal : checkedAdd 153 size = some (153 + size) := by
    rw [checkedAdd_eq_some, u64Max]
    exact ⟨by omega, rfl⟩
  refine ⟨planOf (commitFor draft size) (revealFor draft size signature control) size, ?_⟩
  have hmetadata := @validateMetadata_planOf size (commitFor draft size)
    (revealFor draft size signature control) hfits
  have hvalid := @validateCommit_planOf draft size (revealFor draft size signature control) hfits
    htaproot.2.1
  rw [validateTransparentPlan, hmetadata, Except.ok_bind]
  show ∃ report, (Funding.prevout crates.toPlanCrates (coin 1000000 0).funding >>= _) = .ok report
  rw [funding_prevout, Except.ok_bind]
  show ∃ report, (decodeTransaction crates (Planning.Sample.crates.encodeTransaction
    (commitFor draft size)) >>= _) = .ok report
  have hlast : (commitFor draft size).output.getLast? =
      some ⟨UInt64.ofNat (998847 - size), script⟩ := rfl
  rw [hcommit, Except.ok_bind, hvalid, Except.ok_bind, hlast, contextService, Except.ok_bind]
  show ∃ report, (validateReveals crates (planOf (commitFor draft size)
    (revealFor draft size signature control) size) script (commitFor draft size) >>= _) = .ok report
  rw [hreveals, Except.ok_bind]
  show ∃ report, (ensureService (size == size && checkedAdd 153 size == some (153 + size)) _ >>= _) =
    .ok report
  rw [htotal, beq_self_eq_true, beq_self_eq_true]
  exact ⟨_, rfl⟩

end

end Sample

theorem accepted_journal_publishes_sample : ∃ plan report,
    validateTransparentPlan Sample.crates plan Planning.Sample.script false = .ok report ∧
    ∃ outpoint previous commit media change rows,
      plan.funding.prevout Sample.crates.toPlanCrates = .ok (outpoint, previous) ∧
      decodeTransaction Sample.crates plan.commit = .ok commit ∧
      Publishes Sample.crates plan Planning.Sample.script previous commit media change rows ∧
      report.fundingSats = previous.value.toNat ∧ report.changeSats = change.value.toNat := by
  obtain ⟨plan, report, h⟩ := Sample.exists_accepted
  exact ⟨plan, report, h,
    accepted_journal_publishes Sample.crates plan Planning.Sample.script false report h⟩

end Urma.Runtime.Journal
