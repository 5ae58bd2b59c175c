import Mathlib.Data.List.Chain
import Mathlib.Data.List.Forall2
import Urma.Core.EnvelopeExact
import Urma.Runtime.PlanValidation

/-!
# A validated plan conserves value

The fee of a record is computed over two transactions, and every commit after the first one spends
the change of the commit before it. So the fees of a plan telescope: what the first record is
funded with is the last change, the outputs of the reveals and the fees.
-/

namespace Urma.Runtime

open Chain Lib

variable {crates : PlanCrates}

/-! ## The transactions of a record -/

/-- The transactions of a record, and what its commit is said to spend. -/
structure DecodedPair where
  funding : List (OutPoint × TxOut)
  commit : Transaction
  reveal : Transaction
  deriving DecidableEq

namespace DecodedPair

/-- What the funding holds. -/
def available (row : DecodedPair) : ℕ :=
  (row.funding.map fun source => source.2.value.toNat).sum

/-- The second output of the commit. -/
def change (row : DecodedPair) : ℕ :=
  (row.commit.output.map fun output => output.value.toNat).getD 1 0

/-- What the reveal pays out. -/
def returned (row : DecodedPair) : ℕ :=
  (row.reveal.output.map fun output => output.value.toNat).sum

/-- A record of a plan is decoded as validating it does. -/
structure IsOf (crates : PlanCrates) (pair : PublicPlan) (row : DecodedPair) : Prop where
  funding : Validation.declaredFunding crates pair = .ok row.funding
  commit : Validation.transaction crates pair.commit = .ok row.commit
  reveal : Validation.transaction crates pair.reveal = .ok row.reveal

/-- What holds of every record: the commit spends the funding into two outputs, the reveal spends
the first of them into one, and none of the three is below the retained value. -/
structure Sound (crates : PlanCrates) (chain : Chain) (row : DecodedPair) : Prop where
  spends : row.commit.input.map TxIn.previousOutput = row.funding.map Prod.fst
  reveals : row.reveal.input.map TxIn.previousOutput =
    [⟨crates.reveal.consensus.computeTxid row.commit, 0⟩]
  commitOutputs : row.commit.output.length = 2
  revealOutputs : row.reveal.output.length = 1
  retained : ∀ output ∈ row.commit.output ++ row.reveal.output,
    publicationReturn chain ≤ output.value.toNat

/-- The next commit spends the change of this one, and nothing else. -/
def Funds (crates : PlanCrates) (row next : DecodedPair) : Prop :=
  next.commit.input.map TxIn.previousOutput =
      [⟨crates.reveal.consensus.computeTxid row.commit, 1⟩] ∧
    next.available = row.change

end DecodedPair

/-- The value of a plan is accounted for: its records form one chain, and what the first of them
is funded with is the last change, what the reveals pay out and the fee. -/
structure ValueConserved (crates : PlanCrates) (chain : Chain) (pairs : List PublicPlan)
    (totalFee : ℕ) (rows : List DecodedPair) : Prop where
  decoded : List.Forall₂ (DecodedPair.IsOf crates) pairs rows
  sound : ∀ row ∈ rows, row.Sound crates chain
  linear : rows.IsChain (DecodedPair.Funds crates)
  conserved : ∃ first last, rows.head? = some first ∧ rows.getLast? = some last ∧
    first.available = last.change + (rows.map DecodedPair.returned).sum + totalFee

namespace Validation

/-! ## What the checks say -/

/-- Whatever the limit, what is decoded is what the text decodes to. -/
theorem decodeBounded_eq_ok {crates : PublishCrates} {raw : String} {limit : ℕ}
    {transaction : Transaction} (h : decodeBounded crates raw limit = .ok transaction) :
    crates.decodeHex raw = .ok transaction := by
  simp only [decodeBounded, Except.bind_eq_ok] at h
  obtain ⟨_, _, hdecode⟩ := h
  exact hdecode

/-- A source of funding is an output of its transaction. -/
theorem prevout_eq_ok {funding : Funding} {source : OutPoint × TxOut}
    (h : funding.prevout crates = .ok source) :
    ∃ transaction, crates.decodeHex funding.rawTransaction = .ok transaction ∧
      transaction.output[funding.vout]? = some source.2 ∧
      source.1 = ⟨crates.reveal.consensus.computeTxid transaction, UInt32.ofNat funding.vout⟩ := by
  simp only [Funding.prevout, Except.bind_eq_ok, contextService_eq_ok] at h
  obtain ⟨transaction, hdecode, output, houtput, _, _, _, _, hsource⟩ := h
  cases hsource
  exact ⟨transaction, decodeBounded_eq_ok hdecode, houtput, rfl⟩

theorem verifyInputs_eq_ok {commit : Transaction} {index : ℕ} {seen : List OutPoint}
    {rows : List (TxIn × OutPoint × TxOut)}
    (h : verifyInputs crates commit index seen rows = .ok ()) :
    rows.map (fun row => row.1.previousOutput) = rows.map (fun row => row.2.1) := by
  induction rows generalizing index seen with
  | nil => rfl
  | cons row rows ih =>
      simp only [verifyInputs, Except.bind_eq_ok, ensureService_eq_ok, Bool.and_eq_true,
        beq_iff_eq] at h
      obtain ⟨_, ⟨hspends, _⟩, _, _, hrest⟩ := h
      rw [List.map_cons, List.map_cons, hspends, ih hrest]

/-- A verified commit spends its funding, in its order, into two outputs. -/
theorem verifyCommit_eq_ok {commit : Transaction} {prevouts : List (OutPoint × TxOut)}
    (h : verifyCommit crates commit prevouts = .ok ()) :
    commit.input.map TxIn.previousOutput = prevouts.map Prod.fst ∧ commit.output.length = 2 := by
  simp only [verifyCommit, Except.bind_eq_ok, ensureService_eq_ok, Bool.and_eq_true,
    beq_iff_eq] at h
  obtain ⟨_, ⟨hinputs, houtputs⟩, hspends⟩ := h
  have hrows := verifyInputs_eq_ok hspends
  refine ⟨?_, houtputs⟩
  calc commit.input.map TxIn.previousOutput
      = ((commit.input.zip prevouts).map Prod.fst).map TxIn.previousOutput := by
        rw [List.map_fst_zip (Nat.le_of_eq hinputs)]
    _ = ((commit.input.zip prevouts).map Prod.snd).map Prod.fst := by
        rw [List.map_map, List.map_map]
        exact hrows
    _ = prevouts.map Prod.fst := by
        rw [List.map_snd_zip (Nat.le_of_eq hinputs.symm)]

/-- A verified reveal spends a Taproot output of its commit, and has one output. -/
theorem verifyReveal_eq_ok {reveal commit : Transaction} {parsed : Envelope.ParsedEnvelope}
    (h : Envelope.verifyReveal crates.reveal reveal commit = .ok parsed) :
    ∃ (vout : UInt32) (prevout : TxOut), reveal.input.map TxIn.previousOutput =
        [⟨crates.reveal.consensus.computeTxid commit, vout⟩] ∧
      commit.output[vout.toNat]? = some prevout ∧
      crates.reveal.isP2tr prevout.scriptPubkey = true ∧ reveal.output.length = 1 := by
  have hproof := Envelope.verifyReveal_eq_ok crates.reveal h
  rw [Envelope.verifyRecordProof] at hproof
  split at hproof
  · next input hinput =>
      simp only [Except.bind_eq_ok, ensure_eq_ok, context_eq_ok, beq_iff_eq] at hproof
      obtain ⟨_, htxid, prevout, hprevout, hverified⟩ := hproof
      rw [Envelope.verifyPrevoutProof, hinput] at hverified
      cases houtput : reveal.output with
      | nil =>
          rw [houtput] at hverified
          cases hverified
      | cons output outputs =>
          rw [houtput] at hverified
          simp only [Envelope.extractRevealEnvelope, Envelope.validateRevealShape,
            Except.bind_eq_ok, ensure_eq_ok, Bool.and_eq_true, beq_iff_eq] at hverified
          obtain ⟨_, ⟨_, hshape, _⟩, _, _, _, htaproot, _⟩ := hverified
          refine ⟨input.previousOutput.vout, prevout, ?_, hprevout, htaproot, ?_⟩
          · rw [hinput, List.map_singleton, ← htxid]
          · rw [← houtput]
            exact hshape.2
  · cases hproof

/-- A checked sum is the sum. -/
theorem sumValues_eq_ok {message : String} {outputs : List TxOut} {total sum : ℕ}
    (h : sumValues message outputs total = .ok sum) :
    sum = total + (outputs.map fun output => output.value.toNat).sum := by
  induction outputs generalizing total with
  | nil =>
      cases h
      rfl
  | cons output outputs ih =>
      simp only [sumValues, Except.bind_eq_ok, contextService_eq_ok, checkedAdd_eq_some] at h
      obtain ⟨_, ⟨_, rfl⟩, hrest⟩ := h
      rw [ih hrest, List.map_cons, List.sum_cons, Nat.add_assoc]

/-- The fee of a record is what is neither change nor returned. -/
theorem recordFee_eq_ok {row : DecodedPair} {fee : ℕ} (hcommit : row.commit.output.length = 2)
    (hreveal : row.reveal.output.length = 1)
    (h : recordFee row.funding row.commit row.reveal = .ok fee) :
    row.available = row.change + row.returned + fee := by
  obtain ⟨published, change, houtputs⟩ := List.length_eq_two.mp hcommit
  obtain ⟨returned, hreturned⟩ := List.length_eq_one_iff.mp hreveal
  simp only [recordFee, houtputs, hreturned, Except.bind_eq_ok, contextService_eq_ok,
    List.getElem?_cons_zero, List.getElem?_cons_succ, Option.some.injEq, checkedAdd_eq_some,
    checkedSub_eq_some] at h
  obtain ⟨available, hsum, _, _, _, rfl, _, rfl, _, _, _, _, _, ⟨_, rfl⟩, hle, rfl⟩ := h
  have havailable := sumValues_eq_ok hsum
  rw [Nat.zero_add, List.map_map] at havailable
  have hchange : row.change = change.value.toNat := by
    rw [DecodedPair.change, houtputs]
    rfl
  have hpaid : row.returned = returned.value.toNat := by
    rw [DecodedPair.returned, hreturned]
    exact Nat.add_zero _
  have hfunds : row.available = available := havailable.symm
  rw [hchange, hpaid, hfunds]
  omega

/-! ## One record -/

/-- What appending a record says of its transactions and of the state it leaves. -/
structure Appended (crates : PlanCrates) (chain : Chain) (state : Validation) (pair : PublicPlan)
    (next : Validation) (row : DecodedPair) : Prop where
  decoded : row.IsOf crates pair
  sound : row.Sound crates chain
  fee : row.available + state.total = row.change + row.returned + next.total
  chained : state.count ≠ 0 → ∃ funding, pair.funding = [funding] ∧
    funding.rawTransaction = state.previousCommit ∧ funding.vout = 1
  count : next.count = state.count + 1
  previousCommit : next.previousCommit = pair.commit
  last : next.last = crates.displayTxid (crates.reveal.consensus.computeTxid row.reveal)

theorem verifyChainedFunding_eq_ok {pair : PublicPlan} {previousCommit : String}
    (h : verifyChainedFunding pair previousCommit = .ok ()) :
    ∃ funding, pair.funding = [funding] ∧ funding.rawTransaction = previousCommit ∧
      funding.vout = 1 := by
  rw [verifyChainedFunding] at h
  split at h
  · next funding hfunding =>
      rw [ensureService_eq_ok, Bool.and_eq_true, beq_iff_eq, beq_iff_eq] at h
      exact ⟨funding, hfunding, h.1, h.2⟩
  · cases h

theorem verifyPolicy_eq_ok {commit reveal : Transaction} {chain : Chain}
    (hcommit : commit.output.length = 2) (hreveal : reveal.output.length = 1)
    (h : verifyPolicy crates commit reveal chain = .ok ()) :
    ∀ output ∈ commit.output ++ reveal.output,
      publicationReturn chain ≤ output.value.toNat := by
  obtain ⟨published, change, houtputs⟩ := List.length_eq_two.mp hcommit
  obtain ⟨returned, hreturned⟩ := List.length_eq_one_iff.mp hreveal
  simp only [verifyPolicy, houtputs, hreturned, Except.bind_eq_ok, contextService_eq_ok,
    List.getElem?_cons_zero, List.getElem?_cons_succ, Option.some.injEq, ensureService_eq_ok,
    Bool.and_eq_true, decide_eq_true_eq] at h
  obtain ⟨_, _, _, rfl, _, rfl, _, rfl, ⟨hpublished, hchange⟩, hpaid⟩ := h
  rw [houtputs, hreturned]
  intro output hmem
  simp only [List.cons_append, List.nil_append, List.mem_cons, List.not_mem_nil, or_false] at hmem
  rcases hmem with rfl | rfl | rfl
  · exact hpublished
  · exact hchange
  · exact hpaid

/-- The reveal spends the first output: the second one is no Taproot output. -/
theorem reveals_first
    (hscripts : ∀ script, crates.reveal.isP2wpkh script = true →
      crates.reveal.isP2tr script = false)
    {reveal commit : Transaction} {parsed : Envelope.ParsedEnvelope} {script : Bytes}
    (houtputs : commit.output.length = 2) (hscript : crates.reveal.isP2wpkh script = true)
    (hchange : commit.output[1]?.map TxOut.scriptPubkey = some script)
    (h : Envelope.verifyReveal crates.reveal reveal commit = .ok parsed) :
    reveal.input.map TxIn.previousOutput =
      [⟨crates.reveal.consensus.computeTxid commit, 0⟩] := by
  obtain ⟨vout, prevout, hspends, hprevout, htaproot, _⟩ := verifyReveal_eq_ok h
  have hlt : vout.toNat < 2 := by
    rw [← houtputs]
    exact (List.getElem?_eq_some_iff.mp hprevout).1
  have hne : vout.toNat ≠ 1 := by
    intro hone
    rw [hone] at hprevout
    rw [hprevout, Option.map_some, Option.some.injEq] at hchange
    rw [hchange, hscripts script hscript] at htaproot
    cases htaproot
  have hzero : vout = 0 := by
    rw [← UInt32.toNat_inj]
    show vout.toNat = 0
    omega
  rw [hspends, hzero]

theorem append_eq_ok
    (hscripts : ∀ script, crates.reveal.isP2wpkh script = true →
      crates.reveal.isP2tr script = false)
    {state next : Validation} {pair : PublicPlan} {chain : Chain} {author : String}
    {script record : Bytes} (hscript : crates.reveal.isP2wpkh script = true)
    (h : state.append crates pair chain author script = .ok (record, next)) :
    ∃ row, Appended crates chain state pair next row := by
  simp only [append, Except.bind_eq_ok, contextService_eq_ok, ensureService_eq_ok,
    Bool.and_eq_true, decide_eq_true_eq, beq_iff_eq, checkedAdd_eq_some,
    PlanCrates.protocol_eq_ok] at h
  obtain ⟨_, _, _, _, _, _, _, _, _, hlinked, funding, hfunding, commit, hcommit, reveal, hreveal,
    _, hverified, parsed, hparsed, _, hpolicy, _, _, _, ⟨hchange, _⟩, fee, hfee, _, ⟨_, rfl⟩,
    _, hcount, hnext⟩ := h
  obtain ⟨hspends, houtputs⟩ := verifyCommit_eq_ok hverified
  obtain ⟨_, _, _, _, _, hreturned⟩ := verifyReveal_eq_ok hparsed
  have hsum := @recordFee_eq_ok ⟨funding, commit, reveal⟩ fee houtputs hreturned hfee
  rw [MultipartConsistency.checkedAdd32] at hcount
  split at hcount
  · cases hcount
    cases hnext
    refine ⟨⟨funding, commit, reveal⟩, ⟨hfunding, hcommit, hreveal⟩, ⟨hspends,
      reveals_first hscripts houtputs hscript hchange hparsed, houtputs, hreturned,
      verifyPolicy_eq_ok houtputs hreturned hpolicy⟩, ?_, ?_, rfl, rfl, rfl⟩
    · show _ = _ + _ + (state.total + fee)
      omega
    · intro hne
      rw [verifyFunding, if_neg hne] at hlinked
      exact verifyChainedFunding_eq_ok hlinked
  · cases hcount

/-! ## All records -/

/-- What holds of a validation after some records. -/
structure Linked (crates : PlanCrates) (chain : Chain) (pairs : List PublicPlan)
    (state : Validation) (rows : List DecodedPair) : Prop where
  decoded : List.Forall₂ (DecodedPair.IsOf crates) pairs rows
  sound : ∀ row ∈ rows, row.Sound crates chain
  linear : rows.IsChain (DecodedPair.Funds crates)
  count : state.count = rows.length
  previousCommit : ∀ last, rows.getLast? = some last →
    transaction crates state.previousCommit = .ok last.commit
  conserved : ∀ first last, rows.head? = some first → rows.getLast? = some last →
    first.available = last.change + (rows.map DecodedPair.returned).sum + state.total
  start : rows = [] → state.total = 0

theorem linked_new (chain : Chain) : Linked crates chain [] new [] where
  decoded := .nil
  sound := by simp
  linear := .nil
  count := rfl
  previousCommit := by simp
  conserved := by simp
  start _ := rfl

/-- A record that is funded by the change of a commit spends that change. -/
theorem Appended.funds {chain : Chain} {state next : Validation} {pair : PublicPlan}
    {last row : DecodedPair} (h : Appended crates chain state pair next row)
    (hcount : state.count ≠ 0)
    (hprevious : transaction crates state.previousCommit = .ok last.commit) :
    last.Funds crates row := by
  obtain ⟨funding, hfunding, hraw, hvout⟩ := h.chained hcount
  have hdeclared := h.decoded.funding
  rw [declaredFunding, hfunding, List.mapM_cons, List.mapM_nil] at hdeclared
  simp only [Except.bind_eq_ok] at hdeclared
  obtain ⟨source, hsource, _, hnil, hrow⟩ := hdeclared
  cases hnil
  obtain ⟨transaction, hdecode, houtput, hsource⟩ := prevout_eq_ok hsource
  rw [hraw, decodeBounded_eq_ok hprevious, Except.ok.injEq] at hdecode
  cases hdecode
  have hfunded : row.funding = [source] := (Except.ok.inj hrow).symm
  rw [hvout] at houtput hsource
  constructor
  · rw [h.sound.spends, hfunded, List.map_singleton, hsource]
    rfl
  · rw [DecodedPair.available, hfunded, DecodedPair.change, List.getD_eq_getElem?_getD,
      List.getElem?_map, houtput]
    exact Nat.add_zero _

/-- **A record more.** The invariant is kept: what the new record adds to the fees and to what is
returned, its funding has lost on the way to its change. -/
theorem Linked.append {chain : Chain} {pairs : List PublicPlan} {state next : Validation}
    {rows : List DecodedPair} {pair : PublicPlan} {row : DecodedPair}
    (h : Linked crates chain pairs state rows)
    (hrow : Appended crates chain state pair next row) :
    Linked crates chain (pairs ++ [pair]) next (rows ++ [row]) := by
  have hfunds : ∀ last, rows.getLast? = some last → last.Funds crates row := by
    intro last hlast
    have hne : state.count ≠ 0 := by
      rw [h.count]
      intro hzero
      rw [List.length_eq_zero_iff.mp hzero] at hlast
      cases hlast
    exact hrow.funds hne (h.previousCommit last hlast)
  have hlastRow : ∀ last, (rows ++ [row]).getLast? = some last → last = row := by
    intro last hlast
    rw [List.getLast?_concat, Option.some.injEq] at hlast
    exact hlast.symm
  constructor
  case decoded => exact List.rel_append h.decoded (.cons hrow.decoded .nil)
  case sound =>
    intro other hmem
    rcases List.mem_append.mp hmem with hold | hnew
    · exact h.sound other hold
    · rw [List.mem_singleton.mp hnew]
      exact hrow.sound
  case linear =>
    rw [List.isChain_append]
    refine ⟨h.linear, .singleton row, ?_⟩
    intro last hlast other hother
    cases hother
    exact hfunds last hlast
  case count => rw [hrow.count, h.count, List.length_append, List.length_singleton]
  case previousCommit =>
    intro last hlast
    rw [hlastRow last hlast, hrow.previousCommit]
    exact hrow.decoded.commit
  case conserved =>
    intro first last hfirst hlast
    rw [hlastRow last hlast, List.map_append, List.sum_append, List.map_singleton,
      List.sum_singleton]
    have hfee := hrow.fee
    cases hrows : rows.getLast? with
    | none =>
        -- the first record: nothing has been spent before it
        have hempty := List.getLast?_eq_none_iff.mp hrows
        rw [hempty, List.nil_append, List.head?_cons, Option.some.injEq] at hfirst
        have hzero := h.start hempty
        rw [hempty, List.map_nil, List.sum_nil, ← hfirst]
        omega
    | some before =>
        have hhead : rows.head? = some first := by
          rw [List.head?_append_of_ne_nil] at hfirst
          · exact hfirst
          · intro hempty
            rw [hempty] at hrows
            cases hrows
        have hbefore := h.conserved first before hhead hrows
        have hchange := (hfunds before hrows).2
        omega
  case start =>
    intro hnil
    exact absurd hnil (List.append_ne_nil_of_right_ne_nil _ (List.cons_ne_nil _ _))

/-- All records of a plan, one after another. -/
theorem appendAll_linked
    (hscripts : ∀ script, crates.reveal.isP2wpkh script = true →
      crates.reveal.isP2tr script = false)
    {chain : Chain} {author : String} {script : Bytes}
    (hscript : crates.reveal.isP2wpkh script = true)
    {before pairs : List PublicPlan} {state last : Validation} {rows : List DecodedPair}
    (h : Linked crates chain before state rows)
    (hall : appendAll crates chain author script pairs state = .ok last) :
    ∃ rows, Linked crates chain (before ++ pairs) last rows := by
  induction pairs generalizing before state rows with
  | nil =>
      cases hall
      rw [List.append_nil]
      exact ⟨rows, h⟩
  | cons pair pairs ih =>
      simp only [appendAll, Except.bind_eq_ok] at hall
      obtain ⟨⟨record, next⟩, happend, hall⟩ := hall
      obtain ⟨row, hrow⟩ := append_eq_ok hscripts hscript happend
      have hrest := ih (h.append hrow) hall
      rw [List.append_assoc] at hrest
      exact hrest

/-- **What is validated to its end conserves value.** -/
theorem Linked.conserves {chain : Chain} {pairs : List PublicPlan} {state : Validation}
    {rows : List DecodedPair} (h : Linked crates chain pairs state rows) (hne : pairs ≠ [])
    {totalFee : ℕ} {rootTxid : String} (hfinish : state.finish totalFee rootTxid = .ok ()) :
    ValueConserved crates chain pairs totalFee rows := by
  rw [finish, ensureService_eq_ok, Bool.and_eq_true, beq_iff_eq] at hfinish
  refine ⟨h.decoded, h.sound, h.linear, ?_⟩
  have hrows : rows ≠ [] := by
    intro hnil
    have hdecoded := h.decoded
    rw [hnil] at hdecoded
    cases hdecoded
    exact hne rfl
  have hfirst := List.head?_eq_some_head hrows
  have hlast := List.getLast?_eq_some_getLast hrows
  refine ⟨_, _, hfirst, hlast, ?_⟩
  rw [← hfinish.1]
  exact h.conserved _ _ hfirst hlast

theorem returnScript_eq_ok {hexScript : String} {script : Bytes}
    (h : returnScript crates hexScript = .ok script) :
    crates.reveal.isP2wpkh script = true := by
  simp only [returnScript, Except.bind_eq_ok, ensureService_eq_ok] at h
  obtain ⟨_, _, _, hscript, hok⟩ := h
  cases hok
  exact hscript

theorem appendAll_append {chain : Chain} {author : String} {script : Bytes}
    (before pairs : List PublicPlan) (state : Validation) :
    appendAll crates chain author script (before ++ pairs) state =
      appendAll crates chain author script before state >>=
        appendAll crates chain author script pairs := by
  induction before generalizing state with
  | nil => rfl
  | cons pair before ih =>
      rw [List.cons_append, appendAll, appendAll]
      cases state.append crates pair chain author script with
      | error error => rfl
      | ok appended => exact ih appended.2

/-- The records of a plan on disk are appended one after another. -/
theorem validateRecords_appendAll {id : DiskPlan → Except ServiceError String}
    {digests : DiskPlan → Except ServiceError Unit} {plan : DiskPlan} {script : Bytes}
    (hscript : returnScript crates plan.returnScript = .ok script)
    {before pairs : List PublicPlan} {state : Validation} {order last : Order}
    (hbefore : appendAll crates plan.chain plan.author script before new = .ok state)
    (h : DiskPlan.validateRecords crates.toPublishCrates (crates.checks id digests) plan before
      pairs order = .ok last) :
    ∃ state, appendAll crates plan.chain plan.author script (before ++ pairs) new = .ok state := by
  induction pairs generalizing before state order with
  | nil =>
      rw [List.append_nil]
      exact ⟨state, hbefore⟩
  | cons pair pairs ih =>
      simp only [DiskPlan.validateRecords, Except.bind_eq_ok] at h
      obtain ⟨_, hpair, _, _, _, _, _, _, order, _, hrest⟩ := h
      simp only [PlanCrates.checks, hscript, hbefore, Except.ok_bind, Except.bind_eq_ok] at hpair
      obtain ⟨⟨record, next⟩, happend, _⟩ := hpair
      have hnext : appendAll crates plan.chain plan.author script (before ++ [pair]) new =
          .ok next := by
        rw [appendAll_append, hbefore, Except.ok_bind, appendAll, happend]
        rfl
      have hall := ih hnext hrest
      rw [List.append_assoc] at hall
      exact hall

end Validation

/-! ## Both kinds of plan -/

/-- **A validated plan conserves value.** Of a plan in memory, and of one on disk: its commits form
one chain along their changes, every reveal spends the first output of its commit, no output is
below the retained value, and the funding of the first record is the last change, what the reveals
pay out and the fee of the plan. -/
theorem publication_value_conserved (crates : PlanCrates)
    (hscripts : ∀ script, crates.reveal.isP2wpkh script = true →
      crates.reveal.isP2tr script = false) :
    (∀ plan : PublicationPlan, plan.validate crates = .ok () →
      ∃ rows, ValueConserved crates plan.chain plan.records plan.totalFee rows) ∧
    ∀ (id : DiskPlan → Except ServiceError String) (digests : DiskPlan → Except ServiceError Unit)
      (plan : DiskPlan), plan.validate crates.toPublishCrates (crates.checks id digests) = .ok () →
        ∃ rows, ValueConserved crates plan.chain plan.records plan.totalFee rows := by
  constructor
  · intro plan h
    simp only [PublicationPlan.validate, Except.bind_eq_ok, ensureService_eq_ok, Bool.and_eq_true,
      Bool.not_eq_true', List.isEmpty_eq_false_iff] at h
    obtain ⟨_, ⟨⟨_, hne⟩, _⟩, _, _, script, hscript, state, hall, hfinish⟩ := h
    obtain ⟨rows, hlinked⟩ := Validation.appendAll_linked hscripts
      (Validation.returnScript_eq_ok hscript) (Validation.linked_new plan.chain) hall
    exact ⟨rows, hlinked.conserves hne hfinish⟩
  · intro id digests plan h
    simp only [DiskPlan.validate, Except.bind_eq_ok, ensureService_eq_ok, Bool.and_eq_true,
      decide_eq_true_eq, beq_iff_eq] at h
    obtain ⟨_, ⟨⟨_, hpositive⟩, _⟩, _, _, _, hlength, _, _, order, hrecords, _, _, hfinish⟩ := h
    simp only [PlanCrates.checks, Except.bind_eq_ok] at hfinish
    obtain ⟨script, hscript, state, hall, hfinish⟩ := hfinish
    obtain ⟨rows, hlinked⟩ := Validation.appendAll_linked hscripts
      (Validation.returnScript_eq_ok hscript) (Validation.linked_new plan.chain) hall
    have hne : plan.records ≠ [] := by
      intro hnil
      rw [hnil, List.length_nil] at hlength
      omega
    exact ⟨rows, hlinked.conserves hne hfinish⟩

namespace Conservation.Sample

def returnTo (value : UInt64) : TxOut :=
  ⟨value, 0 :: 20 :: List.replicate 20 7⟩

def taproot : TxOut :=
  ⟨1300, 81 :: 32 :: List.replicate 32 2⟩

def txid (id : UInt8) : Txid :=
  ⟨Vector.replicate 32 id⟩

def post : Bytes :=
  Envelope.Sample.post

/-- The transaction that funds the plan. -/
def funding : Transaction :=
  ⟨2, 10, [], [returnTo 10000]⟩

def commit (id spent : UInt8) (vout : UInt32) (change : UInt64) : Transaction where
  version := 2
  lockTime := id.toUInt32
  input := [⟨⟨txid spent, vout⟩, [], 0, [List.replicate 71 1, List.replicate 33 7]⟩]
  output := [taproot, returnTo change]

def reveal (id spent : UInt8) : Transaction where
  version := 2
  lockTime := id.toUInt32
  input := [⟨⟨txid spent, 0⟩, [], 0,
    [List.replicate 64 1,
      Envelope.recordScript Envelope.Sample.library post Envelope.Sample.generator,
      tapScript :: Envelope.Sample.generator.serialize.toList]⟩]
  output := [returnTo 1000]

/-- The transactions, by what stands for their raw bytes. -/
def transactions : List (String × Transaction) :=
  [("funding", funding), ("commit a", commit 11 10 0 8000), ("reveal a", reveal 21 11),
    ("commit b", commit 12 11 1 6000), ("reveal b", reveal 22 12)]

/-- Crates that read these transactions and accept their signatures; ids are lock times. -/
def planCrates : PlanCrates where
  reveal :=
    { script := Envelope.Sample.library
      consensus :=
        { ConsensusCrate.standard with computeTxid := fun tx => txid tx.lockTime.toUInt8 }
      isP2wpkh := fun script => script.length == 22 && script.take 2 == [0, 20]
      isP2tr := fun script => script.length == 34 && script.take 2 == [81, 32]
      verifyTaprootCommitment := fun _ _ _ => true
      signatureFromSlice := .ok
      signatureHash := fun _ _ _ => .ok zeroHash
      verifySchnorr := fun _ _ _ => .ok () }
  sha256 := Sha256.hash
  decodeHex raw := contextService (transactions.lookup raw) "Odd number of digits"
  weight _ := 1000
  genesis _ := .ok zeroHash
  display _ := "invalid"
  hexDecode _ := .ok (returnTo 0).scriptPubkey
  displayTxid txid := if txid.bytes[0] = 22 then "root" else "other"
  displayKey _ := "author"
  ecdsaFromSlice bytes := .ok ⟨bytes, .all⟩
  compressedFromSlice := .ok
  newP2wpkh key := 0 :: 20 :: key.take 20
  p2wpkhSignatureHash _ _ _ _ _ := .ok zeroHash
  verifyEcdsa _ _ _ := .ok ()

def pair (name : String) (raw : String) (vout : ℕ) : PublicPlan where
  version := 0
  chain := .bitcoinRegtest
  funding := [⟨raw, vout⟩]
  commit := "commit " ++ name
  reveal := "reveal " ++ name
  feeRate := 1

/-- Two posts, the second one paid by the change of the first. -/
def plan : PublicationPlan where
  version := 1
  chain := .bitcoinRegtest
  author := "author"
  returnScript := "return"
  rootTxid := "root"
  totalFee := 2000
  maximumFee := 2000
  records := [pair "a" "funding" 0, pair "b" "commit a" 1]

theorem scripts_apart (script : Bytes) (h : planCrates.reveal.isP2wpkh script = true) :
    planCrates.reveal.isP2tr script = false := by
  simp only [planCrates, Bool.and_eq_true, beq_iff_eq] at h ⊢
  rw [h.1]
  rfl

theorem plan_valid : plan.validate planCrates = .ok () := by
  decide +kernel

end Conservation.Sample

/-- Two chained posts conserve the value they are funded with. -/
theorem publication_value_conserved_posts :
    ∃ rows, ValueConserved Conservation.Sample.planCrates .bitcoinRegtest
      Conservation.Sample.plan.records 2000 rows :=
  (publication_value_conserved Conservation.Sample.planCrates
    Conservation.Sample.scripts_apart).1 Conservation.Sample.plan Conservation.Sample.plan_valid

end Urma.Runtime
