import Urma.Runtime.PlannerSafe
import Urma.Runtime.QuoteRecords

/-!
# What a quote bounds

A payload costs what its quote says, less one byte of its last part at most, and more for every
input of the first commit beyond one. So the quote is an upper bound when one coin is spent, and
only then.
-/

namespace Urma.Runtime

open Chain Lib Lib.Layout

namespace Planner

variable {crates : PrepareCrates} {author : Author} {funder : Account crates.PrivateKey}

/-! ## What a run costs -/

/-- A planner in a run: its inputs are declared, or refused for their amount. -/
def Going (crates : PrepareCrates) (funder : Account crates.PrivateKey) (planner : Planner) :
    Prop :=
  (∃ sources, Declared crates funder planner sources) ∨ Stuck crates funder planner

/-- What records cost from so many inputs, every later one from the change before it. -/
def costs (crates : PrepareCrates) (author : Author) (rate : ℕ) : ℕ → List Bytes → ℕ
  | _, [] => 0
  | inputs, record :: records =>
      pairFee inputs (Envelope.recordScript crates.reveal.script record author.key).length rate +
        costs crates author rate 1 records

/-- **One record of a run.** -/
theorem prepareRecord_going (h : crates.Lawful) (hauthor : author.Lawful crates)
    (hfunder : funder.Lawful crates) {planner next : Planner} (hgoing : Going crates funder planner)
    {record : Bytes} {reference : ChildReference} {pair : PublicPlan}
    (hok : planner.prepareRecord crates author funder record = .ok (reference, pair, next)) :
    next.plan.totalFee = planner.plan.totalFee + pairFee planner.inputs.length
        (Envelope.recordScript crates.reveal.script record author.key).length
          planner.limits.feeRate ∧
      next.plan.totalFee ≤ planner.limits.maxFee ∧ next.limits = planner.limits ∧
      next.inputs.length = 1 ∧ Going crates funder next := by
  obtain ⟨key, hkey⟩ := hfunder.receive
  have hscript : funder.receiveScript crates = .ok (crates.newP2wpkh key) := by
    rw [Account.receiveScript, Account.script, hkey]
    rfl
  have hreturn := h.newP2wpkh key
  rcases hgoing with ⟨sources, hready⟩ | hstuck
  · rcases prepareRecord_declared h hauthor hfunder hready hscript hreturn record with
      ⟨_, _, herror⟩ | ⟨fee, hfee, ⟨hwithin, pair', commit, reveal, hprepared, hpair⟩ |
        ⟨_, _, herror⟩⟩
    · rw [herror] at hok
      cases hok
    · rw [hprepared] at hok
      cases hok
      have hcost := hfee.eq_pairFee h hauthor hready.declared hscript hreturn
      subst hcost
      refine ⟨rfl, hwithin, rfl, rfl, ?_⟩
      rcases after_declared h hready hscript hreturn hpair with ⟨chained, hnext, _⟩ | hstuck
      · exact .inl ⟨chained, hnext⟩
      · exact .inr hstuck
    · rw [herror] at hok
      cases hok
  · rw [prepareRecord_stuck hfunder hstuck record] at hok
    cases hok

/-- What a record of a run would cost. -/
theorem FeeOf.going (h : crates.Lawful) (hauthor : author.Lawful crates)
    (hfunder : funder.Lawful crates) {planner : Planner} (hgoing : Going crates funder planner)
    {record : Bytes} {fee : ℕ} (hfee : FeeOf crates author funder planner record fee) :
    fee = pairFee planner.inputs.length
      (Envelope.recordScript crates.reveal.script record author.key).length
        planner.limits.feeRate := by
  obtain ⟨key, hkey⟩ := hfunder.receive
  have hscript : funder.receiveScript crates = .ok (crates.newP2wpkh key) := by
    rw [Account.receiveScript, Account.script, hkey]
    rfl
  rcases hgoing with ⟨sources, hready⟩ | hstuck
  · exact hfee.eq_pairFee h hauthor hready.declared hscript (h.newP2wpkh key)
  · obtain ⟨funding, path, hinputs, hrefused⟩ := hstuck.refused
    obtain ⟨_, _, _, _, _, _, hprevouts, _⟩ := hfee
    rw [hinputs, List.map_singleton, prevouts, prevoutsFrom, hrefused] at hprevouts
    cases hprevouts

/-- Where a run is after some records. -/
structure Reached (crates : PrepareCrates) (author : Author) (funder : Account crates.PrivateKey)
    (first : Planner) (records : List Bytes) (last : Planner) : Prop where
  total : last.plan.totalFee = first.plan.totalFee +
    costs crates author first.limits.feeRate first.inputs.length records
  inputs : last.inputs.length = if records = [] then first.inputs.length else 1
  within : records ≠ [] → last.plan.totalFee ≤ first.limits.maxFee
  limits : last.limits = first.limits
  going : Going crates funder last

/-- **All records of a run.** -/
theorem prepareAll_reached (h : crates.Lawful) (hauthor : author.Lawful crates)
    (hfunder : funder.Lawful crates) {records : List Bytes} {planner last : Planner}
    {pairs : List PublicPlan} (hgoing : Going crates funder planner)
    (hall : planner.prepareAll crates author funder records = .ok (pairs, last)) :
    Reached crates author funder planner records last := by
  induction records generalizing planner pairs with
  | nil =>
      cases hall
      exact ⟨rfl, rfl, fun hne => absurd rfl hne, rfl, hgoing⟩
  | cons record records ih =>
      simp only [prepareAll, Except.bind_eq_ok] at hall
      obtain ⟨⟨reference, pair, next⟩, hprepare, ⟨others, final⟩, hrest, hlast⟩ := hall
      cases hlast
      obtain ⟨htotal, hwithin, hlimits, hinputs, hnext⟩ :=
        prepareRecord_going h hauthor hfunder hgoing hprepare
      have hreached := ih hnext hrest
      refine ⟨?_, ?_, fun _ => ?_, hreached.limits.trans hlimits, hreached.going⟩
      · rw [hreached.total, htotal, hinputs, hlimits, costs, Nat.add_assoc]
      · rw [hreached.inputs, hinputs, if_neg (List.cons_ne_nil _ _)]
        split <;> rfl
      · by_cases hnil : records = []
        · rw [hreached.total, hnil, costs, Nat.add_zero]
          exact hwithin
        · rw [← hlimits]
          exact hreached.within hnil

/-- A record at the end costs what it costs from the change before it. -/
theorem costs_append (rate inputs : ℕ) (records : List Bytes) (record : Bytes) :
    costs crates author rate inputs (records ++ [record]) =
      costs crates author rate inputs records +
        pairFee (if records = [] then inputs else 1)
          (Envelope.recordScript crates.reveal.script record author.key).length rate := by
  induction records generalizing inputs with
  | nil => rw [List.nil_append, costs, costs, costs, if_pos rfl, Nat.add_zero, Nat.zero_add]
  | cons first records ih =>
      rw [List.cons_append, costs, ih, costs, if_neg (List.cons_ne_nil _ _), Nat.add_assoc]
      split <;> rfl

/-- More inputs of the first commit cost more. -/
theorem costs_inputs (rate inputs : ℕ) {records : List Bytes} (hne : records ≠ []) :
    costs crates author rate inputs records + 153 * rate =
      costs crates author rate 1 records + (341 + 273 * inputs) / 4 * rate := by
  obtain ⟨record, rest, rfl⟩ := List.exists_cons_of_ne_nil hne
  rw [costs, costs, pairFee, pairFee]
  omega

/-! ## What the records of a payload cost -/

/-- The size of a reveal by that of its script. -/
def revealSize (script : ℕ) : ℕ :=
  (433 + (Standard.compactSize script).length + script) / 4

/-- A byte of the script is a virtual byte of the reveal at most. -/
theorem revealSize_succ {size : ℕ} (h : size < 4000000000) :
    revealSize size ≤ revealSize (size + 1) ∧ revealSize (size + 1) ≤ revealSize size + 1 := by
  have hlength : ∀ n, n < 4294967296 → (Standard.compactSize n).length =
      if n < 0xfd then 1 else if n ≤ 0xffff then 3 else 5 := by
    intro n hn
    unfold Standard.compactSize
    split
    · rfl
    · split
      · rw [List.length_cons, toLe_length]
      · rw [if_pos (by omega), List.length_cons, toLe_length]
  rw [revealSize, revealSize, hlength size (by omega), hlength (size + 1) (by omega)]
  split_ifs <;> omega

theorem pairFee_one (script rate : ℕ) : pairFee 1 script rate = (153 + revealSize script) * rate := by
  rw [pairFee, revealSize, Nat.add_mul]

/-- A record of a payload has at most the bytes of the format. -/
theorem recordLength_le {length : ℕ} {geometry : Geometry}
    (h : Geometry.new length = .ok geometry) (index : ℕ) :
    Quote.recordLength geometry index ≤ Geometry.recordBytes := by
  have hleaves : geometry.leaves ≤ 64 := by
    obtain ⟨hlength, rfl⟩ := Geometry.new_eq_ok.mp h
    simp only [Geometry.maxObjectBytes, Geometry.dataBytes, Geometry.fanout] at hlength ⊢
    omega
  rw [Quote.recordLength, Quote.partSize, Quote.leafSize, Geometry.dataBytes, Geometry.fanout,
    Geometry.recordBytes]
  split_ifs <;> omega

/-- **A record costs what it is quoted**, less a virtual byte when its script saves one. -/
theorem price_eq (h : crates.Lawful) {length index : ℕ} {geometry : Geometry}
    (hgeometry : Geometry.new length = .ok geometry) {record : Bytes}
    (hat : Quote.IsAt geometry index record) (rate : ℕ) :
    pairFee 1 (Envelope.recordScript crates.reveal.script record author.key).length rate ≤
        Quote.price geometry rate index ∧
      Quote.price geometry rate index ≤
        pairFee 1 (Envelope.recordScript crates.reveal.script record author.key).length rate +
          Envelope.saved record * rate := by
  have hrecord : record.length ≤ Geometry.recordBytes := by
    rw [hat.length]
    exact recordLength_le hgeometry index
  have hshort := (@Envelope.recordScript_length _ record author.key h.builder hrecord).2
  have hmost : Envelope.maxScriptBytes = 263701 := by decide
  have hsize := Envelope.recordScript_size h.builder record author.key
  rw [hat.length] at hsize
  rw [Quote.price, ← hsize, pairFee_one, pairFee_one, ← Nat.add_mul]
  have hsaved := Envelope.saved_le_one record
  generalize (Envelope.recordScript crates.reveal.script record author.key).length = script at *
  have hstep := @revealSize_succ script (by omega)
  rcases Nat.le_one_iff_eq_zero_or_eq_one.mp hsaved with hzero | hone
  · rw [hzero]
    exact ⟨Nat.le_refl _, Nat.le_refl _⟩
  · rw [hone]
    exact ⟨Nat.mul_le_mul_right _ (by omega), Nat.mul_le_mul_right _ (by omega)⟩

/-- The records at some indices cost what they are quoted, less what they save. -/
theorem costs_price (h : crates.Lawful) {length : ℕ} {geometry : Geometry}
    (hgeometry : Geometry.new length = .ok geometry) (rate : ℕ) {indices : List ℕ}
    {records : List Bytes} (hat : List.Forall₂ (Quote.IsAt geometry) indices records) :
    costs crates author rate 1 records ≤ (indices.map (Quote.price geometry rate)).sum ∧
      (indices.map (Quote.price geometry rate)).sum ≤
        costs crates author rate 1 records + (records.map Envelope.saved).sum * rate := by
  induction hat with
  | nil => exact ⟨Nat.le_refl _, Nat.zero_le _⟩
  | cons hfirst hrest ih =>
      obtain ⟨hleast, hmost⟩ := @price_eq crates author h _ _ _ hgeometry _ hfirst rate
      rw [costs, List.map_cons, List.map_cons, List.sum_cons, List.sum_cons, Nat.add_mul]
      omega

/-- Only the last data part saves a byte. -/
theorem saved_le_count {geometry : Geometry} {indices : List ℕ} {records : List Bytes}
    (hparts : 0 < geometry.parts) (hat : List.Forall₂ (Quote.IsAt geometry) indices records) :
    (records.map Envelope.saved).sum ≤ indices.count (geometry.parts - 1) := by
  induction hat with
  | nil => exact Nat.le_refl _
  | @cons index record indices records hfirst hrest ih =>
      have hsaved := Envelope.saved_le_one record
      rw [List.map_cons, List.sum_cons, List.count_cons]
      by_cases hlast : index = geometry.parts - 1
      · rw [if_pos (beq_iff_eq.mpr hlast)]
        omega
      · rw [hfirst.saved (by omega)]
        omega

/-! ## What is written -/

theorem prepareAll_append {records others : List Bytes} {first planner last : Planner}
    {pairs added : List PublicPlan}
    (hfirst : first.prepareAll crates author funder records = .ok (pairs, planner))
    (hrest : planner.prepareAll crates author funder others = .ok (added, last)) :
    first.prepareAll crates author funder (records ++ others) = .ok (pairs ++ added, last) := by
  induction records generalizing first pairs with
  | nil =>
      cases hfirst
      exact hrest
  | cons record records ih =>
      simp only [prepareAll, Except.bind_eq_ok] at hfirst
      obtain ⟨⟨reference, pair, next⟩, hprepare, ⟨held, final⟩, hheld, hlast⟩ := hfirst
      cases hlast
      simp only [List.cons_append, prepareAll, hprepare, ih hheld, Except.ok_bind]

/-- What a writer does with the records at some indices: it prepares them all, or fails in the one
after some of them, or elsewhere. -/
def Written (crates : PrepareCrates) (author : Author) (funder : Account crates.PrivateKey)
    (geometry : Geometry) {α : Type} (indices : List ℕ) (first : Planner) (last : α → Planner) :
    Except Failure α → Prop
  | .ok value => ∃ records pairs,
      first.prepareAll crates author funder records = .ok (pairs, last value) ∧
        List.Forall₂ (Quote.IsAt geometry) indices records
  | .error (.preparing planner record _) => ∃ before after records pairs,
      indices = before ++ after ∧
        first.prepareAll crates author funder records = .ok (pairs, planner) ∧
          List.Forall₂ (Quote.IsAt geometry) before (records ++ [record])
  | .error (.other _) => True

variable {geometry : Geometry} {α β : Type} {indices others : List ℕ} {first : Planner}
  {last : α → Planner} {final : β → Planner} {store : PublicPlan → Except ServiceError Unit}

/-- One writer after another. -/
theorem Written.bind {result : Except Failure α} {next : α → Except Failure β}
    (h : Written crates author funder geometry indices first last result)
    (hnext : ∀ value, result = .ok value →
      Written crates author funder geometry others (last value) final (next value)) :
    Written crates author funder geometry (indices ++ others) first final (result >>= next) := by
  cases result with
  | error failure =>
      cases failure with
      | other error => trivial
      | preparing planner record error =>
          obtain ⟨before, after, records, pairs, rfl, hall, hat⟩ := h
          exact ⟨before, after ++ others, records, pairs, List.append_assoc _ _ _, hall, hat⟩
  | ok value =>
      obtain ⟨records, pairs, hall, hat⟩ := h
      have hrest := hnext value rfl
      rw [Except.ok_bind]
      cases hresult : next value with
      | ok value =>
          rw [hresult] at hrest
          obtain ⟨added, more, hmore, hadded⟩ := hrest
          exact ⟨records ++ added, pairs ++ more, prepareAll_append hall hmore,
            List.rel_append hat hadded⟩
      | error failure =>
          rw [hresult] at hrest
          cases failure with
          | other error => trivial
          | preparing planner record error =>
              obtain ⟨before, after, added, more, rfl, hmore, hadded⟩ := hrest
              refine ⟨indices ++ before, after, records ++ added, pairs ++ more,
                (List.append_assoc _ _ _).symm, prepareAll_append hall hmore, ?_⟩
              rw [List.append_assoc]
              exact List.rel_append hat hadded

theorem Written.done (value : α) :
    Written crates author funder geometry [] (last value) last (.ok value) :=
  ⟨[], [], rfl, .nil⟩

/-- A writer whose result is put together with others. -/
theorem Written.map {result : Except Failure α} {make : α → β}
    (h : Written crates author funder geometry indices first last result)
    (hmake : ∀ value, final (make value) = last value) :
    Written crates author funder geometry indices first final
      (result >>= fun value => .ok (make value)) := by
  rw [← List.append_nil indices]
  apply h.bind
  intro value _
  rw [← hmake]
  exact Written.done (make value)

/-- What fails elsewhere prepares nothing. -/
theorem Written.elsewhere {result : Except ServiceError α} {next : α → Except Failure β}
    (hnext : ∀ value, result = .ok value →
      Written crates author funder geometry indices first final (next value)) :
    Written crates author funder geometry indices first final
      (Planner.elsewhere result >>= next) := by
  cases result with
  | error error => trivial
  | ok value => exact hnext value rfl

/-- One record. -/
theorem write_written {index : ℕ} {record : Bytes} (hat : Quote.IsAt geometry index record)
    (planner : Planner) :
    Written crates author funder geometry [index] planner Prod.snd
      (write crates author funder store record planner) := by
  rw [write]
  cases hprepare : planner.prepareRecord crates author funder record with
  | error error => exact ⟨[index], [], [], [], rfl, rfl, .cons hat .nil⟩
  | ok prepared =>
      obtain ⟨reference, pair, next⟩ := prepared
      show Written crates author funder geometry [index] planner Prod.snd
        (Planner.elsewhere (store pair) >>= fun _ => .ok (reference, next))
      apply Written.elsewhere
      intro _ _
      refine ⟨[record], [pair], ?_, .cons hat .nil⟩
      rw [prepareAll, hprepare]
      rfl

variable {payload : Bytes} {profile : Vector UInt8 8} {inputs : List FundingInput}

/-- The data parts of a payload. -/
theorem writeParts_written (hgeometry : Geometry.new payload.length = .ok geometry)
    (hindices : ∀ index ∈ indices, index < geometry.parts) (planner : Planner) :
    Written crates author funder geometry indices planner Prod.snd
      (writeParts crates author funder store geometry payload indices planner) := by
  induction indices generalizing planner with
  | nil => exact @Written.done _ _ _ _ _ Prod.snd ([], planner)
  | cons index rest ih =>
      have hindex := hindices index List.mem_cons_self
      rw [writeParts]
      apply Written.elsewhere
      intro length hlength
      apply Written.elsewhere
      intro record hrecord
      rw [PlanCrates.protocol_eq_ok] at hlength hrecord
      simp only [Geometry.partLength, Except.bind_eq_ok, ensure_eq_ok, Except.ok.injEq] at hlength
      obtain ⟨_, _, rfl⟩ := hlength
      have hpart : (slice payload (index * Geometry.dataBytes) (index * Geometry.dataBytes +
          min (geometry.length - index * Geometry.dataBytes) Geometry.dataBytes)).length =
            Quote.partSize geometry index := by
        obtain ⟨_, rfl⟩ := Geometry.new_eq_ok.mp hgeometry
        rw [slice_length, Quote.partSize]
        dsimp only
        omega
      have hat := isAt_data hgeometry hindex hpart hrecord
      rw [← List.singleton_append]
      apply (write_written hat planner).bind
      rintro ⟨reference, next⟩ _
      exact (ih (fun other hmem => hindices other (List.mem_cons_of_mem _ hmem)) next).map
        fun _ => rfl

theorem writeParts_length {planner next : Planner} {references : List ChildReference}
    (hok : writeParts crates author funder store geometry payload indices planner =
      .ok (references, next)) : references.length = indices.length := by
  induction indices generalizing planner references with
  | nil =>
      cases hok
      rfl
  | cons index rest ih =>
      simp only [writeParts, Except.bind_eq_ok] at hok
      obtain ⟨_, _, _, _, ⟨reference, _⟩, _, ⟨others, _⟩, hrest, hlast⟩ := hok
      cases hlast
      rw [List.length_cons, List.length_cons, ih hrest]

/-- The leaf manifests of a payload. -/
theorem writeLeaves_written {index : ℕ} {manifests : List (List ChildReference)}
    (hcount : index + manifests.length ≤ geometry.leaves)
    (hentries : ∀ position entries, manifests[position]? = some entries →
      entries.length = Quote.leafSize geometry (index + position)) (planner : Planner) :
    Written crates author funder geometry
      (List.range' (geometry.parts + index) manifests.length) planner Prod.snd
        (writeLeaves crates author funder store index manifests planner) := by
  induction manifests generalizing index planner with
  | nil => exact @Written.done _ _ _ _ _ Prod.snd ([], planner)
  | cons entries rest ih =>
      rw [List.length_cons] at hcount ⊢
      rw [writeLeaves, List.range'_succ, ← List.singleton_append]
      apply Written.elsewhere
      intro position hposition
      apply Written.elsewhere
      intro record hrecord
      rw [PlanCrates.protocol_eq_ok] at hposition hrecord
      obtain ⟨_, rfl⟩ := tryU16_eq_ok.mp hposition
      have hat := isAt_leaf (by omega) (hentries 0 entries rfl) hrecord
      apply (write_written hat planner).bind
      rintro ⟨reference, next⟩ _
      have hlater : ∀ later entries, rest[later]? = some entries →
          entries.length = Quote.leafSize geometry (position + 1 + later) := by
        intro later entries hentry
        rw [Nat.add_assoc, Nat.add_comm 1 later]
        exact hentries (later + 1) entries hentry
      exact (@ih (position + 1) (by omega) hlater next).map fun _ => rfl

theorem writeLeaves_length {index : ℕ} {manifests : List (List ChildReference)}
    {planner next : Planner} {references : List ChildReference}
    (hok : writeLeaves crates author funder store index manifests planner =
      .ok (references, next)) : references.length = manifests.length := by
  induction manifests generalizing index planner references with
  | nil =>
      cases hok
      rfl
  | cons entries rest ih =>
      simp only [writeLeaves, Except.bind_eq_ok] at hok
      obtain ⟨_, _, _, _, ⟨reference, _⟩, _, ⟨others, _⟩, hrest, hlast⟩ := hok
      cases hlast
      rw [List.length_cons, List.length_cons, ih hrest]

/-- **The records of a payload** are written in the order of the quote. -/
theorem writeMultipart_written (hgeometry : Geometry.new payload.length = .ok geometry)
    (planner : Planner) :
    Written crates author funder geometry (List.range geometry.nodes) planner id
      (writeMultipart crates author funder store geometry payload profile planner) := by
  have hindices : List.range geometry.nodes = List.range geometry.parts ++
      (List.range' (geometry.parts + 0) geometry.leaves ++ [geometry.parts + geometry.leaves]) := by
    rw [Geometry.nodes, List.range_succ, List.range_add, List.append_assoc, Nat.add_zero,
      List.range'_eq_map_range]
  rw [writeMultipart, hindices]
  apply (writeParts_written hgeometry (fun index hmem => List.mem_range.mp hmem) planner).bind
  rintro ⟨parts, planner⟩ hparts
  have hlength := writeParts_length hparts
  rw [List.length_range] at hlength
  have hleaves : (chunks Geometry.fanout parts).length = geometry.leaves := by
    rw [chunks_length, hlength]
    obtain ⟨_, rfl⟩ := Geometry.new_eq_ok.mp hgeometry
    rfl
  have hentries : ∀ position entries, (chunks Geometry.fanout parts)[position]? = some entries →
      entries.length = Quote.leafSize geometry (0 + position) := by
    intro position entries hentry
    rw [chunks_getElem? (by decide)] at hentry
    split at hentry
    · cases hentry
      rw [List.length_take, List.length_drop, hlength, Quote.leafSize, Nat.zero_add]
      omega
    · cases hentry
  rw [← hleaves]
  apply (writeLeaves_written (by rw [hleaves, Nat.zero_add]) hentries planner).bind
  rintro ⟨leaves, planner⟩ hmanifests
  have hcount := writeLeaves_length hmanifests
  dsimp only [writeRoot]
  apply Written.elsewhere
  intro record hrecord
  rw [PlanCrates.protocol_eq_ok] at hrecord
  have hat : Quote.IsAt geometry (geometry.parts + geometry.leaves) record :=
    isAt_root (by
      show leaves.length = geometry.leaves
      rw [hcount, hleaves]) hrecord
  rw [hleaves]
  exact (write_written hat planner).map fun _ => rfl

/-! ## What a quote bounds -/

/-- What comes after something that may fail elsewhere. -/
theorem elsewhere_bind {result : Except ServiceError α} {next : α → Except Failure β}
    {outcome : Except Failure β} (h : (elsewhere result >>= next) = outcome)
    (hnot : ∀ error, outcome ≠ .error (.other error)) :
    ∃ value, result = .ok value ∧ next value = outcome := by
  cases result with
  | error error => exact absurd h.symm (hnot error)
  | ok value => exact ⟨value, rfl, h⟩

/-- What preparing a payload comes to: the writer of a planner that was just funded. -/
theorem prepareMultipart_eq {sources : List (OutPoint × TxOut)}
    (hsources : Sources crates funder inputs sources) {limits : PlanLimits}
    {outcome : Except Failure Planner}
    (h : prepareMultipart crates author funder store limits inputs payload profile = outcome)
    (hnot : ∀ error, outcome ≠ .error (.other error)) :
    ∃ geometry planner, Geometry.new payload.length = .ok geometry ∧
      Going crates funder planner ∧ planner.inputs = inputs ∧ planner.limits = limits ∧
      planner.plan.totalFee = 0 ∧ 1 ≤ limits.feeRate ∧
      writeMultipart crates author funder store geometry payload profile planner = outcome := by
  rw [prepareMultipart] at h
  obtain ⟨geometry, hgeometry, h⟩ := elsewhere_bind h hnot
  obtain ⟨least, hminimum, h⟩ := elsewhere_bind h hnot
  obtain ⟨planner, hfunded, h⟩ := elsewhere_bind h hnot
  obtain ⟨_, hrate, hrates, _, hfits, _⟩ := minimum_eq_ok hminimum
  simp only [funded, Except.bind_eq_ok] at hfunded
  obtain ⟨script, _, hplanner⟩ := hfunded
  cases hplanner
  exact ⟨geometry, _, crates.protocol_eq_ok.mp hgeometry,
    .inl ⟨sources, hsources, rfl, ⟨hrate, hrates⟩, hfits⟩, rfl, rfl, rfl, hrate, h⟩

/-- What the records of a payload cost, by the prices of its quote. -/
theorem costs_quote (h : crates.Lawful) (hgeometry : Geometry.new payload.length = .ok geometry)
    (rate : ℕ) {records : List Bytes}
    (hat : List.Forall₂ (Quote.IsAt geometry) (List.range geometry.nodes) records) :
    records ≠ [] ∧
      costs crates author rate 1 records ≤
        ((List.range geometry.nodes).map (Quote.price geometry rate)).sum ∧
      ((List.range geometry.nodes).map (Quote.price geometry rate)).sum ≤
        costs crates author rate 1 records + rate := by
  obtain ⟨hleast, hmost⟩ := @costs_price crates author h _ _ hgeometry rate _ _ hat
  have hsaved := saved_le_count (Geometry.new_pos hgeometry).1 hat
  have hone : (List.range geometry.nodes).count (geometry.parts - 1) ≤ 1 := by
    rw [List.count_range]
    split <;> omega
  have hrate := Nat.mul_le_mul_right rate (Nat.le_trans hsaved hone)
  refine ⟨?_, hleast, by omega⟩
  intro hnil
  have hlength := hat.length_eq
  rw [hnil, List.length_range, Geometry.nodes, List.length_nil] at hlength
  omega

/-- **A quote bounds the fees when one coin is spent**, and only then. Whatever maximum is approved,
what a payload costs is within the quote exactly when the first commit has one input. With the
quote approved and one input, no record is refused for its fee; with more inputs, no payload is
prepared. -/
theorem quote_bounds (h : crates.Lawful) (hauthor : author.Lawful crates)
    (hfunder : funder.Lawful crates) (store : PublicPlan → Except ServiceError Unit)
    (payload : Bytes) (profile : Vector UInt8 8) (rate : ℕ) (quote : Quote)
    (inputs : List FundingInput) (sources : List (OutPoint × TxOut))
    (hquote : Quote.multipart crates payload.length author.key funder rate = .ok quote)
    (hsources : Sources crates funder inputs sources) :
    (∀ maxFee maxRecords last,
      prepareMultipart crates author funder store ⟨rate, maxFee, maxRecords⟩ inputs payload
        profile = .ok last →
          (last.plan.totalFee ≤ quote.maximumFee ↔ inputs.length = 1)) ∧
    (inputs.length = 1 → ∀ maxRecords planner record error,
      prepareMultipart crates author funder store ⟨rate, quote.maximumFee, maxRecords⟩ inputs
        payload profile = .error (.preparing planner record error) →
          ∀ fee, FeeOf crates author funder planner record fee →
            planner.plan.totalFee + fee ≤ quote.maximumFee) ∧
    (inputs.length ≠ 1 → ∀ maxRecords last,
      prepareMultipart crates author funder store ⟨rate, quote.maximumFee, maxRecords⟩ inputs
        payload profile ≠ .ok last) := by
  obtain ⟨geometry, hgeometry, hmaximum⟩ := Quote.multipart_eq_ok h hauthor.key hquote
  have hprepared : ∀ limits last, limits.feeRate = rate →
      prepareMultipart crates author funder store limits inputs payload profile = .ok last →
        last.plan.totalFee ≤ limits.maxFee ∧
          (last.plan.totalFee ≤ quote.maximumFee ↔ inputs.length = 1) := by
    intro limits last hsame hok
    obtain ⟨_, first, hgeometry', hgoing, hinputs, hlimits, hzero, hpositive, hwritten⟩ :=
      prepareMultipart_eq hsources hok nofun
    cases hgeometry.symm.trans hgeometry'
    have hrun := @writeMultipart_written crates author funder geometry store payload profile
      hgeometry first
    rw [hwritten] at hrun
    obtain ⟨records, pairs, hall, hat⟩ := hrun
    have hreached := prepareAll_reached h hauthor hfunder hgoing hall
    obtain ⟨hne, hleast, hmost⟩ := @costs_quote crates author geometry payload h hgeometry rate
      records hat
    have htotal := hreached.total
    rw [hzero, Nat.zero_add, hlimits, hinputs, hsame] at htotal
    have hmore := @costs_inputs crates author rate inputs.length records hne
    have hwithin := hreached.within hne
    rw [hlimits] at hwithin
    refine ⟨hwithin, ?_⟩
    show (id last).plan.totalFee ≤ _ ↔ _
    rw [htotal, hmaximum]
    constructor
    · intro hbound
      by_contra hone
      have hsome := List.length_pos_iff.mpr hsources.least
      have hcommit : 221 * rate ≤ (341 + 273 * inputs.length) / 4 * rate :=
        Nat.mul_le_mul_right rate (by omega)
      omega
    · intro hone
      rw [hone]
      exact hleast
  refine ⟨fun maxFee maxRecords last hok => (hprepared _ last rfl hok).2, ?_, ?_⟩
  · intro hone maxRecords planner record error herror fee hfee
    obtain ⟨_, first, hgeometry', hgoing, hinputs, hlimits, hzero, _, hwritten⟩ :=
      prepareMultipart_eq hsources herror nofun
    cases hgeometry.symm.trans hgeometry'
    have hrun := @writeMultipart_written crates author funder geometry store payload profile
      hgeometry first
    rw [hwritten] at hrun
    obtain ⟨before, after, records, pairs, hindices, hall, hat⟩ := hrun
    have hreached := prepareAll_reached h hauthor hfunder hgoing hall
    have hcost := hfee.going h hauthor hfunder hreached.going
    have htotal := hreached.total
    rw [hzero, Nat.zero_add, hlimits, hinputs, hone] at htotal
    rw [hreached.inputs, hreached.limits, hlimits, hinputs, hone, ite_self] at hcost
    have hend := @costs_append crates author rate 1 records record
    rw [ite_self] at hend
    have hbound := (@costs_price crates author h _ _ hgeometry rate _ _ hat).1
    have hall : ((List.range geometry.nodes).map (Quote.price geometry rate)).sum =
        (before.map (Quote.price geometry rate)).sum +
          (after.map (Quote.price geometry rate)).sum := by
      rw [hindices, List.map_append, List.sum_append]
    rw [htotal, hcost, ← hend, hmaximum, hall]
    omega
  · intro hmany maxRecords last hok
    obtain ⟨hwithin, hiff⟩ := hprepared _ last rfl hok
    exact hmany (hiff.mp hwithin)

/-! ## Two coins -/

/-- A record of a payload is of the format. -/
theorem validateRecord_multipart {record : MultipartRecord} {bytes : Bytes}
    (h : record.encode = .ok bytes) : Envelope.validateRecord bytes = .ok () := by
  have hdecode := MultipartRecord.decode_encode h
  obtain ⟨_, hkind, _⟩ := MultipartRecord.decode_eq_ok hdecode
  rw [Envelope.validateRecord, hkind, Except.ok_bind]
  cases record <;> simp only [MultipartRecord.kind, hdecode, Except.ok_bind] <;> rfl

/-- A record that is within everything but the approved maximum is refused by it. -/
theorem prepareRecord_exceeds (h : crates.Lawful) (hauthor : author.Lawful crates)
    (hfunder : funder.Lawful crates) {planner : Planner} {sources : List (OutPoint × TxOut)}
    (hready : Declared crates funder planner sources) {returnScript : Bytes}
    (hscript : funder.receiveScript crates = .ok returnScript)
    (hreturn : crates.reveal.isP2wpkh returnScript = true) {record : Bytes}
    (hvalid : Envelope.validateRecord record = .ok ()) {fee : ℕ}
    (hfee : pairFee planner.inputs.length
      (Envelope.recordScript crates.reveal.script record author.key).length
        planner.limits.feeRate = fee)
    (hcap : fee ≤ 500000) (hcovered : fee + 2 * publicationReturn funder.chain ≤ held sources)
    (hbudget : fee ≤ planner.limits.maxFee) (hfits : planner.plan.totalFee + fee ≤ u64Max)
    (habove : planner.limits.maxFee < planner.plan.totalFee + fee) :
    planner.prepareRecord crates author funder record =
      .error (.message "publication exceeds approved maximum fee") := by
  obtain ⟨genesis, hgenesis⟩ := hfunder.genesis
  have hlength : (returnOutput funder.chain returnScript).scriptPubkey.length = 22 :=
    h.p2wpkh_length _ hreturn
  obtain ⟨draft, control, hdraft, hdraftOf⟩ := draft_ok h hvalid hauthor.key hlength
  have hcost : draft.fee (sources.map Prod.fst) (returnOutput funder.chain returnScript)
      planner.limits.feeRate = fee := by
    rw [hdraftOf.fee_eq_pairFee h hready.declared.outpoints_ne hready.declared.outpoints_length
      hlength, List.length_map, hready.declared.length, hfee]
  obtain ⟨pair, commit, reveal, hprepared, hpair⟩ := (@prepareSignedBytes_covered crates author
    funder planner.inputs sources record returnScript planner.limits.feeRate planner.limits.maxFee
    draft h hauthor hfunder hready.declared genesis hgenesis hscript hready.rate hreturn control
    hdraft hdraftOf fee hcost hcap hcovered).1 hbudget
  have hdecode := hpair.decode_reveal h
  have htotal := (@checkedAdd_eq_some planner.plan.totalFee fee _).mpr ⟨hfits, rfl⟩
  rw [prepareRecord_eq hready hgenesis]
  simp only [hprepared, hdecode, htotal, contextService, ensureService,
    decide_eq_false (Nat.not_le.mpr habove), Bool.false_eq_true, if_false, Except.ok_bind]
  rfl

/-- What is prepared and stored is written. -/
theorem write_ok {store : PublicPlan → Except ServiceError Unit} {planner next : Planner}
    {record : Bytes} {reference : ChildReference} {pair : PublicPlan}
    (hprepare : planner.prepareRecord crates author funder record = .ok (reference, pair, next))
    (hstore : store pair = .ok ()) :
    write crates author funder store record planner = .ok (reference, next) := by
  rw [write, hprepare]
  show (elsewhere (store pair) >>= fun _ => .ok (reference, next)) = _
  rw [hstore]
  rfl

/-- A record that is within everything is prepared, and its change is declared for the next. -/
theorem prepareRecord_within (h : crates.Lawful) (hauthor : author.Lawful crates)
    (hfunder : funder.Lawful crates) {planner : Planner} {sources : List (OutPoint × TxOut)}
    (hready : Declared crates funder planner sources) {returnScript : Bytes}
    (hscript : funder.receiveScript crates = .ok returnScript)
    (hreturn : crates.reveal.isP2wpkh returnScript = true) {record : Bytes}
    (hvalid : Envelope.validateRecord record = .ok ()) {fee : ℕ}
    (hfee : pairFee planner.inputs.length
      (Envelope.recordScript crates.reveal.script record author.key).length
        planner.limits.feeRate = fee)
    (hcap : fee ≤ 500000) (hcovered : fee + 2 * publicationReturn funder.chain ≤ held sources)
    (hwithin : planner.plan.totalFee + fee ≤ planner.limits.maxFee)
    (hheld : held sources ≤ 2100000000000000) :
    ∃ reference pair next chained,
      planner.prepareRecord crates author funder record = .ok (reference, pair, next) ∧
      Declared crates funder next chained ∧
      held chained = held sources - (fee + publicationReturn funder.chain) ∧
      next.plan.totalFee = planner.plan.totalFee + fee ∧ next.limits = planner.limits ∧
      next.inputs.length = 1 := by
  rcases prepareRecord_declared h hauthor hfunder hready hscript hreturn record with
    ⟨_, hinvalid, _⟩ | ⟨cost, hcost, ⟨_, pair, commit, reveal, hprepared, hpair⟩ | ⟨hreason, _⟩⟩
  · rw [hvalid] at hinvalid
    cases hinvalid
  · have hsame := hcost.eq_pairFee h hauthor hready.declared hscript hreturn
    rw [hfee] at hsame
    subst hsame
    refine ⟨_, pair, _, _, hprepared, ⟨sources_chained h hscript hreturn hready.declared.held_le
      hpair (by omega), hready.chain, hready.rate, hready.fits⟩, ?_, rfl, rfl, rfl⟩
    rw [held, List.map_singleton, List.sum_singleton]
    exact toNat_ofNat_of_lt (by omega)
  · have hsame := hcost.eq_pairFee h hauthor hready.declared hscript hreturn
    rw [hfee] at hsame
    omega

end Planner

namespace Planning.Sample

/-- What a payload of one byte is quoted at one unit a byte. -/
def quote : Quote where
  records := 3
  payloadBytes := 1
  parts := 1
  leaves := 1
  retainedValue := 3300
  maximumFee := 871
  funding := 14071

theorem quote_eq : Quote.multipart crates 1 author.key funder 1 = .ok quote := by
  decide +kernel

end Planning.Sample

namespace Planner

open Planning

/-- One coin pays for a payload of one byte. -/
theorem quote_bounds_byte :
    Quote.multipart Planning.Sample.crates 1 Planning.Sample.author.key Planning.Sample.funder 1 =
      .ok Planning.Sample.quote ∧
    ∀ maxFee maxRecords last,
      prepareMultipart Planning.Sample.crates Planning.Sample.author Planning.Sample.funder
        (fun _ => .ok ()) ⟨1, maxFee, maxRecords⟩ [Planning.Sample.coin 20000 0] [1]
          (Vector.replicate 8 0) = .ok last →
        (last.plan.totalFee ≤ 871 ↔ [Planning.Sample.coin 20000 0].length = 1) :=
  ⟨Planning.Sample.quote_eq,
    (quote_bounds Planning.Sample.crates_lawful Planning.Sample.author_lawful
      Planning.Sample.funder_lawful (fun _ => .ok ()) [1] (Vector.replicate 8 0) 1
      Planning.Sample.quote [Planning.Sample.coin 20000 0] [Planning.Sample.source 20000 0]
      Planning.Sample.quote_eq (Planning.Sample.coin_sources (by decide))).1⟩

/-- One part is written, and then the others. -/
theorem writeParts_cons {geometry : Geometry} {store : PublicPlan → Except ServiceError Unit}
    {payload : Bytes} {index length : ℕ} {rest : List ℕ} {planner next last : Planner}
    {record : Bytes} {reference : ChildReference} {references : List ChildReference} (hlength : geometry.partLength index = .ok length)
    (hencode : (MultipartRecord.data ⟨index, slice payload (index * Geometry.dataBytes)
      (index * Geometry.dataBytes + length)⟩).encode = .ok record)
    (hwrite : write crates author funder store record planner = .ok (reference, next))
    (hrest : writeParts crates author funder store geometry payload rest next =
      .ok (references, last)) :
    writeParts crates author funder store geometry payload (index :: rest) planner =
      .ok (reference :: references, last) := by
  simp only [writeParts, hlength, hencode, PlanCrates.protocol, elsewhere, Except.ok_bind, hwrite,
    hrest]

/-- Two coins that hold what is quoted: the root manifest is refused by the quoted maximum. -/
theorem quote_bounds_false :
    ∃ planner record,
      Quote.multipart Planning.Sample.crates 1 Planning.Sample.author.key Planning.Sample.funder 1 = .ok Planning.Sample.quote ∧
      Sources Planning.Sample.crates Planning.Sample.funder [Planning.Sample.coin 10000 0, Planning.Sample.coin 10000 1]
        [Planning.Sample.source 10000 0, Planning.Sample.source 10000 1] ∧
      Planning.Sample.quote.funding ≤ held [Planning.Sample.source 10000 0, Planning.Sample.source 10000 1] ∧
      prepareMultipart Planning.Sample.crates Planning.Sample.author Planning.Sample.funder (fun _ => .ok ())
        ⟨1, Planning.Sample.quote.maximumFee, Planning.Sample.quote.records⟩
        [Planning.Sample.coin 10000 0, Planning.Sample.coin 10000 1] [1] (Vector.replicate 8 0) =
          .error (.preparing planner record
            (.message "publication exceeds approved maximum fee")) := by
  have hsources : Sources Planning.Sample.crates Planning.Sample.funder [Planning.Sample.coin 10000 0, Planning.Sample.coin 10000 1]
      [Planning.Sample.source 10000 0, Planning.Sample.source 10000 1] := Planning.Sample.coins_sources (by decide)
  have hscript : Planning.Sample.funder.receiveScript Planning.Sample.crates = .ok Planning.Sample.script := rfl
  have hreturn : Planning.Sample.crates.reveal.isP2wpkh Planning.Sample.script = true :=
    Planning.Sample.crates_lawful.newP2wpkh _
  have hretained : publicationReturn Planning.Sample.funder.chain = 3300 := rfl
  have hfirst : Declared Planning.Sample.crates Planning.Sample.funder
      (Planning.Sample.planner ⟨1, 871, 3⟩ [Planning.Sample.coin 10000 0, Planning.Sample.coin 10000 1])
      [Planning.Sample.source 10000 0, Planning.Sample.source 10000 1] := ⟨hsources, rfl, by decide, by decide⟩
  have hheld : held [Planning.Sample.source 10000 0, Planning.Sample.source 10000 1] = 20000 := rfl
  have hgeometry : Geometry.new 1 = .ok ⟨1, 1, 1⟩ := by decide
  have hscripts : ∀ {index record}, Quote.IsAt ⟨1, 1, 1⟩ index record →
      (Envelope.recordScript Planning.Sample.crates.reveal.script record Planning.Sample.author.key).length =
        Envelope.scriptSize (Quote.recordLength ⟨1, 1, 1⟩ index) := by
    intro index record hat
    have hsaved : Envelope.saved record = 0 := by
      by_cases hdata : index = 0
      · apply Envelope.saved_of_length
        rw [hat.length, hdata]
        decide
      · apply hat.saved
        intro hlast
        exact hdata (Nat.succ.inj hlast)
    have hsize := Envelope.recordScript_size Planning.Sample.crates_lawful.builder record Planning.Sample.author.key
    rw [hsaved, hat.length] at hsize
    exact hsize
  -- the data part
  obtain ⟨data, hdata⟩ : ∃ data, (MultipartRecord.data ⟨0, [1]⟩).encode = .ok data :=
    MultipartRecord.valid_iff.mp ⟨by decide, by decide⟩
  have hdataAt : Quote.IsAt ⟨1, 1, 1⟩ 0 data := isAt_data hgeometry (by decide) rfl hdata
  have hdataFee : pairFee 2 (Envelope.recordScript Planning.Sample.crates.reveal.script data
      Planning.Sample.author.key).length 1 = 343 := by
    rw [hscripts hdataAt]
    decide
  obtain ⟨part, _, second, secondSources, hsecond, hsecondReady, hsecondHeld, hsecondTotal,
      hsecondLimits, hsecondInputs⟩ :=
    prepareRecord_within Planning.Sample.crates_lawful Planning.Sample.author_lawful Planning.Sample.funder_lawful hfirst
      hscript hreturn (validateRecord_multipart hdata) hdataFee (by decide)
      (by rw [hheld, hretained]; decide) (by decide) (by rw [hheld]; decide)
  replace hsecondTotal : second.plan.totalFee = 343 := hsecondTotal
  rw [hheld, hretained] at hsecondHeld
  -- the leaf manifest, with a reference to the part
  obtain ⟨leaf, hleaf⟩ : ∃ leaf, (MultipartRecord.leaf ⟨0, [part]⟩).encode = .ok leaf :=
    MultipartRecord.valid_iff.mp
      ⟨(by decide : 0 < Geometry.fanout), (by decide : 1 ≤ 1 ∧ 1 ≤ Geometry.fanout)⟩
  have hleafAt : Quote.IsAt ⟨1, 1, 1⟩ 1 leaf :=
    @isAt_leaf ⟨1, 1, 1⟩ _ 0 (by decide) _ rfl hleaf
  have hleafFee : pairFee second.inputs.length (Envelope.recordScript
      Planning.Sample.crates.reveal.script leaf Planning.Sample.author.key).length second.limits.feeRate = 292 := by
    rw [hscripts hleafAt, hsecondInputs, hsecondLimits]
    decide
  obtain ⟨manifest, _, third, thirdSources, hthird, hthirdReady, hthirdHeld, hthirdTotal,
      hthirdLimits, hthirdInputs⟩ :=
    prepareRecord_within Planning.Sample.crates_lawful Planning.Sample.author_lawful Planning.Sample.funder_lawful hsecondReady
      hscript hreturn (validateRecord_multipart hleaf) hleafFee (by decide)
      (by rw [hsecondHeld, hretained]; decide) (by rw [hsecondTotal, hsecondLimits]; decide)
      (by rw [hsecondHeld]; decide)
  rw [hsecondTotal] at hthirdTotal
  rw [hsecondHeld, hretained] at hthirdHeld
  rw [hsecondLimits] at hthirdLimits
  -- the root manifest, which the quote does not cover
  obtain ⟨root, hroot⟩ : ∃ root, (MultipartRecord.root ⟨1, Planning.Sample.crates.sha256 [1],
      Vector.replicate 8 0, [manifest]⟩).encode = .ok root :=
    MultipartRecord.valid_iff.mp ⟨⟨1, 1, 1⟩, hgeometry, rfl⟩
  have hrootAt : Quote.IsAt ⟨1, 1, 1⟩ 2 root := @isAt_root ⟨1, 1, 1⟩ _ _ rfl hroot
  have hrootFee : pairFee third.inputs.length (Envelope.recordScript
      Planning.Sample.crates.reveal.script root Planning.Sample.author.key).length third.limits.feeRate = 304 := by
    rw [hscripts hrootAt, hthirdInputs, hthirdLimits]
    decide
  have hrefused := prepareRecord_exceeds Planning.Sample.crates_lawful Planning.Sample.author_lawful
    Planning.Sample.funder_lawful hthirdReady hscript hreturn (validateRecord_multipart hroot) hrootFee
    (by decide) (by rw [hthirdHeld, hretained]; decide) (by rw [hthirdLimits]; decide)
    (by rw [hthirdTotal]; decide) (by rw [hthirdTotal, hthirdLimits]; decide)
  refine ⟨third, root, Planning.Sample.quote_eq, hsources, by rw [hheld]; decide, ?_⟩
  have hminimum : minimum Planning.Sample.funder.chain ⟨1, 871, 3⟩ 3 = .ok 14071 := by decide
  have hfunded : funded Planning.Sample.crates Planning.Sample.author Planning.Sample.funder Planning.Sample.funder.chain ⟨1, 871, 3⟩
      [Planning.Sample.coin 10000 0, Planning.Sample.coin 10000 1] =
        .ok (Planning.Sample.planner ⟨1, 871, 3⟩ [Planning.Sample.coin 10000 0, Planning.Sample.coin 10000 1]) := rfl
  have hpart : slice ([1] : Bytes) (0 * Geometry.dataBytes) (0 * Geometry.dataBytes + 1) = [1] := by
    decide
  have hchunks : chunks Geometry.fanout [part] = [[part]] := by
    rw [chunks, List.length_singleton]
    rfl
  have hwriteData := @write_ok _ _ _ (fun _ => .ok ()) _ _ _ _ _ hsecond rfl
  have hwriteLeaf := @write_ok _ _ _ (fun _ => .ok ()) _ _ _ _ _ hthird rfl
  have hparts : writeParts Planning.Sample.crates Planning.Sample.author Planning.Sample.funder (fun _ => .ok ()) ⟨1, 1, 1⟩ [1]
      [0] (Planning.Sample.planner ⟨1, 871, 3⟩ [Planning.Sample.coin 10000 0, Planning.Sample.coin 10000 1]) =
        .ok ([part], second) := by
    have hlength : (⟨1, 1, 1⟩ : Geometry).partLength 0 = .ok 1 := by decide
    exact writeParts_cons hlength (by rw [hpart]; exact hdata) hwriteData rfl
  have hleaves : writeLeaves Planning.Sample.crates Planning.Sample.author Planning.Sample.funder (fun _ => .ok ()) 0 [[part]]
      second = .ok ([manifest], third) := by
    show (elsewhere (Planning.Sample.crates.protocol (MultipartRecord.leaf ⟨0, [part]⟩).encode) >>=
      fun record => write Planning.Sample.crates Planning.Sample.author Planning.Sample.funder (fun _ => .ok ()) record second
        >>= fun written => .ok ([written.1], written.2)) = _
    rw [hleaf, PlanCrates.protocol, elsewhere, Except.ok_bind, hwriteLeaf, Except.ok_bind]
  have hlast : writeRoot Planning.Sample.crates Planning.Sample.author Planning.Sample.funder (fun _ => .ok ()) [1]
      (Vector.replicate 8 0) [manifest] third = .error (.preparing third root
        (.message "publication exceeds approved maximum fee")) := by
    show (elsewhere (Planning.Sample.crates.protocol (MultipartRecord.root ⟨1, Planning.Sample.crates.sha256 [1],
      Vector.replicate 8 0, [manifest]⟩).encode) >>= fun record =>
        write Planning.Sample.crates Planning.Sample.author Planning.Sample.funder (fun _ => .ok ()) record third >>=
          fun written => .ok written.2) = _
    rw [hroot, PlanCrates.protocol, elsewhere, Except.ok_bind, write, hrefused]
    rfl
  show (elsewhere (Planning.Sample.crates.protocol (Geometry.new 1)) >>= fun geometry =>
    elsewhere (minimum Planning.Sample.funder.chain ⟨1, 871, 3⟩ geometry.nodes) >>= fun _ =>
    elsewhere (funded Planning.Sample.crates Planning.Sample.author Planning.Sample.funder Planning.Sample.funder.chain ⟨1, 871, 3⟩
      [Planning.Sample.coin 10000 0, Planning.Sample.coin 10000 1]) >>= fun planner =>
    writeMultipart Planning.Sample.crates Planning.Sample.author Planning.Sample.funder (fun _ => .ok ()) geometry [1]
      (Vector.replicate 8 0) planner) = _
  rw [hgeometry, PlanCrates.protocol, elsewhere, Except.ok_bind]
  show (elsewhere (minimum Planning.Sample.funder.chain ⟨1, 871, 3⟩ 3) >>= _) = _
  rw [hminimum, elsewhere, Except.ok_bind, hfunded, elsewhere, Except.ok_bind]
  show (writeParts Planning.Sample.crates Planning.Sample.author Planning.Sample.funder (fun _ => .ok ()) ⟨1, 1, 1⟩ [1] [0] _
    >>= fun parts => writeLeaves Planning.Sample.crates Planning.Sample.author Planning.Sample.funder (fun _ => .ok ()) 0
      (chunks Geometry.fanout parts.1) parts.2 >>= fun leaves =>
        writeRoot Planning.Sample.crates Planning.Sample.author Planning.Sample.funder (fun _ => .ok ()) [1]
          (Vector.replicate 8 0) leaves.1 leaves.2) = _
  rw [hparts, Except.ok_bind, hchunks, hleaves, Except.ok_bind, hlast]

end Planner

end Urma.Runtime
