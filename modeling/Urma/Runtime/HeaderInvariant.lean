import Urma.Runtime.Headers

/-!
# The header chain keeps its books

Whatever batches arrive, the stored headers follow the rules one after another, the index is
exactly that of the stored headers, and the work of the chain only grows. A batch that is refused
leaves everything as it was, also when the refusal comes in the middle of an append.

The hashes are those of the headers in play in a run. They are assumed to be distinct, and no
header is assumed to commit to itself through others, so a header that follows the tip is new.
-/

namespace Urma.Runtime

open Chain Lib

/-- What is assumed of the headers in play: no two have one hash, those that follow others can be
ranked after them, and proof of work is not done at a rate no hardware reaches. -/
structure Plausible (crate : PowCrate) (chain : Chain) (inPlay : List Header) : Prop where
  injective : ∀ header ∈ inPlay, ∀ other ∈ inPlay,
    crate.blockHash header = crate.blockHash other → header = other
  ranked : ∃ rank : Header → ℕ, ∀ header ∈ inPlay, ∀ next ∈ inPlay,
    next.prevBlockhash = crate.blockHash header → rank header < rank next
  work_lt : ∀ header ∈ inPlay, checkHeaderPow crate header chain = .ok () →
    crate.work header < 2 ^ 236

theorem Plausible.mono {crate : PowCrate} {chain : Chain} {inPlay fewer : List Header}
    (h : Plausible crate chain inPlay) (hfewer : ∀ header ∈ fewer, header ∈ inPlay) :
    Plausible crate chain fewer where
  injective header hheader other hother :=
    h.injective header (hfewer header hheader) other (hfewer other hother)
  ranked := by
    obtain ⟨rank, hrank⟩ := h.ranked
    exact ⟨rank, fun header hheader next hnext =>
      hrank header (hfewer header hheader) next (hfewer next hnext)⟩
  work_lt header hheader := h.work_lt header (hfewer header hheader)

variable {crate : PowCrate} {chain : HeaderChain} {window headers : List Header} {header : Header}

/-! ## The rules for one header -/

/-- What `validate_context` asks of the header after a window: the link, the difficulty (or the
pinned hash right after a checkpoint) and a time after the median of the preceding headers. -/
def HeaderChain.Valid (crate : PowCrate) (chain : HeaderChain) (window : List Header)
    (header : Header) : Prop :=
  ∃ last firstHeight context, window.getLast? = some last ∧
    header.prevBlockhash = crate.blockHash last ∧
    chain.precedingContext window = .ok (firstHeight, context) ∧
    (if window.length = 1 ∧ chain.trustedNext.isSome then
      some (crate.blockHash header) = chain.trustedNext
    else expectedBits crate chain.chain context firstHeight header.time = .ok header.bits) ∧
    medianTime context < header.time.toNat

theorem checkBits_eq_ok {firstHeight : ℕ} {context : List Header} {u : Unit} :
    chain.checkBits crate window firstHeight context header = .ok u ↔
      if window.length = 1 ∧ chain.trustedNext.isSome then
        some (crate.blockHash header) = chain.trustedNext
      else expectedBits crate chain.chain context firstHeight header.time = .ok header.bits := by
  rw [HeaderChain.checkBits]
  split
  · rw [ensureHeader_eq_ok, beq_iff_eq]
  · cases expectedBits crate chain.chain context firstHeight header.time with
    | error cause => simp
    | ok required =>
        show ensureHeader _ _ = .ok u ↔ _
        rw [ensureHeader_eq_ok, beq_iff_eq, Except.ok.injEq, eq_comm]

theorem validateContext_eq_ok {u : Unit} :
    chain.validateContext crate window header = .ok u ↔ chain.Valid crate window header := by
  simp only [HeaderChain.validateContext, HeaderChain.validateAgainst, HeaderChain.Valid,
    Except.bind_eq_ok, contextHeader_eq_ok, ensureHeader_eq_ok, checkBits_eq_ok, beq_iff_eq,
    decide_eq_true_eq]
  constructor
  · rintro ⟨last, hlast, _, hlink, ⟨firstHeight, context⟩, hcontext, _, hbits, htime⟩
    exact ⟨last, firstHeight, context, hlast, hlink, hcontext, hbits, htime⟩
  · rintro ⟨last, firstHeight, context, hlast, hlink, hcontext, hbits, htime⟩
    exact ⟨last, hlast, (), hlink, ⟨firstHeight, context⟩, hcontext, (), hbits, htime⟩

theorem valid_of_validateNext {now : ℕ} {u : Unit}
    (h : chain.validateNext crate window header now = .ok u) : chain.Valid crate window header := by
  rw [HeaderChain.validateNext, Except.bind_eq_ok] at h
  obtain ⟨_, hcontext, _⟩ := h
  exact validateContext_eq_ok.mp hcontext

/-- Every header but the first follows the rules after those before it. -/
def HeaderChain.AllValid (crate : PowCrate) (chain : HeaderChain) (headers : List Header) : Prop :=
  ∀ offset header, headers[offset + 1]? = some header →
    chain.Valid crate (headers.take (offset + 1)) header

theorem HeaderChain.AllValid.take (h : chain.AllValid crate headers) (count : ℕ) :
    chain.AllValid crate (headers.take count) := by
  intro offset header hheader
  have hlt := (List.getElem?_eq_some_iff.mp hheader).1
  rw [List.length_take] at hlt
  rw [List.getElem?_take, if_pos (by omega)] at hheader
  rw [List.take_take, Nat.min_eq_left (by omega)]
  exact h offset header hheader

theorem HeaderChain.AllValid.push (h : chain.AllValid crate headers) (hvalid : chain.Valid crate headers header) :
    chain.AllValid crate (headers ++ [header]) := by
  intro offset next hnext
  rcases Nat.lt_or_ge (offset + 1) headers.length with hlt | hge
  · rw [List.getElem?_append_left hlt] at hnext
    rw [List.take_append_of_le_length (Nat.le_of_lt hlt)]
    exact h offset next hnext
  · have hlength := (List.getElem?_eq_some_iff.mp hnext).1
    rw [List.length_append, List.length_singleton] at hlength
    have hoffset : offset + 1 = headers.length := by omega
    rw [hoffset, List.getElem?_concat_length] at hnext
    rw [hoffset, List.take_left', ← Option.some.inj hnext]
    · exact hvalid
    · rfl

/-! ## Hashes are new -/

/-- Headers that follow the rules are linked. -/
theorem HeaderChain.AllValid.isChain (h : chain.AllValid crate headers) :
    headers.IsChain fun previous next => next.prevBlockhash = crate.blockHash previous := by
  rw [List.isChain_iff_getElem]
  intro offset hoffset
  obtain ⟨last, _, _, hlast, hlink, _⟩ := h offset _ (List.getElem?_eq_getElem hoffset)
  rw [List.getLast?_take, if_neg (by omega), Nat.add_sub_cancel,
    List.getElem?_eq_getElem (by omega), Option.some_or, Option.some.injEq] at hlast
  rw [hlink, hlast]

/-- Linked headers in play have hashes of their own. -/
theorem nodup_of_isChain {inPlay : List Header} (hfair : Plausible crate chain.chain inPlay)
    (hchain : headers.IsChain fun previous next => next.prevBlockhash = crate.blockHash previous)
    (hinPlay : ∀ header ∈ headers, header ∈ inPlay) : (headers.map crate.blockHash).Nodup := by
  obtain ⟨rank, hrank⟩ := hfair.ranked
  have hranks : headers.IsChain fun previous next => rank previous < rank next := by
    rw [List.isChain_iff_getElem] at hchain ⊢
    intro offset hoffset
    exact hrank _ (hinPlay _ (List.getElem_mem _)) _ (hinPlay _ (List.getElem_mem _))
      (hchain offset hoffset)
  have : Trans (fun a b : Header => rank a < rank b) (fun a b => rank a < rank b)
      (fun a b => rank a < rank b) := ⟨Nat.lt_trans⟩
  rw [List.nodup_iff_pairwise_ne, List.pairwise_map]
  apply hranks.pairwise.imp_of_mem
  intro previous next hprevious hnext hlt heq
  rw [hfair.injective previous (hinPlay previous hprevious) next (hinPlay next hnext) heq]
    at hlt
  exact Nat.lt_irrefl _ hlt

/-! ## The invariant -/

/-- The headers follow the rules, each with its work done, and the index is that of the headers. -/
structure HeaderChain.Sound (crate : PowCrate) (chain : HeaderChain) : Prop where
  nonempty : chain.headers ≠ []
  index : OffsetIndex.Exact crate.blockHash chain.index chain.headers
  valid : chain.AllValid crate chain.headers
  pow : ∀ header ∈ chain.headers, checkHeaderPow crate header chain.chain = .ok ()

/-- What the rules refer to besides the headers is the same. -/
structure HeaderChain.SameAnchor (chain next : HeaderChain) : Prop where
  chain_eq : next.chain = chain.chain
  startHeight_eq : next.startHeight = chain.startHeight
  trustedNext_eq : next.trustedNext = chain.trustedNext
  ancestors_eq : next.ancestors = chain.ancestors

theorem HeaderChain.SameAnchor.refl (chain : HeaderChain) : chain.SameAnchor chain :=
  ⟨rfl, rfl, rfl, rfl⟩

theorem HeaderChain.SameAnchor.trans {next last : HeaderChain} (h : chain.SameAnchor next)
    (h' : next.SameAnchor last) : chain.SameAnchor last :=
  ⟨h'.chain_eq.trans h.chain_eq, h'.startHeight_eq.trans h.startHeight_eq,
    h'.trustedNext_eq.trans h.trustedNext_eq, h'.ancestors_eq.trans h.ancestors_eq⟩

theorem HeaderChain.SameAnchor.allValid {next : HeaderChain} (h : chain.SameAnchor next) :
    next.AllValid crate headers ↔ chain.AllValid crate headers := by
  obtain ⟨hchain, hheight, htrusted, hancestors⟩ := h
  cases chain
  cases next
  cases hchain
  cases hheight
  cases htrusted
  cases hancestors
  exact Iff.rfl

/-- Two chains with the same anchor and headers and exact indices are the same. -/
theorem HeaderChain.SameAnchor.eq {next : HeaderChain} (h : chain.SameAnchor next)
    (hheaders : next.headers = chain.headers)
    (hindex : OffsetIndex.Exact crate.blockHash chain.index chain.headers)
    (hnext : OffsetIndex.Exact crate.blockHash next.index next.headers) : next = chain := by
  rw [hheaders] at hnext
  have hsame := hnext.unique hindex
  obtain ⟨hchain, hheight, htrusted, hancestors⟩ := h
  cases chain
  cases next
  cases hchain
  cases hheight
  cases htrusted
  cases hancestors
  cases hheaders
  cases hsame
  rfl

/-- The header after the tip is not in the chain yet. -/
theorem HeaderChain.Sound.push {inPlay : List Header} (hsound : chain.Sound crate)
    (hfair : Plausible crate chain.chain inPlay)
    (hinPlay : ∀ other ∈ chain.headers ++ [header], other ∈ inPlay)
    (hvalid : chain.Valid crate chain.headers header)
    (hpow : checkHeaderPow crate header chain.chain = .ok ()) :
    (chain.push crate header).Sound crate := by
  have hall : chain.AllValid crate (chain.headers ++ [header]) := hsound.valid.push hvalid
  have hnodup := nodup_of_isChain hfair hall.isChain hinPlay
  rw [List.map_append] at hnodup
  constructor
  · exact List.append_ne_nil_of_right_ne_nil _ (List.cons_ne_nil _ _)
  · apply hsound.index.push
    intro other hother
    exact (List.nodup_append.mp hnodup).2.2 _ (List.mem_map_of_mem hother) _
      (List.mem_map_of_mem (List.mem_singleton.mpr rfl))
  · exact hall
  · intro other hother
    rcases List.mem_append.mp hother with hold | hnew
    · exact hsound.pow other hold
    · rw [List.mem_singleton.mp hnew]
      exact hpow

theorem push_sameAnchor : chain.SameAnchor (chain.push crate header) :=
  ⟨rfl, rfl, rfl, rfl⟩

theorem push_headers : (chain.push crate header).headers = chain.headers ++ [header] := rfl

/-- Cutting the headers off and out of the index keeps the two in step. -/
theorem HeaderChain.Sound.exact_take {inPlay : List Header} (hsound : chain.Sound crate)
    (hfair : Plausible crate chain.chain inPlay)
    (hinPlay : ∀ other ∈ chain.headers, other ∈ inPlay) (count : ℕ) :
    OffsetIndex.Exact crate.blockHash
      (OffsetIndex.removeAll crate.blockHash chain.index (chain.headers.drop count))
      (chain.headers.take count) := by
  have hnodup := nodup_of_isChain hfair hsound.valid.isChain hinPlay
  have hsplit := List.take_append_drop count chain.headers
  have hindex := hsound.index
  rw [← hsplit] at hindex
  rw [← hsplit, List.map_append] at hnodup
  apply hindex.truncate
  intro kept hkept dropped hdropped
  exact (List.nodup_append.mp hnodup).2.2 _ (List.mem_map_of_mem hkept) _
    (List.mem_map_of_mem hdropped)

/-! ## Appending -/

/-- **An append adds all of the batch or nothing**: a header that fails takes the ones before it
back out, from the headers and from the index. -/
theorem appendFrom_cases {original now : ℕ} {inPlay fresh : List Header}
    (hsound : chain.Sound crate) (hfair : Plausible crate chain.chain inPlay)
    (hinPlay : ∀ other ∈ chain.headers ++ fresh, other ∈ inPlay)
    (hpow : ∀ other ∈ fresh, checkHeaderPow crate other chain.chain = .ok ())
    (horiginal : original ≤ chain.headers.length) :
    (∃ next, chain.appendFrom crate original now fresh = (next, .ok ()) ∧
      next.Sound crate ∧ chain.SameAnchor next ∧ next.headers = chain.headers ++ fresh) ∨
    (∃ next error, chain.appendFrom crate original now fresh = (next, .error error) ∧
      chain.SameAnchor next ∧ next.headers = chain.headers.take original ∧
      OffsetIndex.Exact crate.blockHash next.index next.headers) := by
  induction fresh generalizing chain with
  | nil => exact Or.inl ⟨chain, rfl, hsound, .refl chain, (List.append_nil _).symm⟩
  | cons header fresh ih =>
      have hsplit : chain.headers ++ header :: fresh = (chain.headers ++ [header]) ++ fresh := by
        rw [List.append_assoc, List.singleton_append]
      rw [hsplit] at hinPlay
      rw [HeaderChain.appendFrom]
      cases hnext : chain.validateNext crate chain.headers header now with
      | ok u =>
          have hpushed := hsound.push hfair
            (fun other hother => hinPlay other (List.mem_append_left _ hother))
            (valid_of_validateNext hnext) (hpow header List.mem_cons_self)
          have hlength : original ≤ (chain.push crate header).headers.length := by
            rw [push_headers, List.length_append]
            omega
          rcases @ih (chain.push crate header) hpushed hfair hinPlay
            (fun other hother => hpow other (List.mem_cons_of_mem _ hother)) hlength with
            ⟨next, happend, hnextSound, hsame, hheaders⟩ |
            ⟨next, error, happend, hsame, hheaders, hindex⟩
          · refine Or.inl ⟨next, happend, hnextSound, push_sameAnchor.trans hsame, ?_⟩
            rw [hheaders, push_headers, hsplit]
          · refine Or.inr ⟨next, error, happend, push_sameAnchor.trans hsame, ?_, hindex⟩
            rw [hheaders, push_headers, List.take_append_of_le_length horiginal]
      | error error =>
          exact Or.inr ⟨_, error, rfl, ⟨rfl, rfl, rfl, rfl⟩, rfl,
            hsound.exact_take hfair (fun other hother =>
              hinPlay other (List.mem_append_left _ (List.mem_append_left _ hother))) original⟩

/-! ## Work -/

/-- The work of the headers of a chain. -/
def totalWork (crate : PowCrate) (headers : List Header) : ℕ :=
  (headers.map crate.work).sum

theorem totalWork_append (headers other : List Header) :
    totalWork crate (headers ++ other) = totalWork crate headers + totalWork crate other := by
  rw [totalWork, List.map_append, List.sum_append]
  rfl

theorem totalWork_pos (hlawful : crate.Lawful) (h : headers ≠ []) : 0 < totalWork crate headers := by
  obtain ⟨header, rest, rfl⟩ := List.exists_cons_of_ne_nil h
  rw [totalWork, List.map_cons, List.sum_cons]
  have hwork := hlawful.work_pos header
  omega

theorem totalWork_le {bound : ℕ} (h : ∀ header ∈ headers, crate.work header < bound) :
    totalWork crate headers ≤ headers.length * bound := by
  induction headers with
  | nil => exact Nat.zero_le _
  | cons header headers ih =>
      have hrest := ih fun other hother => h other (List.mem_cons_of_mem _ hother)
      have hfirst := h header List.mem_cons_self
      rw [totalWork, List.map_cons, List.sum_cons, List.length_cons, Nat.succ_mul]
      rw [totalWork] at hrest
      omega

/-- The work of as many headers as a chain may have fits 256 bits. -/
theorem totalWork_lt (h : ∀ header ∈ headers, crate.work header < 2 ^ 236)
    (hlength : headers.length ≤ headerCacheMax) : totalWork crate headers < 2 ^ 256 :=
  calc totalWork crate headers
      ≤ headers.length * 2 ^ 236 := totalWork_le h
    _ ≤ headerCacheMax * 2 ^ 236 := Nat.mul_le_mul_right _ hlength
    _ < 2 ^ 256 := by decide

theorem foldl_addWork (hlawful : crate.Lawful) {total : ℕ}
    (h : total + totalWork crate headers < 2 ^ 256) :
    headers.foldl (fun total header => crate.addWork total (crate.work header)) total =
      total + totalWork crate headers := by
  induction headers generalizing total with
  | nil => rfl
  | cons header headers ih =>
      rw [totalWork, List.map_cons, List.sum_cons, ← totalWork] at h ⊢
      have hadd := hlawful.addWork total (crate.work header) (by omega)
      rw [List.foldl_cons, hadd, ih (by omega), Nat.add_assoc]

theorem workOf_eq_ok (hlawful : crate.Lawful) (hne : headers ≠ [])
    (h : totalWork crate headers < 2 ^ 256) :
    workOf crate headers = .ok (totalWork crate headers) := by
  obtain ⟨first, rest, rfl⟩ := List.exists_cons_of_ne_nil hne
  have hfold := @foldl_addWork crate rest hlawful (crate.work first) h
  rw [workOf, chainWork, hfold]
  rfl

/-! ## One call -/

/-- A chain whose end was replaced, or only added to, by headers of a batch, for more work. -/
structure HeaderChain.Grown (crate : PowCrate) (chain next : HeaderChain) (batch : List Header) :
    Prop where
  sound : next.Sound crate
  sameAnchor : chain.SameAnchor next
  kept : ∃ count fresh, next.headers = chain.headers.take (count + 1) ++ fresh ∧
    ∀ header ∈ fresh, header ∈ batch
  capacity : next.headers.length ≤ headerCacheMax
  work : totalWork crate chain.headers < totalWork crate next.headers

theorem proveFrom_eq_ok {network : Chain} {offset : ℕ} {u : Unit} :
    proveFrom crate network offset headers = .ok u ↔
      ∀ header ∈ headers, checkHeaderPow crate header network = .ok () := by
  induction headers generalizing offset with
  | nil => simp [proveFrom]
  | cons header headers ih =>
      rw [proveFrom]
      cases hpow : checkHeaderPow crate header network with
      | error cause => simp [hpow]
      | ok u => simp [hpow, ih]

theorem branch_valid {now : ℕ} {candidate fresh result : List Header}
    (hvalid : chain.AllValid crate candidate)
    (h : chain.branch crate now candidate fresh = .ok result) :
    result = candidate ++ fresh ∧ chain.AllValid crate result := by
  induction fresh generalizing candidate with
  | nil =>
      rw [HeaderChain.branch] at h
      cases h
      exact ⟨(List.append_nil _).symm, hvalid⟩
  | cons header fresh ih =>
      rw [HeaderChain.branch, Except.bind_eq_ok] at h
      obtain ⟨_, hnext, hrest⟩ := h
      obtain ⟨hresult, hall⟩ := ih (hvalid.push (valid_of_validateNext hnext)) hrest
      rw [List.append_assoc, List.singleton_append] at hresult
      exact ⟨hresult, hall⟩

section
variable {inPlay batch fresh : List Header} {now base : ℕ}
  (hlawful : crate.Lawful) (hsound : chain.Sound crate)
  (hfair : Plausible crate chain.chain inPlay)
  (hinPlay : ∀ other ∈ chain.headers ++ batch, other ∈ inPlay)
  (hbatch : ∀ other ∈ fresh, other ∈ batch)
  (hpow : ∀ other ∈ fresh, checkHeaderPow crate other chain.chain = .ok ())
  (hfresh : fresh ≠ [])
  (hcapacity : chain.headers.length + fresh.length ≤ headerCacheMax)
include hlawful hsound hfair hinPlay hbatch hpow hfresh hcapacity

/-- An append that succeeds is more of the chain; one that fails changes nothing. -/
theorem append_cases :
    (∃ next, chain.appendFrom crate chain.headers.length now fresh = (next, .ok ()) ∧
      chain.Grown crate next batch) ∨
    ∃ error, chain.appendFrom crate chain.headers.length now fresh = (chain, .error error) := by
  have hmine : ∀ other ∈ chain.headers ++ fresh, other ∈ inPlay := by
    intro other hother
    apply hinPlay
    rw [List.mem_append] at hother ⊢
    exact hother.imp id (hbatch other)
  rcases appendFrom_cases hsound hfair hmine hpow le_rfl with
    ⟨next, happend, hnext, hsame, hheaders⟩ | ⟨next, error, happend, hsame, hheaders, hindex⟩
  · refine Or.inl ⟨next, happend, hnext, hsame, ?_, ?_, ?_⟩
    · refine ⟨chain.headers.length, fresh, ?_, hbatch⟩
      rw [hheaders, List.take_of_length_le (Nat.le_succ _)]
    · rw [hheaders, List.length_append]
      exact hcapacity
    · have hmore := @totalWork_pos crate fresh hlawful hfresh
      rw [hheaders, totalWork_append]
      omega
  · rw [List.take_length] at hheaders
    rw [hsame.eq hheaders hsound.index hindex] at happend
    exact Or.inr ⟨error, happend⟩

/-- **A reorganization replaces the end of the chain by more work**, or nothing changes. -/
theorem reorganize_cases {next : HeaderChain} (hbase : base + 1 < chain.headers.length)
    (h : chain.reorganize crate base fresh now = .ok (some next)) :
    chain.Grown crate next batch := by
  rw [HeaderChain.reorganize] at h
  simp only [Except.bind_eq_ok] at h
  obtain ⟨candidate, hbranch, challenger, hchallenger, incumbent, hincumbent, h⟩ := h
  obtain ⟨hcandidate, hall⟩ := branch_valid (hsound.valid.take (base + 1)) hbranch
  have hlength : (chain.headers.take (base + 1)).length = base + 1 := by
    rw [List.length_take]
    omega
  have hkept : ∀ other ∈ chain.headers.take (base + 1), other ∈ chain.headers :=
    fun other hother => List.mem_of_mem_take hother
  have hmine : ∀ other ∈ candidate, other ∈ inPlay := by
    intro other hother
    rw [hcandidate] at hother
    apply hinPlay
    rw [List.mem_append] at hother ⊢
    exact hother.imp (hkept other) (hbatch other)
  have hallPow : ∀ other ∈ candidate, checkHeaderPow crate other chain.chain = .ok () := by
    intro other hother
    rw [hcandidate, List.mem_append] at hother
    exact hother.elim (fun hold => hsound.pow other (hkept other hold)) (hpow other)
  -- the two sums do not overflow
  have hfreshWork : totalWork crate fresh < 2 ^ 256 := by
    apply totalWork_lt
    · intro other hother
      exact hfair.work_lt other (hinPlay other (List.mem_append_right _ (hbatch other hother)))
        (hpow other hother)
    · omega
  have hdropWork : totalWork crate (chain.headers.drop (base + 1)) < 2 ^ 256 := by
    apply totalWork_lt
    · intro other hother
      have hmem := List.mem_of_mem_drop hother
      exact hfair.work_lt other (hinPlay other (List.mem_append_left _ hmem))
        (hsound.pow other hmem)
    · rw [List.length_drop]
      omega
  have hdropNe : chain.headers.drop (base + 1) ≠ [] := by
    rw [← List.length_pos_iff, List.length_drop]
    omega
  rw [hcandidate, List.drop_left' hlength, workOf_eq_ok hlawful hfresh hfreshWork] at hchallenger
  rw [workOf_eq_ok hlawful hdropNe hdropWork] at hincumbent
  cases hchallenger
  cases hincumbent
  split at h
  · cases h
  · next hmore =>
      cases h
      refine ⟨⟨?_, ?_, hall, hallPow⟩, ⟨rfl, rfl, rfl, rfl⟩, ⟨base, fresh, hcandidate, hbatch⟩, ?_, ?_⟩
      · show candidate ≠ []
        rw [hcandidate]
        exact List.append_ne_nil_of_right_ne_nil _ hfresh
      · have hkeptIndex := hsound.exact_take hfair
          (fun other hother => hinPlay other (List.mem_append_left _ hother)) (base + 1)
        have hnodup := nodup_of_isChain hfair hall.isChain hmine
        rw [hcandidate] at hnodup
        have hexact := hkeptIndex.insertAll hnodup
        rw [hlength, ← hcandidate] at hexact
        exact hexact
      · show candidate.length ≤ headerCacheMax
        rw [hcandidate, List.length_append, hlength]
        omega
      · show _ < totalWork crate candidate
        have hold := @totalWork_append crate (chain.headers.take (base + 1))
          (chain.headers.drop (base + 1))
        rw [List.take_append_drop] at hold
        rw [hcandidate, totalWork_append, hold]
        omega

end

/-- **What a call can do**: keep everything and answer `Ignored` or with an error, or grow the
chain and say so. -/
theorem extend_cases (hlawful : crate.Lawful) {inPlay batch : List Header} {now : ℕ}
    (hsound : chain.Sound crate) (hfair : Plausible crate chain.chain inPlay)
    (hinPlay : ∀ other ∈ chain.headers ++ batch, other ∈ inPlay) :
    (∃ result, chain.extend crate batch now = (chain, result) ∧
      (result = .ok .ignored ∨ ∃ error, result = .error error)) ∨
    (∃ next extension, chain.extend crate batch now = (next, .ok extension) ∧
      extension ≠ .ignored ∧ chain.Grown crate next batch) := by
  rw [HeaderChain.extend]
  split
  · exact Or.inl ⟨_, rfl, Or.inl rfl⟩
  · next first _ =>
      split
      · exact Or.inl ⟨_, rfl, Or.inr ⟨_, rfl⟩⟩
      · next fork hfork =>
          have hforkLt := hsound.index.lt_of_eq_some hfork
          generalize hknown : knownCount crate batch (chain.headers.drop (fork + 1)) = known
          have hknownLe : known ≤ chain.headers.length - (fork + 1) := by
            rw [← hknown, knownCount, ← List.length_drop]
            calc (List.takeWhile _ (batch.zip (chain.headers.drop (fork + 1)))).length
                ≤ (batch.zip (chain.headers.drop (fork + 1))).length :=
                  (List.takeWhile_prefix _).length_le
              _ ≤ (chain.headers.drop (fork + 1)).length := by
                  rw [List.length_zip]
                  exact Nat.min_le_right _ _
          dsimp only
          split
          · exact Or.inl ⟨_, rfl, Or.inl rfl⟩
          · next hempty =>
              have hfresh : batch.drop known ≠ [] := by
                intro hnil
                exact hempty (List.isEmpty_iff.mpr hnil)
              split
              · exact Or.inl ⟨_, rfl, Or.inr ⟨_, rfl⟩⟩
              · next hcapacity =>
                  split
                  · exact Or.inl ⟨_, rfl, Or.inr ⟨_, rfl⟩⟩
                  · next hproved =>
                      have hpow := proveFrom_eq_ok.mp hproved
                      have hbatch : ∀ other ∈ batch.drop known, other ∈ batch :=
                        fun other hother => List.mem_of_mem_drop hother
                      split
                      · rcases @append_cases crate chain inPlay batch _ now hlawful hsound hfair
                          hinPlay hbatch hpow hfresh (Nat.le_of_not_lt hcapacity) with
                          ⟨next, happend, hgrown⟩ | ⟨error, happend⟩
                        · rw [happend]
                          exact Or.inr ⟨next, _, rfl, nofun, hgrown⟩
                        · rw [happend]
                          exact Or.inl ⟨_, rfl, Or.inr ⟨error, rfl⟩⟩
                      · next hbelow =>
                          split
                          · exact Or.inl ⟨_, rfl, Or.inr ⟨_, rfl⟩⟩
                          · exact Or.inl ⟨_, rfl, Or.inl rfl⟩
                          · next next hreorganized =>
                              exact Or.inr ⟨next, _, rfl, nofun, reorganize_cases hlawful hsound
                                hfair hinPlay hbatch hpow hfresh
                                (Nat.le_of_not_lt hcapacity) (by omega) hreorganized⟩

/-! ## Heights -/

theorem headerAt_eq_ok {height : ℕ} :
    chain.headerAt height = .ok header ↔
      chain.startHeight ≤ height ∧ chain.headers[height - chain.startHeight]? = some header := by
  rw [HeaderChain.headerAt, checkedSub]
  by_cases hle : chain.startHeight ≤ height
  · simp [hle, contextHeader]
    cases chain.headers[height - chain.startHeight]? <;> simp
  · simp [hle, contextHeader]

theorem hashAt_eq_ok {height : ℕ} {hash : Bytes32} :
    chain.hashAt crate height = .ok hash ↔
      ∃ header, chain.headerAt height = .ok header ∧ crate.blockHash header = hash := by
  rw [HeaderChain.hashAt, Except.bind_eq_ok]
  simp only [Except.ok.injEq]

/-- The height of the hash at a height is that height. -/
theorem HeaderChain.Sound.heightOf_of_hashAt (hsound : chain.Sound crate) {hash : Bytes32}
    {height : ℕ} (h : chain.hashAt crate height = .ok hash) :
    chain.heightOf hash = some height := by
  obtain ⟨header, hheader, hhash⟩ := hashAt_eq_ok.mp h
  obtain ⟨hle, hget⟩ := headerAt_eq_ok.mp hheader
  rw [HeaderChain.heightOf, (hsound.index hash _).mpr ⟨header, hget, hhash⟩, Option.map_some]
  congr 1
  omega

/-- No two heights have one hash. -/
theorem HeaderChain.Sound.hashAt_inj (hsound : chain.Sound crate) {hash : Bytes32}
    {height other : ℕ} (h : chain.hashAt crate height = .ok hash)
    (hother : chain.hashAt crate other = .ok hash) : height = other := by
  have hheight := hsound.heightOf_of_hashAt h
  rw [hsound.heightOf_of_hashAt hother] at hheight
  exact (Option.some.inj hheight).symm

theorem appendFrom_ok {original now : ℕ} {fresh : List Header} {next : HeaderChain}
    (h : chain.appendFrom crate original now fresh = (next, .ok ())) :
    chain.SameAnchor next ∧ next.headers = chain.headers ++ fresh := by
  induction fresh generalizing chain with
  | nil =>
      cases h
      exact ⟨.refl _, (List.append_nil _).symm⟩
  | cons header fresh ih =>
      rw [HeaderChain.appendFrom] at h
      cases hnext : chain.validateNext crate chain.headers header now with
      | ok u =>
          rw [hnext] at h
          obtain ⟨hsame, hheaders⟩ := ih h
          refine ⟨push_sameAnchor.trans hsame, ?_⟩
          rw [hheaders, push_headers, List.append_assoc, List.singleton_append]
      | error error =>
          rw [hnext] at h
          cases h

theorem branch_eq {now : ℕ} {candidate fresh result : List Header}
    (h : chain.branch crate now candidate fresh = .ok result) : result = candidate ++ fresh := by
  induction fresh generalizing candidate with
  | nil =>
      cases h
      exact (List.append_nil _).symm
  | cons header fresh ih =>
      rw [HeaderChain.branch, Except.bind_eq_ok] at h
      obtain ⟨_, _, hrest⟩ := h
      rw [ih hrest, List.append_assoc, List.singleton_append]

theorem reorganize_ok {base now : ℕ} {fresh : List Header} {next : HeaderChain}
    (h : chain.reorganize crate base fresh now = .ok (some next)) :
    next.startHeight = chain.startHeight ∧
      next.headers = chain.headers.take (base + 1) ++ fresh := by
  rw [HeaderChain.reorganize] at h
  simp only [Except.bind_eq_ok] at h
  obtain ⟨candidate, hbranch, _, _, _, _, h⟩ := h
  split at h
  · cases h
  · cases h
    exact ⟨rfl, branch_eq hbranch⟩

/-- **What an extension leaves in place**: everything, or after a reorganization everything up to
the height it reports. -/
theorem headerAt_of_extend {batch : List Header} {now height : ℕ} {next : HeaderChain}
    {extension : Extension} (h : chain.extend crate batch now = (next, .ok extension))
    (hheader : chain.headerAt height = .ok header)
    (hfork : ∀ forkHeight appended, extension = .reorganized forkHeight appended →
      height ≤ forkHeight) : next.headerAt height = .ok header := by
  obtain ⟨hle, hget⟩ := headerAt_eq_ok.mp hheader
  have hlt := (List.getElem?_eq_some_iff.mp hget).1
  rw [HeaderChain.extend] at h
  split at h
  · cases h
    exact hheader
  · split at h
    · cases h
    · dsimp only at h
      split at h
      · cases h
        exact hheader
      · split at h
        · cases h
        · split at h
          · cases h
          · split at h
            · split at h
              · next happend =>
                  cases h
                  obtain ⟨hsame, hheaders⟩ := appendFrom_ok happend
                  rw [headerAt_eq_ok, hheaders, hsame.startHeight_eq,
                    List.getElem?_append_left hlt]
                  exact ⟨hle, hget⟩
              · cases h
            · split at h
              · cases h
              · cases h
                exact hheader
              · next hreorganized =>
                  cases h
                  have hbelow := hfork _ _ rfl
                  obtain ⟨hstart, hheaders⟩ := reorganize_ok hreorganized
                  rw [headerAt_eq_ok, hheaders, hstart, List.getElem?_append_left,
                    List.getElem?_take, if_pos (by omega)]
                  · exact ⟨hle, hget⟩
                  · rw [List.length_take]
                    omega

/-! ## Runs -/

/-- A chain as it is opened: at a checkpoint, or at the anchor of a bootstrap. -/
inductive HeaderChain.Opened (crate : PowCrate) (genesis : Chain → Bytes32) : HeaderChain → Prop
  | anchored {network : Chain} {height : ℕ} {anchor : Header} {trustedNext : Bytes32}
      {opened : HeaderChain} :
      HeaderChain.anchored crate network height anchor trustedNext = .ok opened →
        Opened crate genesis opened
  | bootstrap {network : Chain} {height : ℕ} {anchor : Header} {ancestors : List Header}
      {bootstrap : HeaderBootstrap} :
      HeaderBootstrap.new crate genesis network height anchor ancestors = .ok bootstrap →
        Opened crate genesis (HeaderChain.openBootstrap crate bootstrap)

/-- The chain after calls of `extend`, each with its batch and its clock. -/
def HeaderChain.run (crate : PowCrate) (chain : HeaderChain) (calls : List (List Header × ℕ)) :
    HeaderChain :=
  calls.foldl (fun chain call => (chain.extend crate call.1 call.2).1) chain

/-- The headers of the batches of the calls. -/
def offered (calls : List (List Header × ℕ)) : List Header :=
  calls.flatMap Prod.fst

theorem ofAnchor_sound {network : Chain} {height : ℕ} {anchor : Header}
    {trustedNext : Option Bytes32} {ancestors : Option (List Header)}
    (hpow : checkHeaderPow crate anchor network = .ok ()) :
    (HeaderChain.ofAnchor crate network height anchor trustedNext ancestors).Sound crate where
  nonempty := List.cons_ne_nil _ _
  index := OffsetIndex.exact_singleton anchor
  valid offset header hheader := by
    rw [HeaderChain.ofAnchor, List.getElem?_cons_succ, List.getElem?_nil] at hheader
    cases hheader
  pow header hheader := by
    rw [List.mem_singleton.mp hheader]
    exact hpow

theorem HeaderChain.Opened.sound {genesis : Chain → Bytes32} (h : chain.Opened crate genesis) :
    chain.Sound crate ∧ chain.headers.length = 1 := by
  cases h with
  | @anchored network height anchor trustedNext _ h =>
      rw [HeaderChain.anchored] at h
      split at h
      · cases h
      · next hpow =>
          cases h
          exact ⟨ofAnchor_sound hpow, rfl⟩
  | @bootstrap network height anchor ancestors bootstrap h =>
      simp only [HeaderBootstrap.new, Except.bind_eq_ok] at h
      obtain ⟨_, _, _, _, _, _, _, _, _, hproved, h⟩ := h
      cases h
      exact ⟨ofAnchor_sound (proveFrom_eq_ok.mp hproved anchor List.mem_cons_self), rfl⟩

/-- What a run keeps: the invariant, the anchor and the capacity; what is stored was offered. -/
structure HeaderChain.Reached (crate : PowCrate) (opened chain : HeaderChain)
    (inPlay : List Header) : Prop where
  sound : chain.Sound crate
  sameAnchor : opened.SameAnchor chain
  anchor : chain.headers.head? = opened.headers.head?
  capacity : chain.headers.length ≤ headerCacheMax
  stored : ∀ header ∈ chain.headers, header ∈ inPlay

/-- One call keeps it. -/
theorem HeaderChain.Reached.extend (hlawful : crate.Lawful) {opened : HeaderChain}
    {inPlay batch : List Header} {now : ℕ} (h : opened.Reached crate chain inPlay)
    (hfair : Plausible crate opened.chain inPlay) (hbatch : ∀ header ∈ batch, header ∈ inPlay) :
    opened.Reached crate (chain.extend crate batch now).1 inPlay := by
  rw [← h.sameAnchor.chain_eq] at hfair
  have hinPlay : ∀ other ∈ chain.headers ++ batch, other ∈ inPlay := fun other hother =>
    (List.mem_append.mp hother).elim (h.stored other) (hbatch other)
  rcases @extend_cases crate chain hlawful inPlay batch now h.sound hfair hinPlay with
    ⟨result, hextend, _⟩ | ⟨next, extension, hextend, _, hgrown⟩
  · rw [hextend]
    exact h
  · rw [hextend]
    obtain ⟨count, fresh, hheaders, hfresh⟩ := hgrown.kept
    refine ⟨hgrown.sound, h.sameAnchor.trans hgrown.sameAnchor, ?_, hgrown.capacity, ?_⟩
    · obtain ⟨first, rest, hcons⟩ := List.exists_cons_of_ne_nil h.sound.nonempty
      rw [← h.anchor, hheaders, hcons]
      rfl
    · intro header hheader
      rw [hheaders, List.mem_append] at hheader
      exact hheader.elim (fun hold => h.stored header (List.mem_of_mem_take hold))
        fun hnew => hbatch header (hfresh header hnew)

/-- A run keeps it. -/
theorem HeaderChain.Reached.run (hlawful : crate.Lawful) {opened : HeaderChain}
    {inPlay : List Header} {calls : List (List Header × ℕ)}
    (h : opened.Reached crate chain inPlay)
    (hfair : Plausible crate opened.chain inPlay)
    (hcalls : ∀ header ∈ offered calls, header ∈ inPlay) :
    opened.Reached crate (chain.run crate calls) inPlay := by
  induction calls generalizing chain with
  | nil => exact h
  | cons call calls ih =>
      rw [offered, List.flatMap_cons, ← offered] at hcalls
      apply ih
      · exact h.extend hlawful hfair
          fun header hheader => hcalls header (List.mem_append_left _ hheader)
      · exact fun header hheader => hcalls header (List.mem_append_right _ hheader)

theorem HeaderChain.Opened.reached {genesis : Chain → Bytes32} (h : chain.Opened crate genesis)
    {inPlay : List Header} (hinPlay : ∀ header ∈ chain.headers, header ∈ inPlay) :
    chain.Reached crate chain inPlay where
  sound := h.sound.1
  sameAnchor := .refl chain
  anchor := rfl
  capacity := by
    rw [h.sound.2]
    decide
  stored := hinPlay

/-- **The invariant of every run**: after any calls the index has the heights of exactly the stored
headers, neighbours are linked and follow the difficulty, time and work rules, and the anchor is
the one the chain was opened at. The next call never loses work, gains some when it appends or
reorganizes, and otherwise leaves the chain as it is. -/
theorem header_chain_invariant (hlawful : crate.Lawful) {genesis : Chain → Bytes32}
    {opened : HeaderChain} (hopened : opened.Opened crate genesis)
    (calls : List (List Header × ℕ)) (batch : List Header) (now : ℕ)
    (hfair : Plausible crate opened.chain (opened.headers ++ (offered calls ++ batch))) :
    let chain := opened.run crate calls
    let step := chain.extend crate batch now
    (∀ hash height, chain.heightOf hash = some height ↔
      ∃ offset header, chain.headers[offset]? = some header ∧ crate.blockHash header = hash ∧
        height = chain.startHeight + offset) ∧
    (∀ offset previous header, chain.headers[offset]? = some previous →
      chain.headers[offset + 1]? = some header →
        header.prevBlockhash = crate.blockHash previous ∧
          chain.Valid crate (chain.headers.take (offset + 1)) header) ∧
    (∀ header ∈ chain.headers, checkHeaderPow crate header chain.chain = .ok ()) ∧
    (opened.SameAnchor chain ∧ chain.headers.head? = opened.headers.head?) ∧
    totalWork crate chain.headers ≤ totalWork crate step.1.headers ∧
    (∀ extension, step.2 = .ok extension → extension ≠ .ignored →
      totalWork crate chain.headers < totalWork crate step.1.headers) ∧
    ((step.2 = .ok .ignored ∨ ∃ error, step.2 = .error error) → step.1 = chain) := by
  intro chain step
  have hinPlay : ∀ header ∈ offered calls ++ batch,
      header ∈ opened.headers ++ (offered calls ++ batch) :=
    fun header hheader => List.mem_append_right _ hheader
  have hreached : opened.Reached crate chain (opened.headers ++ (offered calls ++ batch)) :=
    (hopened.reached fun header hheader => List.mem_append_left _ hheader).run hlawful hfair
      fun header hheader => hinPlay header (List.mem_append_left _ hheader)
  have hsound := hreached.sound
  refine ⟨?_, ?_, hsound.pow, ⟨hreached.sameAnchor, hreached.anchor⟩, ?_⟩
  · intro hash height
    rw [HeaderChain.heightOf, Option.map_eq_some_iff]
    constructor
    · rintro ⟨offset, hindex, rfl⟩
      obtain ⟨header, hheader, hhash⟩ := (hsound.index hash offset).mp hindex
      exact ⟨offset, header, hheader, hhash, rfl⟩
    · rintro ⟨offset, header, hheader, hhash, rfl⟩
      exact ⟨offset, (hsound.index hash offset).mpr ⟨header, hheader, hhash⟩, rfl⟩
  · intro offset previous header hprevious hheader
    have hlinks := List.isChain_iff_getElem.mp hsound.valid.isChain
    obtain ⟨hlt, rfl⟩ := List.getElem?_eq_some_iff.mp hheader
    obtain ⟨_, rfl⟩ := List.getElem?_eq_some_iff.mp hprevious
    exact ⟨hlinks offset hlt, hsound.valid offset _ hheader⟩
  · have hcases := @extend_cases crate chain hlawful _ batch now hsound
      (by rw [hreached.sameAnchor.chain_eq]; exact hfair) fun other hother =>
        (List.mem_append.mp hother).elim (hreached.stored other)
          fun hmem => hinPlay other (List.mem_append_right _ hmem)
    rcases hcases with ⟨result, hextend, hresult⟩ | ⟨next, extension, hextend, hne, hgrown⟩
    · have hstep : step = (chain, result) := hextend
      rw [hstep]
      refine ⟨le_rfl, ?_, fun _ => rfl⟩
      intro extension hextension hne
      rcases hresult with hignored | ⟨error, herror⟩
      · rw [hignored] at hextension
        exact absurd (Except.ok.inj hextension).symm hne
      · rw [herror] at hextension
        cases hextension
    · have hstep : step = (next, .ok extension) := hextend
      rw [hstep]
      refine ⟨Nat.le_of_lt hgrown.work, fun _ _ _ => hgrown.work, ?_⟩
      rintro (hignored | ⟨error, herror⟩)
      · exact absurd (Except.ok.inj hignored) hne
      · cases herror

namespace Sample

/-- A header at the limit of the regression test chain. -/
def headerOf (prevBlockhash : Bytes32) (time nonce : UInt32) : Header where
  version := 1
  prevBlockhash := prevBlockhash
  merkleRoot := zeroHash
  time := time
  bits := 0x207fffff
  nonce := nonce

def anchor : Header :=
  headerOf zeroHash 100 1

def child : Header :=
  headerOf (PowCrate.standard.blockHash anchor) 101 0

def opened : HeaderChain :=
  .ofAnchor PowCrate.standard .bitcoinRegtest 0 anchor
    (some (PowCrate.standard.blockHash child)) none

theorem opened_anchored : opened.Opened PowCrate.standard fun _ => zeroHash := by
  have hpow : checkHeaderPow PowCrate.standard anchor .bitcoinRegtest = .ok () := by
    decide +kernel
  have hopened : HeaderChain.anchored PowCrate.standard .bitcoinRegtest 0 anchor
      (PowCrate.standard.blockHash child) = .ok opened := by
    rw [HeaderChain.anchored, hpow]
    rfl
  exact .anchored hopened

theorem fair : Plausible PowCrate.standard .bitcoinRegtest [anchor, child] where
  injective := by
    decide +kernel
  ranked := by
    refine ⟨fun header => header.time.toNat, ?_⟩
    decide +kernel
  work_lt := by
    have hwork : ∀ header ∈ [anchor, child], PowCrate.standard.work header < 2 ^ 236 := by
      decide +kernel
    exact fun header hheader _ => hwork header hheader

end Sample

/-- After the successor of the anchor has been offered, it is offered again. -/
theorem header_chain_invariant_sample :
    let chain := Sample.opened.run PowCrate.standard [([Sample.child], 1000)]
    let step := chain.extend PowCrate.standard [Sample.child] 1000
    (∀ header ∈ chain.headers,
      checkHeaderPow PowCrate.standard header chain.chain = .ok ()) ∧
    chain.headers.head? = some Sample.anchor ∧
    ((step.2 = .ok .ignored ∨ ∃ error, step.2 = .error error) → step.1 = chain) := by
  have hfair : Plausible PowCrate.standard Sample.opened.chain
      (Sample.opened.headers ++ (offered [([Sample.child], 1000)] ++ [Sample.child])) :=
    Sample.fair.mono (by simp [Sample.opened, HeaderChain.ofAnchor, offered])
  obtain ⟨_, _, hpow, ⟨_, hanchor⟩, _, _, hkept⟩ := header_chain_invariant
    PowCrate.standard_lawful Sample.opened_anchored [([Sample.child], 1000)] [Sample.child] 1000
    hfair
  exact ⟨hpow, hanchor, hkept⟩

end Urma.Runtime
