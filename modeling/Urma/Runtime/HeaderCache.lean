import Urma.Chain.BlockSplit
import Urma.Lib.Layout
import Urma.Runtime.HeaderInvariant

/-!
# The header cache

The file in which `urma_runtime::p2p::headers` keeps a header chain: `persist` writes all headers,
and opening a chain reads them back and checks them again. What the file system and the machine
answer is passed in, and so is the content of the file.
-/

namespace Urma.Runtime

open Chain Lib Layout

/-! ## Constants and errors -/

/-- `P2P_HEADER_CACHE_REVALIDATE`. -/
def headerCacheRevalidate : ℕ := 2016

/-- `Header::SIZE`. -/
def headerSize : ℕ := 80

/-- `urma_runtime::error::Error`, as far as opening a chain produces it. -/
inductive CacheError where
  | chain (cause : HeaderError)
  | io (message : String)
  | capacity (message : String)
  | decode
  | allocation
  | context (message : String) (cause : CacheError)
  deriving DecidableEq, Repr

/-- `is_header_context`. -/
def CacheError.isHeaderContext : CacheError → Bool
  | .chain (.headerContext _) => true
  | .context _ cause => cause.isHeaderContext
  | _ => false

/-- `with_context`. -/
def inContext {α : Type} (message : String) : Except CacheError α → Except CacheError α
  | .ok a => .ok a
  | .error cause => .error (.context message cause)

/-- A result of the header chain. -/
def ofChain {α : Type} : Except HeaderError α → Except CacheError α
  | .ok a => .ok a
  | .error cause => .error (.chain cause)

/-- A result of the file system. -/
def ofIo : Except String Unit → Except CacheError Unit
  | .ok () => .ok ()
  | .error message => .error (.io message)

/-- `ensure!`. -/
def ensureCache (condition : Bool) (message : String) : Except CacheError Unit :=
  ofChain (ensureHeader condition message)

/-! ## What is asked of others -/

/-- The consensus encoding of a header, from the `bitcoin` crate. -/
structure HeaderCodec where
  serialize : Header → Bytes
  deserialize : Bytes → Option Header

/-- What the code relies on: a header has `Header::SIZE` bytes, which are read back as it was. -/
structure HeaderCodec.Lawful (codec : HeaderCodec) : Prop where
  length : ∀ header, (codec.serialize header).length = headerSize
  deserialize : ∀ header, codec.deserialize (codec.serialize header) = some header

/-- What the file system and the machine answer. -/
structure Machine where
  tryExists : Except String Unit
  openFile : Except String Unit
  readToEnd : Except String Unit
  /-- Whether `try_reserve_exact` finds the memory. -/
  reserves : Bool
  availableParallelism : Except String Unit
  removeFile : Except String Unit
  writeReplace : Except String Unit

/-- Every call succeeds. -/
def Machine.working : Machine where
  tryExists := .ok ()
  openFile := .ok ()
  readToEnd := .ok ()
  reserves := true
  availableParallelism := .ok ()
  removeFile := .ok ()
  writeReplace := .ok ()

section
variable (crate : PowCrate) (codec : HeaderCodec) (machine : Machine) (path : String)

/-! ## Reading -/

/-- `urma_io::read_bounded`, of a file with some content. -/
def readCache (raw : Bytes) (limit : ℕ) : Except CacheError Bytes := do
  inContext s!"open {path}" (ofIo machine.openFile)
  ofIo machine.readToEnd
  if limit < raw.length then .error (.capacity s!"file exceeds {limit} byte client capacity")
  else .ok raw

/-- `deserialize` of a header. -/
def decodeHeader (raw : Bytes) : Except CacheError Header :=
  match codec.deserialize raw with
  | some header => .ok header
  | none => .error .decode

/-- The loop of `load` that validates every header in the context of those before it. -/
def HeaderChain.revalidate (chain : HeaderChain) (headers : List Header) :
    List (Header × ℕ) → Except CacheError Unit
  | [] => .ok ()
  | (header, offset) :: rest => do
      inContext s!"header cache {path} at offset {offset}"
        (ofChain (chain.validateContext crate (headers.take offset) header))
      revalidate chain headers rest

/-- `prove_batch`, with the workers of the machine. -/
def proveTail (network : Chain) (tail : List Header) : Except CacheError Unit :=
  if tail.isEmpty then .ok ()
  else do
    ofIo machine.availableParallelism
    ofChain (proveBatch crate network tail)

/-- `load`, of the content of the file. The fields are assigned at the end. -/
def HeaderChain.load (chain : HeaderChain) (content : Bytes) :
    Except CacheError HeaderChain := do
  let raw ← readCache machine path content (headerCacheMax * headerSize)
  ensureCache (raw.length % headerSize == 0 && headerSize ≤ raw.length)
    s!"header cache {path} is not a whole number of headers"
  let stored ← decodeHeader codec (raw.take headerSize)
  ensureCache (some stored == chain.headers.head?)
    s!"header cache {path} starts from a different checkpoint"
  let count := raw.length / headerSize
  if machine.reserves then do
    let headers ← (asChunks headerSize raw).mapM (decodeHeader codec)
    let revalidateFrom := max count headerCacheRevalidate - headerCacheRevalidate
    chain.revalidate crate path headers (headers.zipIdx.drop 1)
    proveTail crate machine chain.chain (headers.drop (max revalidateFrom 1))
    .ok { chain with
      index := OffsetIndex.insertAll crate.blockHash (fun _ => none) headers.zipIdx
      headers := headers }
  else .error .allocation

/-- What `reset` makes of the chain. -/
def HeaderChain.reset (chain : HeaderChain) : HeaderChain :=
  { chain with
    index := OffsetIndex.insertAll crate.blockHash (fun _ => none) (chain.headers.take 1).zipIdx
    headers := chain.headers.take 1 }

/-- `restore`, with the file before and after. A cache that is refused is removed, unless only the
local context is too short for it. -/
def HeaderChain.restore (chain : HeaderChain) (file : Option Bytes) :
    Except CacheError HeaderChain × Option Bytes :=
  match ofIo machine.tryExists with
  | .error error => (.error error, file)
  | .ok () =>
      match file with
      | none => (.ok chain, none)
      | some content =>
          match chain.load crate codec machine path content with
          | .ok loaded => (.ok loaded, file)
          | .error error =>
              if error.isHeaderContext then (.error error, file)
              else
                match ofIo machine.removeFile with
                | .error error => (.error error, file)
                | .ok () => (.ok (chain.reset crate), none)

/-- `persist`, with the file before and after. -/
def HeaderChain.persist (chain : HeaderChain) (file : Option Bytes) :
    Except CacheError Unit × Option Bytes :=
  if machine.reserves then
    match ofIo machine.writeReplace with
    | .error error => (.error error, file)
    | .ok () => (.ok (), some (chain.headers.flatMap codec.serialize))
  else (.error .allocation, file)

/-! ## Opening -/

/-- What a chain is opened from. -/
inductive Trust where
  | anchor (network : Chain) (height : ℕ) (header : Header) (trustedNext : Bytes32)
  | bootstrap (start : HeaderBootstrap)

/-- The chain before its cache is read. -/
def Trust.fresh : Trust → Except HeaderError HeaderChain
  | .anchor network height header trustedNext =>
      HeaderChain.anchored crate network height header trustedNext
  | .bootstrap start => .ok (HeaderChain.openBootstrap crate start)

/-- `HeaderChain::anchored` and `HeaderChain::open_bootstrap`. -/
def Trust.openChain (trust : Trust) (file : Option Bytes) :
    Except CacheError HeaderChain × Option Bytes :=
  match trust.fresh crate with
  | .error cause => (.error (.chain cause), file)
  | .ok chain => chain.restore crate codec machine path file

end

/-- What is trusted is accepted: an anchor with its work done, or a bootstrap that was built. -/
inductive Trust.Accepted (crate : PowCrate) (genesis : Chain → Bytes32) :
    Trust → HeaderChain → Prop
  | anchor {network : Chain} {height : ℕ} {header : Header} {trustedNext : Bytes32}
      {opened : HeaderChain} :
      HeaderChain.anchored crate network height header trustedNext = .ok opened →
        Accepted crate genesis (.anchor network height header trustedNext) opened
  | bootstrap {network : Chain} {height : ℕ} {anchor : Header} {ancestors : List Header}
      {bootstrap : HeaderBootstrap} :
      HeaderBootstrap.new crate genesis network height anchor ancestors = .ok bootstrap →
        Accepted crate genesis (.bootstrap bootstrap) (HeaderChain.openBootstrap crate bootstrap)

section
variable {crate : PowCrate} {codec : HeaderCodec} {machine : Machine} {path : String}
  {genesis : Chain → Bytes32} {trust : Trust} {chain opened : HeaderChain} {file : Option Bytes}
  {headers : List Header} {content : Bytes}

theorem Trust.Accepted.isOpened (h : trust.Accepted crate genesis chain) :
    chain.Opened crate genesis := by
  cases h with
  | anchor h => exact .anchored h
  | bootstrap h => exact .bootstrap h

theorem Trust.Accepted.fresh (h : trust.Accepted crate genesis chain) :
    trust.fresh crate = .ok chain := by
  cases h with
  | anchor h => exact h
  | bootstrap h => rfl

/-! ## Results -/

@[simp] theorem inContext_eq_ok {α : Type} {message : String} {result : Except CacheError α}
    {a : α} : inContext message result = .ok a ↔ result = .ok a := by
  cases result <;> simp [inContext]

@[simp] theorem ofChain_eq_ok {α : Type} {result : Except HeaderError α} {a : α} :
    ofChain result = .ok a ↔ result = .ok a := by
  cases result <;> simp [ofChain]

@[simp] theorem ensureCache_eq_ok {condition : Bool} {message : String} {u : Unit} :
    ensureCache condition message = .ok u ↔ condition = true := by
  rw [ensureCache, ofChain_eq_ok, ensureHeader_eq_ok]

@[simp] theorem decodeHeader_eq_ok {header : Header} :
    decodeHeader codec content = .ok header ↔ codec.deserialize content = some header := by
  rw [decodeHeader]
  cases codec.deserialize content <;> simp

theorem ofIo_error {result : Except String Unit} {error : CacheError}
    (h : ofIo result = .error error) : ∃ message, error = .io message := by
  cases result with
  | ok u => cases h
  | error message => exact ⟨message, (Except.error.inj h).symm⟩

theorem readCache_eq_ok {raw : Bytes} {limit : ℕ}
    (h : readCache machine path content limit = .ok raw) : raw = content := by
  simp only [readCache, Except.bind_eq_ok] at h
  obtain ⟨_, _, _, _, h⟩ := h
  split at h
  · cases h
  · cases h
    rfl

theorem readCache_working (h : content.length ≤ headerCacheMax * headerSize) :
    readCache .working path content (headerCacheMax * headerSize) = .ok content := by
  show (if _ then _ else _) = _
  exact if_neg (Nat.not_lt.mpr h)

/-- **The loop of `load`**: every header follows the rules after those before it. -/
theorem revalidate_eq_ok {entries : List (Header × ℕ)} {u : Unit} :
    chain.revalidate crate path headers entries = .ok u ↔
      ∀ entry ∈ entries, chain.Valid crate (headers.take entry.2) entry.1 := by
  induction entries with
  | nil => simp [HeaderChain.revalidate]
  | cons entry entries ih =>
      simp [HeaderChain.revalidate, Except.bind_eq_ok, ih, validateContext_eq_ok]

theorem mem_zipIdx_drop_one {entry : Header × ℕ} :
    entry ∈ headers.zipIdx.drop 1 ↔
      ∃ offset, entry.2 = offset + 1 ∧ headers[offset + 1]? = some entry.1 := by
  rw [List.mem_iff_getElem?]
  constructor
  · rintro ⟨offset, hentry⟩
    rw [List.getElem?_drop, List.getElem?_zipIdx, Option.map_eq_some_iff] at hentry
    obtain ⟨header, hheader, rfl⟩ := hentry
    exact ⟨offset, by simp [Nat.add_comm], by rw [Nat.add_comm]; exact hheader⟩
  · rintro ⟨offset, hoffset, hheader⟩
    refine ⟨offset, ?_⟩
    rw [List.getElem?_drop, List.getElem?_zipIdx, Nat.add_comm 1 offset, hheader]
    simp [← hoffset]

theorem revalidate_zipIdx {u : Unit} :
    chain.revalidate crate path headers (headers.zipIdx.drop 1) = .ok u ↔
      chain.AllValid crate headers := by
  rw [revalidate_eq_ok]
  constructor
  · intro h offset header hheader
    exact h (header, offset + 1) (mem_zipIdx_drop_one.mpr ⟨offset, rfl, hheader⟩)
  · intro h entry hentry
    obtain ⟨offset, hoffset, hheader⟩ := mem_zipIdx_drop_one.mp hentry
    rw [hoffset]
    exact h offset entry.1 hheader

theorem proveTail_eq_ok {network : Chain} {u : Unit}
    (h : proveTail crate machine network headers = .ok u) :
    ∀ header ∈ headers, checkHeaderPow crate header network = .ok () := by
  rw [proveTail] at h
  split at h
  · next hempty =>
      rw [List.isEmpty_iff.mp hempty]
      exact nofun
  · obtain ⟨_, _, hproved⟩ := Except.bind_eq_ok.mp h
    exact proveFrom_eq_ok.mp (ofChain_eq_ok.mp hproved)

theorem proveTail_working {network : Chain}
    (h : ∀ header ∈ headers, checkHeaderPow crate header network = .ok ()) :
    proveTail crate .working network headers = .ok () := by
  rw [proveTail]
  split
  · rfl
  · exact ofChain_eq_ok.mpr (proveFrom_eq_ok.mpr h)

/-! ## What a cache that is accepted holds -/

/-- A chain that was read back: it starts at the anchor, its headers follow the rules one after
another, the last of them have their work done, and the index has for every hash the last offset
with it, which is the only one while the hashes are distinct. -/
structure HeaderChain.Restored (crate : PowCrate) (opened restored : HeaderChain) : Prop where
  sameAnchor : opened.SameAnchor restored
  anchor : restored.headers.head? = opened.headers.head?
  valid : restored.AllValid crate restored.headers
  pow : ∀ header ∈ restored.headers.drop (restored.headers.length - headerCacheRevalidate),
    checkHeaderPow crate header restored.chain = .ok ()
  index : OffsetIndex.Latest crate.blockHash restored.index restored.headers
  exact : (restored.headers.map crate.blockHash).Nodup →
    OffsetIndex.Exact crate.blockHash restored.index restored.headers

theorem Trust.Accepted.head (h : trust.Accepted crate genesis opened) :
    ∃ anchor, opened.headers = [anchor] ∧
      checkHeaderPow crate anchor opened.chain = .ok () := by
  obtain ⟨hsound, hlength⟩ := h.isOpened.sound
  obtain ⟨anchor, hanchor⟩ := List.length_eq_one_iff.mp hlength
  exact ⟨anchor, hanchor, hsound.pow anchor (by rw [hanchor]; exact List.mem_cons_self)⟩

/-- The first header that is read is the one that the whole file starts with. -/
theorem head_of_mapM {raw : Bytes} {stored : Header} (hlength : headerSize ≤ raw.length)
    (hstored : codec.deserialize (raw.take headerSize) = some stored)
    (h : (asChunks headerSize raw).mapM (decodeHeader codec) = .ok headers) :
    headers.head? = some stored := by
  have hcount : 0 < raw.length / headerSize := Nat.div_pos hlength (by decide)
  obtain ⟨count, hcount⟩ := Nat.exists_eq_add_of_lt hcount
  rw [Nat.zero_add] at hcount
  rw [asChunks, hcount, blocks, List.mapM_cons] at h
  simp only [Except.bind_eq_ok, decodeHeader_eq_ok] at h
  obtain ⟨first, hfirst, rest, _, h⟩ := h
  cases h
  rw [hstored] at hfirst
  rw [Option.some.inj hfirst]
  rfl

/-- The headers that are proved again, and the anchor, are all of the last ones. -/
theorem mem_tail_or_head {count : ℕ} {header : Header} (hcount : headers.length = count)
    (h : header ∈ headers.drop (headers.length - headerCacheRevalidate)) :
    headers.head? = some header ∨
      header ∈ headers.drop (max (max count headerCacheRevalidate - headerCacheRevalidate) 1) := by
  cases headers with
  | nil => simp at h
  | cons first rest =>
      have hstart : max count headerCacheRevalidate - headerCacheRevalidate =
          (first :: rest).length - headerCacheRevalidate := by omega
      rw [hstart]
      cases hdrop : (first :: rest).length - headerCacheRevalidate with
      | zero =>
          rw [hdrop, List.drop_zero] at h
          rcases List.mem_cons.mp h with rfl | hrest
          · exact Or.inl rfl
          · exact Or.inr hrest
      | succ start =>
          rw [hdrop] at h
          rw [Nat.max_eq_left (Nat.succ_pos start)]
          exact Or.inr h

/-- **What `load` accepts** follows the rules. -/
theorem restored_of_load (haccepted : trust.Accepted crate genesis opened) {restored : HeaderChain}
    (h : opened.load crate codec machine path content = .ok restored) :
    opened.Restored crate restored := by
  obtain ⟨anchor, hanchor, hpow⟩ := haccepted.head
  simp only [HeaderChain.load, Except.bind_eq_ok, ensureCache_eq_ok, decodeHeader_eq_ok] at h
  obtain ⟨raw, _, _, hwhole, stored, hstored, _, hfirst, h⟩ := h
  rw [Bool.and_eq_true, beq_iff_eq, decide_eq_true_eq] at hwhole
  rw [beq_iff_eq, hanchor, List.head?_cons, Option.some.injEq] at hfirst
  split at h
  · simp only [Except.bind_eq_ok] at h
    obtain ⟨headers, hheaders, _, hvalid, _, hproved, h⟩ := h
    cases h
    have hhead := head_of_mapM hwhole.2 hstored hheaders
    have hlength := Except.length_of_mapM_eq_ok hheaders
    rw [asChunks, blocks_length] at hlength
    have hindex := @OffsetIndex.latest_insertAll _ _ _ crate.blockHash headers
    refine ⟨⟨rfl, rfl, rfl, rfl⟩, ?_, ?_, ?_, hindex, hindex.exact⟩
    · rw [hanchor, ← hfirst]
      exact hhead
    · rw [revalidate_zipIdx] at hvalid
      exact hvalid
    · intro header hheader
      rcases mem_tail_or_head hlength hheader with hfound | htail
      · rw [hhead, Option.some.injEq] at hfound
        rw [← hfound, hfirst]
        exact hpow
      · exact proveTail_eq_ok hproved header htail
  · cases h

/-! ## Resetting -/

/-- A chain of the anchor alone is what `reset` makes of it. -/
theorem reset_opened (haccepted : trust.Accepted crate genesis opened) :
    opened.reset crate = opened := by
  obtain ⟨anchor, hanchor, _⟩ := haccepted.head
  have hsound := haccepted.isOpened.sound.1
  have hsame : opened.SameAnchor (opened.reset crate) := ⟨rfl, rfl, rfl, rfl⟩
  refine hsame.eq ?_ hsound.index ?_
  rotate_left
  · show OffsetIndex.Exact _ (OffsetIndex.insertAll _ _ (opened.headers.take 1).zipIdx)
      (opened.headers.take 1)
    rw [hanchor]
    exact OffsetIndex.exact_singleton anchor
  · show opened.headers.take 1 = opened.headers
    rw [hanchor]
    rfl

/-! ## Reading back what was written -/

theorem persisted_length (hcodec : codec.Lawful) (headers : List Header) :
    (headers.flatMap codec.serialize).length = headers.length * headerSize := by
  induction headers with
  | nil => rfl
  | cons header headers ih =>
      rw [List.flatMap_cons, List.length_append, ih, hcodec.length, List.length_cons, Nat.succ_mul,
        Nat.add_comm]

theorem asChunks_persisted (hcodec : codec.Lawful) (headers : List Header) :
    asChunks headerSize (headers.flatMap codec.serialize) = headers.map codec.serialize := by
  rw [List.flatMap_def]
  apply asChunks_flatten (by decide)
  intro raw hraw
  obtain ⟨header, _, rfl⟩ := List.mem_map.mp hraw
  exact hcodec.length header

theorem mapM_persisted (hcodec : codec.Lawful) (headers : List Header) :
    (headers.map codec.serialize).mapM (decodeHeader codec) = .ok headers := by
  induction headers with
  | nil => rfl
  | cons header headers ih =>
      rw [List.map_cons, List.mapM_cons, decodeHeader_eq_ok.mpr (hcodec.deserialize header), ih]
      rfl

/-- **What a chain persists is loaded** as the chain. -/
theorem load_persisted (hcodec : codec.Lawful) {inPlay : List Header}
    (hreached : opened.Reached crate chain inPlay) (hfair : Plausible crate chain.chain inPlay) :
    opened.load crate codec .working path (chain.headers.flatMap codec.serialize) = .ok chain := by
  have hsound := hreached.sound
  obtain ⟨first, rest, hheaders⟩ := List.exists_cons_of_ne_nil hsound.nonempty
  have hlength := persisted_length hcodec chain.headers
  have hbound : (chain.headers.flatMap codec.serialize).length ≤ headerCacheMax * headerSize := by
    rw [hlength]
    exact Nat.mul_le_mul_right _ hreached.capacity
  have hwhole : ((chain.headers.flatMap codec.serialize).length % headerSize == 0 &&
      decide (headerSize ≤ (chain.headers.flatMap codec.serialize).length)) = true := by
    rw [hlength, Bool.and_eq_true, beq_iff_eq, decide_eq_true_eq, hheaders, List.length_cons]
    exact ⟨Nat.mul_mod_left _ _, Nat.le_mul_of_pos_left _ (Nat.succ_pos _)⟩
  have hfirst :
      (chain.headers.flatMap codec.serialize).take headerSize = codec.serialize first := by
    rw [hheaders, List.flatMap_cons, List.take_left' (hcodec.length first)]
  have hanchor : (some first == opened.headers.head?) = true := by
    rw [← hreached.anchor, hheaders]
    exact beq_self_eq_true _
  have hvalid : opened.revalidate crate path chain.headers (chain.headers.zipIdx.drop 1) = .ok () :=
    revalidate_zipIdx.mpr (hreached.sameAnchor.allValid.mp hsound.valid)
  have hproved : ∀ start, proveTail crate .working opened.chain (chain.headers.drop start) =
      .ok () := by
    intro start
    apply proveTail_working
    intro header hheader
    rw [← hreached.sameAnchor.chain_eq]
    exact hsound.pow header (List.mem_of_mem_drop hheader)
  have hloaded : opened.load crate codec .working path (chain.headers.flatMap codec.serialize) =
      .ok { opened with
        index := OffsetIndex.insertAll crate.blockHash (fun _ => none) chain.headers.zipIdx
        headers := chain.headers } := by
    have hensured : ∀ message, ensureCache true message = .ok () := fun _ => rfl
    simp only [HeaderChain.load, readCache_working hbound, Except.ok_bind, hwhole, hensured,
      hfirst, decodeHeader_eq_ok.mpr (hcodec.deserialize first), hanchor,
      asChunks_persisted hcodec, mapM_persisted hcodec, hvalid, hproved]
    rfl
  rw [hloaded]
  congr 1
  have hsame : chain.SameAnchor { opened with
      index := OffsetIndex.insertAll crate.blockHash (fun _ => none) chain.headers.zipIdx
      headers := chain.headers } :=
    ⟨hreached.sameAnchor.chain_eq.symm, hreached.sameAnchor.startHeight_eq.symm,
      hreached.sameAnchor.trustedNext_eq.symm, hreached.sameAnchor.ancestors_eq.symm⟩
  exact hsame.eq rfl hsound.index ((OffsetIndex.latest_insertAll chain.headers).exact
    (nodup_of_isChain hfair hsound.valid.isChain hreached.stored))

/-! ## The cache -/

/-- **The header cache restores exactly and cannot corrupt the chain**: what any run of extensions
leaves is persisted and opened again as it was; and whatever the file holds and the machine answers,
opening fails for the local context or the file system, or yields the anchor alone, or a chain that
follows the rules from the anchor on. -/
theorem header_cache_faithful (hcrate : crate.Lawful) (hcodec : codec.Lawful)
    (haccepted : trust.Accepted crate genesis opened) (path : String) :
    (∀ calls, Plausible crate opened.chain (opened.headers ++ offered calls) → ∀ file,
      let chain := opened.run crate calls
      let written := (chain.persist codec .working file).2
      (chain.persist codec .working file).1 = .ok () ∧
        trust.openChain crate codec .working path written = (.ok chain, written)) ∧
    ∀ machine file,
      match (trust.openChain crate codec machine path file).1 with
      | .error error => error.isHeaderContext = true ∨ ∃ message, error = .io message
      | .ok restored => restored = opened ∨ opened.Restored crate restored := by
  constructor
  · intro calls hfair file
    have hreached : opened.Reached crate (opened.run crate calls)
        (opened.headers ++ offered calls) :=
      (haccepted.isOpened.reached fun header hheader => List.mem_append_left _ hheader).run hcrate
        hfair fun header hheader => List.mem_append_right _ hheader
    refine ⟨rfl, ?_⟩
    show (match trust.fresh crate with | .error cause => _ | .ok chain => _) = _
    rw [haccepted.fresh]
    show (match opened.load crate codec .working path _ with | .ok loaded => _ | .error error => _)
      = _
    rw [load_persisted hcodec hreached (by rw [hreached.sameAnchor.chain_eq]; exact hfair)]
  · intro machine file
    rw [Trust.openChain, haccepted.fresh]
    dsimp only
    unfold HeaderChain.restore
    cases htry : ofIo machine.tryExists with
    | error error => exact Or.inr (ofIo_error htry)
    | ok u =>
        cases file with
        | none => exact Or.inl rfl
        | some content =>
            dsimp only
            cases hload : opened.load crate codec machine path content with
            | ok restored => exact Or.inr (restored_of_load haccepted hload)
            | error error =>
                dsimp only
                by_cases hcontext : error.isHeaderContext = true
                · rw [if_pos hcontext]
                  exact Or.inl hcontext
                · rw [if_neg hcontext]
                  cases hremove : ofIo machine.removeFile with
                  | error error => exact Or.inr (ofIo_error hremove)
                  | ok u => exact Or.inl (reset_opened haccepted)

end

namespace Sample

/-- The consensus encoding of headers. -/
def headerCodec : HeaderCodec where
  serialize := Standard.serializeHeader
  deserialize := Standard.whole Standard.readHeader

theorem headerCodec_lawful : headerCodec.Lawful where
  length header := by
    have hread := Standard.readHeader_append header []
    have hlength := Standard.readHeader_length hread
    rw [List.append_nil] at hlength
    exact hlength
  deserialize header := by
    have hread := Standard.readHeader_append header []
    rw [List.append_nil] at hread
    exact Standard.whole_eq_some.mpr hread

/-- What the sample chain is opened from. -/
def trust : Trust :=
  .anchor .bitcoinRegtest 0 anchor (PowCrate.standard.blockHash child)

theorem trust_accepted : trust.Accepted PowCrate.standard (fun _ => zeroHash) opened := by
  have hpow : checkHeaderPow PowCrate.standard anchor .bitcoinRegtest = .ok () := by
    decide +kernel
  have hopened : HeaderChain.anchored PowCrate.standard .bitcoinRegtest 0 anchor
      (PowCrate.standard.blockHash child) = .ok opened := by
    rw [HeaderChain.anchored, hpow]
    rfl
  exact .anchor hopened

end Sample

/-- The anchor and its successor are written and read back. -/
theorem header_cache_faithful_sample :
    let chain := Sample.opened.run PowCrate.standard [([Sample.child], 1000)]
    let written := (chain.persist Sample.headerCodec .working none).2
    Sample.trust.openChain PowCrate.standard Sample.headerCodec .working "headers.bin" written =
      (.ok chain, written) := by
  have hfair : Plausible PowCrate.standard Sample.opened.chain
      (Sample.opened.headers ++ offered [([Sample.child], 1000)]) :=
    Sample.fair.mono (by simp [Sample.opened, HeaderChain.ofAnchor, offered])
  exact ((header_cache_faithful PowCrate.standard_lawful Sample.headerCodec_lawful
    Sample.trust_accepted "headers.bin").1 [([Sample.child], 1000)] hfair none).2

end Urma.Runtime
