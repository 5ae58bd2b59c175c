import Urma.Core.EnvelopeExact
import Urma.Web.PackageCodec
import Urma.Web.Store

/-!
# What a store serves is authentic

Whatever the files hold, a publication that is returned hangs together: the reveal has the txid that
was asked for, its commit is the one it spends, the manifest in it declares the payload, the payload
is the package. And whatever the files hold later, what is served has the hash the package declares.
-/

namespace Urma.Web

open Chain Lib.Layout

/-! ## Hexadecimal -/

theorem hexDigit_inj {a b : ℕ} (ha : a < 16) (hb : b < 16) (h : hexDigit a = hexDigit b) :
    a = b := by
  have hall : ∀ a < 16, ∀ b < 16, hexDigit a = hexDigit b → a = b := by decide
  exact hall a ha b hb h

theorem lowerChar_hexDigit {a : ℕ} (ha : a < 16) : lowerChar (hexDigit a) = hexDigit a := by
  have hall : ∀ a < 16, lowerChar (hexDigit a) = hexDigit a := by decide
  exact hall a ha

theorem hexChars_inj {bytes others : Bytes} (h : hexChars bytes = hexChars others) :
    bytes = others := by
  induction bytes generalizing others with
  | nil =>
      cases others with
      | nil => rfl
      | cons other others => cases h
  | cons byte bytes ih =>
      cases others with
      | nil => cases h
      | cons other others =>
          rw [hexChars, hexChars, List.flatMap_cons, List.flatMap_cons, List.cons_append,
            List.cons_append, List.cons_append, List.cons_append, List.nil_append, List.nil_append,
            List.cons.injEq, List.cons.injEq] at h
          obtain ⟨hhigh, hlow, hrest⟩ := h
          have hbyte := byte.toNat_lt
          have hother := other.toNat_lt
          have hhigh := hexDigit_inj (by omega) (by omega) hhigh
          have hlow := hexDigit_inj (by omega) (by omega) hlow
          have heq : byte = other := UInt8.toNat_inj.mp (by omega)
          rw [heq, ih hrest]

theorem hexEncode_inj {bytes others : Bytes} (h : hexEncode bytes = hexEncode others) :
    bytes = others :=
  hexChars_inj (String.ofList_injective h)

/-- The digits of `hex::encode` are lower case. -/
theorem toAsciiLowercase_hexEncode (bytes : Bytes) :
    toAsciiLowercase (hexEncode bytes) = hexEncode bytes := by
  have hchars : (hexChars bytes).map lowerChar = hexChars bytes := by
    induction bytes with
    | nil => rfl
    | cons byte bytes ih =>
        have hbyte := byte.toNat_lt
        rw [hexChars] at ih ⊢
        rw [List.flatMap_cons, List.map_append, ih, List.map_cons, List.map_cons, List.map_nil,
          lowerChar_hexDigit (by omega), lowerChar_hexDigit (by omega)]
  rw [toAsciiLowercase, hexEncode, String.toList_ofList, hchars]

namespace Store

variable {crates : StoreCrates} {files : StoreFiles}

/-! ## Files -/

/-- **An object has the hash it is named by.** -/
theorem object_hash {hash : Bytes32} {limit : ℕ} {bytes : Bytes}
    (h : object crates files (hexEncode hash.toList) limit = .ok bytes) :
    crates.sha256 bytes = hash := by
  simp only [object, Except.bind_eq_ok, ensureWeb_eq_ok, beq_iff_eq] at h
  obtain ⟨_, _, found, _, _, hhash, h⟩ := h
  cases h
  rw [toAsciiLowercase_hexEncode] at hhash
  exact Vector.toList_inj.mp (hexEncode_inj hhash)

/-- A transaction has the txid it is named by. -/
theorem transaction_txid {txid : String} {tx : Transaction}
    (h : transaction crates files txid = .ok tx) :
    crates.displayTxid (crates.reveal.consensus.computeTxid tx) = txid := by
  simp only [transaction, Except.bind_eq_ok, ensureWeb_eq_ok, beq_iff_eq] at h
  obtain ⟨_, _, _, _, found, _, _, htxid, h⟩ := h
  cases h
  exact htxid

/-- The pointer that is returned is the one of this publication. -/
theorem pointer_names {network root : String} {found : Pointer}
    (h : pointer crates files network root = .ok found) :
    found.network = network ∧ found.root = root := by
  simp only [pointer, Except.bind_eq_ok, ensureWeb_eq_ok, Bool.and_eq_true, beq_iff_eq] at h
  obtain ⟨_, _, _, _, _, _, _, _, _, _, _, hnames, h⟩ := h
  cases h
  exact hnames

/-! ## Publications -/

/-- Two byte strings on which the hash collides. -/
def Collision (sha256 : Bytes → Bytes32) (bytes others : Bytes) : Prop :=
  bytes ≠ others ∧ sha256 bytes = sha256 others

/-- **What a returned publication is**: the reveal stored for its txid, the commit the reveal
spends, the root manifest that is proved by both, and the one package the manifest declares. -/
structure Authentic (crates : StoreCrates) (files : StoreFiles) (network root : String)
    (verified : Verified) (txid : Txid) (reveal commit : Transaction) (input : TxIn)
    (parsed : Envelope.ParsedEnvelope) (manifest : RootManifest) (payload : Bytes) : Prop where
  pointerNames : verified.pointer.network = network ∧ verified.pointer.root = root ∧
    verified.pointer.commit = crates.displayTxid input.previousOutput.txid
  rootTxid : crates.parseTxid root = .ok txid
  revealStored : transaction crates files root = .ok reveal ∧
    crates.reveal.consensus.computeTxid reveal = txid ∧ reveal.input = [input]
  commitStored :
    transaction crates files (crates.displayTxid input.previousOutput.txid) = .ok commit ∧
    crates.reveal.consensus.computeTxid commit = input.previousOutput.txid
  proof : Envelope.verifyRecordProof crates.reveal reveal commit = .ok parsed
  rootManifest : MultipartRecord.decode parsed.record = .ok (.root manifest) ∧
    manifest.profile = Package.profile
  author : verified.author = crates.displayKey parsed.author
  encoded : Package.encode crates.sha256 verified.package = .ok payload
  declared : payload.length = manifest.length ∧ crates.sha256 payload = manifest.payloadHash

theorem publication_authentic {network root : String} {limit : ℕ} {verified : Verified}
    (h : publication crates files network root limit = .ok verified) :
    ∃ txid reveal commit input parsed manifest payload,
      Authentic crates files network root verified txid reveal commit input parsed manifest
        payload := by
  simp only [publication, Except.bind_eq_ok] at h
  obtain ⟨found, hpointer, reveal, hreveal, h⟩ := h
  split at h
  · next input hinput =>
      simp only [Except.bind_eq_ok, ensureWeb_eq_ok, beq_iff_eq, orWeb_eq_ok,
        protocol_eq_ok] at h
      obtain ⟨_, hcommitName, commit, hcommit, txid, htxid, record, hrecord, decoded, hdecoded, h⟩
        := h
      split at h
      · next manifest =>
          simp only [Except.bind_eq_ok, ensureWeb_eq_ok, beq_iff_eq] at h
          obtain ⟨_, hprofile, payload, hpayload, _, hlength, package, hpackage, lengths, _, h⟩ :=
            h
          cases h
          obtain ⟨_, hrevealTxid, parsed, hproof, hauthor, hbytes⟩ :=
            VerifiedRecord.verify_eq_ok hrecord
          have hspends : input.previousOutput.txid =
              crates.reveal.consensus.computeTxid commit := by
            rw [Envelope.verifyRecordProof, hinput] at hproof
            simp only [Except.bind_eq_ok, ensure_eq_ok, beq_iff_eq] at hproof
            obtain ⟨_, hspends, _⟩ := hproof
            exact hspends
          obtain ⟨hnetwork, hroot⟩ := pointer_names hpointer
          refine ⟨txid, reveal, commit, input, parsed, manifest, payload,
            ⟨hnetwork, hroot, hcommitName.symm⟩, htxid, ⟨hreveal, hrevealTxid, hinput⟩,
            ⟨hcommit, hspends.symm⟩, hproof, ⟨?_, hprofile⟩, ?_,
            Package.encode_eq_ok.mpr (Package.decode_eq_ok.mp hpackage), hlength,
            object_hash hpayload⟩
          · rw [← hbytes]
            exact hdecoded
          · rw [hauthor]
      · cases h
  · cases h

/-- The package that is declared is the only one, or the hash collides. -/
theorem Authentic.unique {network root : String} {verified : Verified} {txid : Txid}
    {reveal commit : Transaction} {input : TxIn} {parsed : Envelope.ParsedEnvelope}
    {manifest : RootManifest} {payload : Bytes}
    (h : Authentic crates files network root verified txid reveal commit input parsed manifest
      payload) {package : Package} {other : Bytes}
    (hpackage : Package.encode crates.sha256 package = .ok other)
    (hhash : crates.sha256 other = manifest.payloadHash) :
    package = verified.package ∨ Collision crates.sha256 other payload := by
  by_cases hsame : other = payload
  · rw [hsame] at hpackage
    have hdecode := Package.decode_eq_ok.mpr (Package.encode_eq_ok.mp hpackage)
    have hdecode' := Package.decode_eq_ok.mpr (Package.encode_eq_ok.mp h.encoded)
    rw [hdecode] at hdecode'
    exact Or.inl (Except.ok.inj hdecode')
  · exact Or.inr ⟨hsame, by rw [hhash, h.declared.2]⟩

/-- What `resolve` finds is an entry of the package. -/
theorem resolve_file_mem {package : Package} {urlPath : Text} {file : FileEntry}
    (h : package.resolve urlPath = .file file) : file ∈ package.files := by
  rw [Package.resolve] at h
  split at h
  · split at h
    · next entry hentry =>
        cases h
        exact List.mem_of_getElem? hentry
    · cases h
  · cases h
  · split at h
    · next found hfound =>
        cases h
        exact List.mem_of_find?_eq_some hfound
    · split at h
      · cases h
      · cases h

/-- **What is served is the resource the package declares**, with its hash, or nothing. -/
theorem serve_authentic {verified : Verified}
    (hvalid : Package.Valid crates.sha256 verified.package) (urlPath : Text) :
    (∃ error, serve crates files verified urlPath = .error error) ∨
    (serve crates files verified urlPath = .ok .undeclared ∧
      verified.package.resolve urlPath = .undeclared) ∨
    ∃ mime hash bytes,
      serve crates files verified urlPath = .ok (.resource mime (hexEncode hash.toList) bytes) ∧
      crates.sha256 bytes = hash ∧
      ((∃ file, verified.package.resolve urlPath = .file file ∧ file.mime = mime ∧
          file.sha256 = hash ∧ file.bytes = bytes) ∨
        ∃ pin, verified.package.resolve urlPath = .pinned pin ∧ pin.mime = mime ∧
          pin.payloadSha256 = hash) := by
  rw [serve]
  cases hresource : verified.package.resolve urlPath with
  | file file =>
      have hmem := resolve_file_mem hresource
      exact Or.inr (Or.inr ⟨file.mime, file.sha256, file.bytes, rfl,
        (hvalid.file file hmem).2.2, Or.inl ⟨file, rfl, rfl, rfl, rfl⟩⟩)
  | pinned pin =>
      cases hobject : object crates files (hexEncode pin.payloadSha256.toList) maxObjectBytes with
      | error error =>
          refine Or.inl ⟨error, ?_⟩
          simp only [hobject, Except.error_bind]
      | ok bytes =>
          refine Or.inr (Or.inr ⟨pin.mime, pin.payloadSha256, bytes, ?_, object_hash hobject,
            Or.inr ⟨pin, rfl, rfl, rfl⟩⟩)
          simp only [hobject, Except.ok_bind]
  | undeclared => exact Or.inr (Or.inl ⟨rfl, rfl⟩)

/-- **Serving is authenticated end to end.** Whatever the files hold, a publication that is returned
is proved by the stored reveal of its txid and by its commit, up to the witness of the commit, and
its package is the one the manifest declares, or the hash collides. Whatever they hold later, a
request is refused, undeclared, or answered with the declared resource. -/
theorem serving_authenticated (crates : StoreCrates) (files later : StoreFiles)
    (network root : String) (limit : ℕ) (verified : Verified)
    (h : publication crates files network root limit = .ok verified) :
    (∃ txid reveal commit input parsed manifest payload,
      Authentic crates files network root verified txid reveal commit input parsed manifest
        payload ∧
      (∀ other, crates.reveal.consensus.computeTxid other = input.previousOutput.txid →
        other.strip = commit.strip →
          Envelope.verifyRecordProof crates.reveal reveal other = .ok parsed) ∧
      ∀ package bytes, Package.encode crates.sha256 package = .ok bytes →
        bytes.length = manifest.length → crates.sha256 bytes = manifest.payloadHash →
          package = verified.package ∨ Collision crates.sha256 bytes payload) ∧
    ∀ urlPath : Text,
      (∃ error, serve crates later verified urlPath = .error error) ∨
      (serve crates later verified urlPath = .ok .undeclared ∧
        verified.package.resolve urlPath = .undeclared) ∨
      ∃ mime hash bytes,
        serve crates later verified urlPath = .ok (.resource mime (hexEncode hash.toList) bytes) ∧
        crates.sha256 bytes = hash ∧
        ((∃ file, verified.package.resolve urlPath = .file file ∧ file.mime = mime ∧
            file.sha256 = hash ∧ file.bytes = bytes) ∨
          ∃ pin, verified.package.resolve urlPath = .pinned pin ∧ pin.mime = mime ∧
            pin.payloadSha256 = hash) := by
  obtain ⟨txid, reveal, commit, input, parsed, manifest, payload, hauthentic⟩ :=
    publication_authentic h
  have hvalid := (Package.encode_eq_ok.mp hauthentic.encoded).1
  refine ⟨⟨txid, reveal, commit, input, parsed, manifest, payload, hauthentic, ?_, ?_⟩,
    serve_authentic hvalid⟩
  · intro other htxid hstrip
    rw [← hauthentic.commitStored.2] at htxid
    rw [Envelope.verifyRecordProof_congr htxid (Transaction.output_eq_of_strip hstrip)]
    exact hauthentic.proof
  · intro package bytes hpackage _ hhash
    exact hauthentic.unique hpackage hhash

end Store

/-! ## A store with one publication -/

namespace Sample

/-- The bytes of the site. -/
def payload : Bytes := Package.packageBytes site

/-- The root manifest of the site. -/
def manifest : RootManifest where
  length := payload.length
  payloadHash := Lib.Sha256.hash payload
  profile := Package.profile
  entries := [⟨⟨Vector.replicate 32 5⟩, Vector.replicate 32 6⟩]

def rootRecord : Bytes :=
  match (MultipartRecord.root manifest).encode with
  | .ok record => record
  | .error _ => []

def commitTxid : Txid := ⟨Vector.replicate 32 1⟩

def rootTxid : Txid := ⟨Vector.replicate 32 2⟩

def commit : Transaction where
  version := 2
  lockTime := 1
  input := []
  output := [⟨1000, 81 :: 32 :: List.replicate 32 2⟩]

/-- The reveal of the manifest, which spends the commit. -/
def reveal : Transaction where
  version := 2
  lockTime := 2
  input := [⟨⟨commitTxid, 0⟩, [], 0, [List.replicate 64 1,
    Envelope.recordScript Envelope.Sample.library rootRecord Envelope.Sample.generator,
    tapScript :: Envelope.Sample.generator.serialize.toList]⟩]
  output := [⟨700, 0 :: 20 :: List.replicate 20 7⟩]

def pointer : Pointer where
  format := Store.operatorFormat
  network := "regtest"
  root := hexEncode rootTxid.bytes.toList
  commit := hexEncode commitTxid.bytes.toList
  tipHeight := none
  tipHash := none
  source := some .localNodeOperator

/-- Crates that read these transactions; their ids are their lock times. -/
def storeCrates : StoreCrates where
  sha256 := Lib.Sha256.hash
  reveal :=
    { script := Envelope.Sample.library
      consensus :=
        { ConsensusCrate.standard with
          computeTxid := fun tx => ⟨Vector.replicate 32 tx.lockTime.toUInt8⟩ }
      isP2wpkh := fun script => script.length == 22 && script.take 2 == [0, 20]
      isP2tr := fun script => script.length == 34 && script.take 2 == [81, 32]
      verifyTaprootCommitment := fun _ _ _ => true
      signatureFromSlice := .ok
      signatureHash := fun _ _ _ => .ok zeroHash
      verifySchnorr := fun _ _ _ => .ok () }
  deserialize bytes :=
    if bytes = [1] then .ok commit else if bytes = [2] then .ok reveal else .error "truncated"
  parsePointer bytes := if bytes = [3] then .ok pointer else .error "expected value"
  displayTxid txid := hexEncode txid.bytes.toList
  parseTxid text := if text = hexEncode rootTxid.bytes.toList then .ok rootTxid else .error "txid"
  displayKey key := hexEncode key.serialize.toList

/-- One byte stands for a transaction or for the pointer. -/
def storeFiles : StoreFiles where
  object _ := .ok payload
  objectExists _ := .ok true
  transaction key := .ok (if key = hexEncode rootTxid.bytes.toList then [2] else [1])
  publication _ _ := .ok [3]

theorem exists_publication : ∃ verified, Store.publication storeCrates storeFiles "regtest"
    (hexEncode rootTxid.bytes.toList) 1000 = .ok verified := by
  have hsome : (Store.publication storeCrates storeFiles "regtest"
      (hexEncode rootTxid.bytes.toList) 1000).isOk = true := by
    decide +kernel
  cases hresult : Store.publication storeCrates storeFiles "regtest"
      (hexEncode rootTxid.bytes.toList) 1000 with
  | error error =>
      rw [hresult] at hsome
      cases hsome
  | ok verified => exact ⟨verified, rfl⟩

end Sample

/-- The site is published, and served from a store without objects. -/
theorem Store.serving_authenticated_site :
    ∃ verified, publication Sample.storeCrates Sample.storeFiles "regtest"
        (hexEncode Sample.rootTxid.bytes.toList) 1000 = .ok verified ∧
      ∃ txid reveal commit input parsed manifest payload,
        Authentic Sample.storeCrates Sample.storeFiles "regtest"
          (hexEncode Sample.rootTxid.bytes.toList) verified txid reveal commit input parsed
          manifest payload := by
  obtain ⟨verified, h⟩ := Sample.exists_publication
  obtain ⟨⟨txid, reveal, commit, input, parsed, manifest, payload, hauthentic, _⟩, _⟩ :=
    serving_authenticated Sample.storeCrates Sample.storeFiles
      { Sample.storeFiles with object := fun _ => .error "No such file" } "regtest"
      (hexEncode Sample.rootTxid.bytes.toList) 1000 verified h
  exact ⟨verified, h, txid, reveal, commit, input, parsed, manifest, payload, hauthentic⟩

end Urma.Web
