import Urma.Chain.TransactionCodec

/-!
# The encoding of a block

A block is its header, the number of its transactions, and the transactions. None of the readers
looks beyond what it reads, so that a piece cut out of a block is read as it was inside of it.
-/

namespace Urma.Chain.Standard

open Lib Lib.Layout Lib.Reader

/-! ## Readers -/

/-- `Header::consensus_decode`. -/
def readHeader : Read Unit Header := fun bytes => do
  let (version, rest) ← readLe 4 bytes
  let (prevBlockhash, rest) ← readHash rest
  let (merkleRoot, rest) ← readHash rest
  let (time, rest) ← readLe 4 rest
  let (bits, rest) ← readLe 4 rest
  let (nonce, rest) ← readLe 4 rest
  .ok (⟨UInt32.ofNat version, prevBlockhash, merkleRoot, UInt32.ofNat time, UInt32.ofNat bits,
    UInt32.ofNat nonce⟩, rest)

/-- `Block::consensus_decode`. -/
def readBlock : Read Unit Block := fun bytes => do
  let (header, rest) ← readHeader bytes
  let (txdata, rest) ← readCounted readTransaction rest
  .ok (⟨header, txdata⟩, rest)

/-- The bytes of a block. -/
def serializeBlock (block : Block) : Bytes :=
  serializeHeader block.header ++ counted serialize block.txdata

/-! ## Reading undoes writing -/

theorem readHeader_append (header : Header) (rest : Bytes) :
    readHeader (serializeHeader header ++ rest) = .ok (header, rest) := by
  have hread : ∀ (n : UInt32) (rest : Bytes),
      readLe 4 (toLe 4 n.toNat ++ rest) = .ok (n.toNat, rest) :=
    fun n rest => readLe_undoes 4 _ rest n.toNat_lt
  rw [readHeader, serializeHeader]
  simp only [List.append_assoc, hread, readHash_append, Except.ok_bind, UInt32.ofNat_toNat]

theorem serializeHeader_length (header : Header) : (serializeHeader header).length = 80 := by
  simp only [serializeHeader, List.length_append, toLe_length, Vector.length_toList]

/-! ## Readers are local -/

theorem readLe_local (width : ℕ) : Local (readLe width) := by
  intro bytes n rest h
  rw [readLe] at h
  split at h
  · next hlong =>
    cases h
    refine ⟨bytes.take width, (List.take_append_drop width bytes).symm, ?_⟩
    intro other
    have hwidth : (bytes.take width).length = width := List.length_take_of_le hlong
    rw [readLe, if_pos (by rw [List.length_append, hwidth]; omega), List.take_left' hwidth,
      List.drop_left' hwidth]
  · cases h

theorem readMarked_local (width least : ℕ) : Local (readMarked width least) := by
  intro bytes n rest h
  simp only [readMarked, Except.bind_eq_ok, Prod.exists] at h
  obtain ⟨m, middle, hread, hok⟩ := h
  split at hok
  · next hleast =>
    cases hok
    obtain ⟨used, rfl, hused⟩ := readLe_local width bytes n rest hread
    refine ⟨used, rfl, ?_⟩
    intro other
    rw [readMarked, hused, Except.ok_bind]
    exact if_pos hleast
  · cases hok

/-- A marker before what is read after it. -/
theorem local_cons {α : Type} {read inner : Read Unit α} {byte : UInt8}
    (hread : ∀ rest, read (byte :: rest) = inner rest) (hinner : Local inner) {bytes : Bytes} {a : α}
    {rest : Bytes} (h : read (byte :: bytes) = .ok (a, rest)) :
    ∃ used, byte :: bytes = used ++ rest ∧ ∀ other, read (used ++ other) = .ok (a, other) := by
  rw [hread] at h
  obtain ⟨used, rfl, hused⟩ := hinner bytes a rest h
  refine ⟨byte :: used, rfl, ?_⟩
  intro other
  rw [List.cons_append, hread]
  exact hused other

theorem readCompact_local : Local readCompact := by
  intro bytes n rest h
  cases bytes with
  | nil => cases h
  | cons byte bytes =>
      by_cases hff : byte = 0xff
      · subst hff
        exact local_cons (fun _ => rfl) (readMarked_local 8 0x100000000) h
      · by_cases hfe : byte = 0xfe
        · subst hfe
          exact local_cons (fun _ => rfl) (readMarked_local 4 0x10000) h
        · by_cases hfd : byte = 0xfd
          · subst hfd
            exact local_cons (fun _ => rfl) (readMarked_local 2 0xfd) h
          · have hone : ∀ rest, readCompact (byte :: rest) = .ok (byte.toNat, rest) := by
              intro rest
              rw [readCompact, if_neg hff, if_neg hfe, if_neg hfd]
            rw [hone] at h
            cases h
            exact ⟨[byte], rfl, hone⟩

theorem readLengthed_local : Local readLengthed := by
  intro bytes a rest h
  simp only [readLengthed, Except.bind_eq_ok, Prod.exists] at h
  obtain ⟨length, middle, hcount, hok⟩ := h
  split at hok
  · next hlong =>
    cases hok
    obtain ⟨used, rfl, hused⟩ := readCompact_local bytes length middle hcount
    refine ⟨used ++ middle.take length, ?_, ?_⟩
    · rw [List.append_assoc, List.take_append_drop]
    · intro other
      have hlength : (middle.take length).length = length := List.length_take_of_le hlong
      rw [readLengthed, List.append_assoc, hused, Except.ok_bind]
      show (if _ then _ else _) = _
      rw [if_pos (by rw [List.length_append, hlength]; omega), List.take_left' hlength,
        List.drop_left' hlength]
  · cases hok

theorem readCounted_local {α : Type} {read : Read Unit α} (h : Local read) :
    Local (readCounted read) := by
  intro bytes as rest hread
  simp only [readCounted, Except.bind_eq_ok, Prod.exists] at hread
  obtain ⟨count, middle, hcount, hmany⟩ := hread
  obtain ⟨used, rfl, hused⟩ := readCompact_local bytes count middle hcount
  obtain ⟨used', rfl, hused'⟩ := h.readMany count middle as rest hmany
  refine ⟨used ++ used', (List.append_assoc _ _ _).symm, ?_⟩
  intro other
  rw [readCounted, List.append_assoc, hused, Except.ok_bind]
  exact hused' other

theorem readHash_local : Local readHash := by
  intro bytes hash rest h
  rw [readHash] at h
  split at h
  · next hlength =>
    cases h
    refine ⟨bytes.take 32, (List.take_append_drop 32 bytes).symm, ?_⟩
    intro other
    rw [readHash]
    simp only [List.take_left' hlength, List.drop_left' hlength, hlength, dite_true]
  · cases h

theorem readInput_local : Local readInput := by
  intro bytes input rest h
  simp only [readInput, Except.bind_eq_ok, Prod.exists] at h
  obtain ⟨hash, r₁, h₁, vout, r₂, h₂, script, r₃, h₃, sequence, r₄, h₄, hok⟩ := h
  cases hok
  obtain ⟨u₁, rfl, k₁⟩ := readHash_local _ _ _ h₁
  obtain ⟨u₂, rfl, k₂⟩ := readLe_local 4 _ _ _ h₂
  obtain ⟨u₃, rfl, k₃⟩ := readLengthed_local _ _ _ h₃
  obtain ⟨u₄, rfl, k₄⟩ := readLe_local 4 _ _ _ h₄
  refine ⟨u₁ ++ u₂ ++ u₃ ++ u₄, by simp only [List.append_assoc], ?_⟩
  intro other
  simp only [readInput, List.append_assoc, k₁, k₂, k₃, k₄, Except.ok_bind]

theorem readOutput_local : Local readOutput := by
  intro bytes output rest h
  simp only [readOutput, Except.bind_eq_ok, Prod.exists] at h
  obtain ⟨value, r₁, h₁, script, r₂, h₂, hok⟩ := h
  cases hok
  obtain ⟨u₁, rfl, k₁⟩ := readLe_local 8 _ _ _ h₁
  obtain ⟨u₂, rfl, k₂⟩ := readLengthed_local _ _ _ h₂
  refine ⟨u₁ ++ u₂, by simp only [List.append_assoc], ?_⟩
  intro other
  simp only [readOutput, List.append_assoc, k₁, k₂, Except.ok_bind]

theorem readWitnesses_local (inputs : List TxIn) : Local (readWitnesses inputs) := by
  induction inputs with
  | nil =>
      intro bytes filled rest h
      cases h
      exact ⟨[], rfl, fun _ => rfl⟩
  | cons input inputs ih =>
      intro bytes filled rest h
      simp only [readWitnesses, Except.bind_eq_ok, Prod.exists] at h
      obtain ⟨witness, r₁, h₁, others, r₂, h₂, hok⟩ := h
      cases hok
      obtain ⟨u₁, rfl, k₁⟩ := readCounted_local readLengthed_local _ _ _ h₁
      obtain ⟨u₂, rfl, k₂⟩ := ih _ _ _ h₂
      refine ⟨u₁ ++ u₂, by simp only [List.append_assoc], ?_⟩
      intro other
      simp only [readWitnesses, List.append_assoc, k₁, k₂, Except.ok_bind]

/-- **A transaction** is read from its own bytes only. -/
theorem readTransaction_local : Local readTransaction := by
  intro bytes tx rest h
  simp only [readTransaction, Except.bind_eq_ok, Prod.exists] at h
  obtain ⟨version, r₁, h₁, marker, r₂, h₂, h⟩ := h
  obtain ⟨u₁, rfl, k₁⟩ := readLe_local 4 _ _ _ h₁
  obtain ⟨u₂, rfl, k₂⟩ := readCounted_local readInput_local _ _ _ h₂
  split at h
  · next hempty =>
    simp only [Except.bind_eq_ok, Prod.exists] at h
    obtain ⟨flag, r₃, h₃, h⟩ := h
    obtain ⟨u₃, rfl, k₃⟩ := readLe_local 1 _ _ _ h₃
    split at h
    · next hflag =>
      simp only [Except.bind_eq_ok, Prod.exists] at h
      obtain ⟨input, r₄, h₄, output, r₅, h₅, filled, r₆, h₆, lockTime, r₇, h₇, h⟩ := h
      obtain ⟨u₄, rfl, k₄⟩ := readCounted_local readInput_local _ _ _ h₄
      obtain ⟨u₅, rfl, k₅⟩ := readCounted_local readOutput_local _ _ _ h₅
      obtain ⟨u₆, rfl, k₆⟩ := readWitnesses_local _ _ _ _ h₆
      obtain ⟨u₇, rfl, k₇⟩ := readLe_local 4 _ _ _ h₇
      split at h
      · cases h
      · next hsome =>
        cases h
        refine ⟨u₁ ++ u₂ ++ u₃ ++ u₄ ++ u₅ ++ u₆ ++ u₇, by simp only [List.append_assoc], ?_⟩
        intro other
        simp only [readTransaction, List.append_assoc, k₁, k₂, k₃, k₄, k₅, k₆, k₇, hempty, hflag,
          hsome, Except.ok_bind]
        rfl
    · cases h
  · next hempty =>
    simp only [Except.bind_eq_ok, Prod.exists] at h
    obtain ⟨output, r₃, h₃, lockTime, r₄, h₄, h⟩ := h
    cases h
    obtain ⟨u₃, rfl, k₃⟩ := readCounted_local readOutput_local _ _ _ h₃
    obtain ⟨u₄, rfl, k₄⟩ := readLe_local 4 _ _ _ h₄
    refine ⟨u₁ ++ u₂ ++ u₃ ++ u₄, by simp only [List.append_assoc], ?_⟩
    intro other
    simp only [readTransaction, List.append_assoc, k₁, k₂, k₃, k₄, hempty, Except.ok_bind]
    rfl

theorem readHeader_local : Local readHeader := by
  intro bytes header rest h
  simp only [readHeader, Except.bind_eq_ok, Prod.exists] at h
  obtain ⟨version, r₁, h₁, prevBlockhash, r₂, h₂, merkleRoot, r₃, h₃, time, r₄, h₄, bits, r₅, h₅,
    nonce, r₆, h₆, hok⟩ := h
  cases hok
  obtain ⟨u₁, rfl, k₁⟩ := readLe_local 4 _ _ _ h₁
  obtain ⟨u₂, rfl, k₂⟩ := readHash_local _ _ _ h₂
  obtain ⟨u₃, rfl, k₃⟩ := readHash_local _ _ _ h₃
  obtain ⟨u₄, rfl, k₄⟩ := readLe_local 4 _ _ _ h₄
  obtain ⟨u₅, rfl, k₅⟩ := readLe_local 4 _ _ _ h₅
  obtain ⟨u₆, rfl, k₆⟩ := readLe_local 4 _ _ _ h₆
  refine ⟨u₁ ++ u₂ ++ u₃ ++ u₄ ++ u₅ ++ u₆, by simp only [List.append_assoc], ?_⟩
  intro other
  simp only [readHeader, List.append_assoc, k₁, k₂, k₃, k₄, k₅, k₆, Except.ok_bind]

/-- A header takes 80 bytes. -/
theorem readHeader_length {bytes rest : Bytes} {header : Header}
    (h : readHeader bytes = .ok (header, rest)) : bytes.length = 80 + rest.length := by
  have hle : ∀ {width : ℕ} {bytes rest : Bytes} {n : ℕ}, readLe width bytes = .ok (n, rest) →
      bytes.length = width + rest.length := by
    intro width bytes rest n h
    rw [readLe] at h
    split at h
    · cases h
      rw [List.length_drop]
      omega
    · cases h
  have hhash : ∀ {bytes rest : Bytes} {hash : Bytes32}, readHash bytes = .ok (hash, rest) →
      bytes.length = 32 + rest.length := by
    intro bytes rest hash h
    rw [readHash] at h
    split at h
    · next hlength =>
      cases h
      rw [List.length_take] at hlength
      rw [List.length_drop]
      omega
    · cases h
  simp only [readHeader, Except.bind_eq_ok, Prod.exists] at h
  obtain ⟨version, r₁, h₁, prevBlockhash, r₂, h₂, merkleRoot, r₃, h₃, time, r₄, h₄, bits, r₅, h₅,
    nonce, r₆, h₆, hok⟩ := h
  cases hok
  have l₁ := hle h₁
  have l₂ := hhash h₂
  have l₃ := hhash h₃
  have l₄ := hle h₄
  have l₅ := hle h₅
  have l₆ := hle h₆
  omega

end Urma.Chain.Standard
