import Mathlib.Algebra.Order.BigOperators.Group.List
import Mathlib.Algebra.Order.Group.Nat
import Urma.Chain.Block
import Urma.Lib.Reader

/-!
# The encoding of a transaction

What the `bitcoin` crate serializes a transaction to is read back as that transaction, and the
weight of a transaction is counted on its two encodings.
-/

namespace Urma.Chain

open Lib Lib.Layout Lib.Reader

namespace Standard

/-! ## Readers -/

/-- A number of a fixed width. -/
def readLe (width : ℕ) : Read Unit ℕ := fun bytes =>
  if width ≤ bytes.length then .ok (fromLe (bytes.take width), bytes.drop width) else .error ()

/-- A number behind a marker, which has to be too large for a shorter form. -/
def readMarked (width least : ℕ) (bytes : Bytes) : Except Unit (ℕ × Bytes) := do
  let (n, rest) ← readLe width bytes
  if least ≤ n then .ok (n, rest) else .error ()

/-- `VarInt::consensus_decode`. -/
def readCompact : Read Unit ℕ := fun bytes =>
  match bytes with
  | [] => .error ()
  | byte :: rest =>
      if byte = 0xff then readMarked 8 0x100000000 rest
      else if byte = 0xfe then readMarked 4 0x10000 rest
      else if byte = 0xfd then readMarked 2 0xfd rest
      else .ok (byte.toNat, rest)

/-- Bytes after their length. -/
def readLengthed : Read Unit Bytes := fun bytes => do
  let (length, rest) ← readCompact bytes
  if length ≤ rest.length then .ok (rest.take length, rest.drop length) else .error ()

/-- Items after their number. -/
def readCounted {α : Type} (read : Read Unit α) : Read Unit (List α) := fun bytes => do
  let (count, rest) ← readCompact bytes
  readMany read count rest

/-- A hash. -/
def readHash : Read Unit Bytes32 := fun bytes =>
  if h : (bytes.take 32).length = 32 then .ok (⟨(bytes.take 32).toArray, h⟩, bytes.drop 32)
  else .error ()

/-- `TxIn::consensus_decode`. -/
def readInput : Read Unit TxIn := fun bytes => do
  let (hash, rest) ← readHash bytes
  let (vout, rest) ← readLe 4 rest
  let (scriptSig, rest) ← readLengthed rest
  let (sequence, rest) ← readLe 4 rest
  .ok (⟨⟨⟨hash⟩, UInt32.ofNat vout⟩, scriptSig, UInt32.ofNat sequence, []⟩, rest)

/-- `TxOut::consensus_decode`. -/
def readOutput : Read Unit TxOut := fun bytes => do
  let (value, rest) ← readLe 8 bytes
  let (script, rest) ← readLengthed rest
  .ok (⟨UInt64.ofNat value, script⟩, rest)

/-- The witnesses of some inputs, one after another. -/
def readWitnesses : List TxIn → Bytes → Except Unit (List TxIn × Bytes)
  | [], bytes => .ok ([], bytes)
  | input :: inputs, bytes => do
      let (witness, rest) ← readCounted readLengthed bytes
      let (inputs, rest) ← readWitnesses inputs rest
      .ok ({ input with witness } :: inputs, rest)

/-- `Transaction::consensus_decode`: no inputs announce marker and flag. -/
def readTransaction : Read Unit Transaction := fun bytes => do
  let (version, rest) ← readLe 4 bytes
  let (input, rest) ← readCounted readInput rest
  if input.isEmpty then
    let (flag, rest) ← readLe 1 rest
    if flag = 1 then
      let (input, rest) ← readCounted readInput rest
      let (output, rest) ← readCounted readOutput rest
      let (input, rest) ← readWitnesses input rest
      let (lockTime, rest) ← readLe 4 rest
      if !input.isEmpty && input.all (fun input => input.witness.isEmpty) then .error ()
      else .ok (⟨UInt32.ofNat version, UInt32.ofNat lockTime, input, output⟩, rest)
    else .error ()
  else
    let (output, rest) ← readCounted readOutput rest
    let (lockTime, rest) ← readLe 4 rest
    .ok (⟨UInt32.ofNat version, UInt32.ofNat lockTime, input, output⟩, rest)

/-- `consensus::deserialize`: nothing is left. -/
def deserialize (bytes : Bytes) : Except Unit Transaction := do
  let (tx, rest) ← readTransaction bytes
  if rest.isEmpty then .ok tx else .error ()

/-! ## Reading undoes writing -/

/-- A number that a `VarInt` can write. -/
def Fits (n : ℕ) : Prop := n < 2 ^ 64

theorem readLe_undoes (width : ℕ) :
    Undoes (readLe width) (toLe width) fun n => n < 256 ^ width := by
  intro n rest hn
  rw [readLe, if_pos (by rw [List.length_append, toLe_length]; omega),
    List.take_left' (toLe_length width n), List.drop_left' (toLe_length width n), fromLe_toLe hn]

theorem readMarked_toLe {width least n : ℕ} (hn : n < 256 ^ width) (hleast : least ≤ n)
    (rest : Bytes) : readMarked width least (toLe width n ++ rest) = .ok (n, rest) := by
  rw [readMarked, readLe_undoes width n rest hn]
  exact if_pos hleast

theorem readCompact_undoes : Undoes readCompact compactSize Fits := by
  intro n rest hn
  rw [Fits] at hn
  rw [compactSize]
  split
  · next hsmall =>
      have hbyte : (UInt8.ofNat n).toNat = n := UInt8.toNat_ofNat_of_lt' (by
        show n < 256
        omega)
      have hne : ∀ marker : UInt8, 0xfd ≤ marker.toNat → UInt8.ofNat n ≠ marker := by
        intro marker hmarker heq
        rw [← heq, hbyte] at hmarker
        omega
      show readCompact (UInt8.ofNat n :: rest) = _
      rw [readCompact, if_neg (hne 0xff (by decide)), if_neg (hne 0xfe (by decide)),
        if_neg (hne 0xfd (by decide)), hbyte]
  · split
    · exact readMarked_toLe (by omega) (by omega) rest
    · split
      · exact readMarked_toLe (by omega) (by omega) rest
      · exact readMarked_toLe (by omega) (by omega) rest

theorem readLengthed_undoes : Undoes readLengthed lengthed fun bytes => Fits bytes.length := by
  intro bytes rest hbytes
  rw [readLengthed, lengthed, List.append_assoc, readCompact_undoes _ _ hbytes, Except.ok_bind]
  show (if _ then _ else _) = _
  rw [if_pos (by rw [List.length_append]; omega), List.take_left' rfl, List.drop_left' rfl]

theorem readCounted_undoes {α : Type} {read : Read Unit α} {write : α → Bytes}
    {Valid : α → Prop} (h : Undoes read write Valid) :
    Undoes (readCounted read) (counted write)
      fun items => Fits items.length ∧ ∀ item ∈ items, Valid item := by
  intro items rest hvalid
  rw [readCounted, counted, List.append_assoc, readCompact_undoes _ _ hvalid.1, Except.ok_bind]
  exact h.readMany items rest hvalid.2

theorem readHash_append (hash : Bytes32) (rest : Bytes) :
    readHash (hash.toList ++ rest) = .ok (hash, rest) := by
  have hlength : hash.toList.length = 32 := Vector.length_toList
  have htake : (hash.toList ++ rest).take 32 = hash.toList := List.take_left' hlength
  rw [readHash, List.drop_left' hlength, dif_pos (by rw [htake, hlength])]
  congr 2
  apply Vector.toList_inj.mp
  simp only [htake]
  simp

/-- The witness of an input apart, its encoding can be read back. -/
def ReadableInput (input : TxIn) : Prop :=
  Fits input.scriptSig.length

theorem readInput_undoes (input : TxIn) (rest : Bytes) (h : ReadableInput input) :
    readInput (Standard.input input ++ rest) = .ok (input.strip, rest) := by
  have hvout := input.previousOutput.vout.toNat_lt
  have hsequence := input.sequence.toNat_lt
  rw [readInput, Standard.input, List.append_assoc, List.append_assoc, List.append_assoc,
    readHash_append, Except.ok_bind]
  simp only [readLe_undoes 4 _ _ (show input.previousOutput.vout.toNat < 256 ^ 4 from hvout),
    readLengthed_undoes _ _ h,
    readLe_undoes 4 _ _ (show input.sequence.toNat < 256 ^ 4 from hsequence), Except.ok_bind,
    UInt32.ofNat_toNat]
  rfl

theorem readOutput_undoes :
    Undoes readOutput output fun output => Fits output.scriptPubkey.length := by
  intro output rest h
  have hvalue := output.value.toNat_lt
  rw [readOutput, Standard.output, List.append_assoc]
  simp only [readLe_undoes 8 _ _ (show output.value.toNat < 256 ^ 8 from hvalue),
    readLengthed_undoes _ _ h, Except.ok_bind, UInt64.ofNat_toNat]

/-- An input is written without its witness. -/
theorem counted_strip (inputs : List TxIn) :
    counted input (inputs.map TxIn.strip) = counted input inputs := by
  rw [counted, counted, List.length_map, List.flatMap_map]
  rfl

/-- The base encoding does not tell the witnesses. -/
theorem serializeBase_strip (tx : Transaction) : serializeBase tx.strip = serializeBase tx := by
  show toLe 4 tx.version.toNat ++ (counted input (tx.input.map TxIn.strip) ++
    counted output tx.output) ++ toLe 4 tx.lockTime.toNat = _
  rw [counted_strip]
  rfl

/-- Inputs without witnesses are read back. -/
theorem readInputs_undoes {inputs : List TxIn} (hlength : Fits inputs.length)
    (h : ∀ input ∈ inputs, ReadableInput input) (rest : Bytes) :
    readCounted readInput (counted input inputs ++ rest) = .ok (inputs.map TxIn.strip, rest) := by
  have hundoes : Undoes readInput input fun input => ReadableInput input ∧ input.strip = input := by
    intro input rest hinput
    rw [readInput_undoes input rest hinput.1, hinput.2]
  rw [← counted_strip]
  apply readCounted_undoes hundoes
  refine ⟨by rwa [List.length_map], ?_⟩
  intro stripped hmem
  obtain ⟨input, hinput, rfl⟩ := List.mem_map.mp hmem
  exact ⟨h input hinput, rfl⟩

theorem readWitnesses_undoes {inputs : List TxIn}
    (h : ∀ input ∈ inputs, Fits input.witness.length ∧ ∀ item ∈ input.witness, Fits item.length)
    (rest : Bytes) :
    readWitnesses (inputs.map TxIn.strip)
        (inputs.flatMap (fun input => counted lengthed input.witness) ++ rest) =
      .ok (inputs, rest) := by
  induction inputs with
  | nil => rfl
  | cons input inputs ih =>
      have hrest := ih fun other hother => h other (List.mem_cons_of_mem input hother)
      rw [List.map_cons, readWitnesses, List.flatMap_cons, List.append_assoc,
        readCounted_undoes readLengthed_undoes _ _ (h input List.mem_cons_self), Except.ok_bind]
      simp only [hrest, Except.ok_bind]
      rfl

end Standard

/-! ## Round trip -/

/-- Every length in a transaction can be written. -/
structure Transaction.Readable (tx : Transaction) : Prop where
  inputs : Standard.Fits tx.input.length
  outputs : Standard.Fits tx.output.length
  input : ∀ input ∈ tx.input, Standard.Fits input.scriptSig.length ∧
    Standard.Fits input.witness.length ∧ ∀ item ∈ input.witness, Standard.Fits item.length
  output : ∀ output ∈ tx.output, Standard.Fits output.scriptPubkey.length

namespace Standard

theorem strip_eq_self {inputs : List TxIn}
    (h : inputs.any (fun input => !input.witness.isEmpty) = false) :
    inputs.map TxIn.strip = inputs := by
  rw [List.any_eq_false] at h
  calc inputs.map TxIn.strip = inputs.map id := by
        apply List.map_congr_left
        intro input hinput
        have hempty : input.witness = [] := by simpa using h input hinput
        rw [TxIn.strip, ← hempty]
        rfl
    _ = inputs := List.map_id inputs

/-- **A transaction is read back** from what it is serialized to. -/
theorem readTransaction_undoes : Undoes readTransaction serialize Transaction.Readable := by
  intro tx rest h
  have hversion := tx.version.toNat_lt
  have hinputs := readInputs_undoes h.inputs fun input hinput => (h.input input hinput).1
  have houtputs := readCounted_undoes readOutput_undoes tx.output
  have hread : ∀ rest, readLe 4 (toLe 4 tx.version.toNat ++ rest) = .ok (tx.version.toNat, rest) :=
    fun rest => readLe_undoes 4 _ rest hversion
  have hlast : readLe 4 (toLe 4 tx.lockTime.toNat ++ rest) = .ok (tx.lockTime.toNat, rest) :=
    readLe_undoes 4 _ rest tx.lockTime.toNat_lt
  rw [serialize]
  split
  · next hsegwit =>
      -- no inputs, then the flag, then the transaction
      have hmarker : ∀ rest, readCounted readInput ([0, 1] ++ rest) = .ok ([], 1 :: rest) :=
        fun _ => rfl
      have hflag : ∀ rest : Bytes, readLe 1 (1 :: rest) = .ok (1, rest) := by
        intro rest
        exact readLe_undoes 1 1 rest (by decide)
      have hwitnesses := readWitnesses_undoes fun input hinput => (h.input input hinput).2
      have hnone : (!tx.input.isEmpty && tx.input.all fun input => input.witness.isEmpty) =
          false := by
        cases hempty : tx.input.isEmpty with
        | true => rfl
        | false =>
            rw [hempty, Bool.false_or, List.any_eq_true] at hsegwit
            obtain ⟨input, hinput, hwitness⟩ := hsegwit
            rw [Bool.not_false, Bool.true_and, List.all_eq_false]
            exact ⟨input, hinput, by simpa using hwitness⟩
      simp only [readTransaction, body, List.append_assoc, hread, hmarker, hflag, hinputs,
        houtputs _ ⟨h.outputs, h.output⟩, hwitnesses, hlast, hnone, Except.ok_bind,
        UInt32.ofNat_toNat]
      rfl
  · next hsegwit =>
      rw [Bool.or_eq_true, not_or, Bool.not_eq_true, Bool.not_eq_true] at hsegwit
      have hstrip := strip_eq_self hsegwit.2
      simp only [readTransaction, serializeBase, body, List.append_assoc, hread, hinputs, hstrip,
        hsegwit.1, houtputs _ ⟨h.outputs, h.output⟩, hlast, Except.ok_bind, UInt32.ofNat_toNat]
      rfl

/-- The transaction is all there is. -/
theorem deserialize_serialize {tx : Transaction} (h : tx.Readable) :
    deserialize (serialize tx) = .ok tx := by
  have hread := readTransaction_undoes tx [] h
  rw [List.append_nil] at hread
  rw [deserialize, hread]
  rfl

end Standard

/-! ## Sizes -/

namespace Standard

@[simp] theorem lengthed_length (bytes : Bytes) :
    (lengthed bytes).length = (compactSize bytes.length).length + bytes.length := by
  rw [lengthed, List.length_append]

@[simp] theorem counted_length {α : Type} (encode : α → Bytes) (items : List α) :
    (counted encode items).length =
      (compactSize items.length).length + (items.map fun item => (encode item).length).sum := by
  rw [counted, List.length_append, List.length_flatMap]

theorem compactSize_pos (n : ℕ) : 1 ≤ (compactSize n).length := by
  unfold compactSize
  split
  · simp
  · split
    · simp
    · split <;> simp

theorem input_length (input : TxIn) :
    (Standard.input input).length = 40 + (lengthed input.scriptSig).length := by
  rw [Standard.input, List.length_append, List.length_append, List.length_append,
    Vector.length_toList, toLe_length, toLe_length]
  omega

theorem output_length (output : TxOut) :
    (Standard.output output).length = 8 + (lengthed output.scriptPubkey).length := by
  rw [Standard.output, List.length_append, toLe_length]

/-- The encoding without witnesses. -/
theorem serializeBase_length (tx : Transaction) :
    (serializeBase tx).length = 8 + (body tx).length := by
  rw [serializeBase, List.length_append, List.length_append, toLe_length, toLe_length]
  omega

/-- The size of the witnesses of some inputs. -/
def witnessSize (inputs : List TxIn) : ℕ :=
  (inputs.map fun input => (counted lengthed input.witness).length).sum

/-- The encoding of a transaction with a witness has marker, flag and witnesses more. -/
theorem serialize_length {tx : Transaction}
    (h : tx.input.any (fun input => !input.witness.isEmpty) = true) :
    (serialize tx).length = (serializeBase tx).length + 2 + witnessSize tx.input := by
  rw [serialize, if_pos (by rw [h, Bool.or_true]), serializeBase_length, witnessSize]
  simp only [List.length_append, toLe_length, List.length_flatMap, List.length_cons,
    List.length_nil]
  omega

/-- Marker, flag and witnesses are all that is written beyond the rest. -/
theorem serialize_length_le (tx : Transaction) :
    (serialize tx).length ≤ (serializeBase tx).length + 2 + witnessSize tx.input := by
  rw [serialize, serializeBase_length, witnessSize]
  split
  · simp only [List.length_append, toLe_length, List.length_flatMap, List.length_cons,
      List.length_nil]
    omega
  · rw [serializeBase_length]
    omega

theorem serializeBase_length_le (tx : Transaction) :
    (serializeBase tx).length ≤ (serialize tx).length := by
  rw [serialize, serializeBase_length]
  split
  · simp only [List.length_append, toLe_length]
    omega
  · rw [serializeBase_length]

/-- An item takes at most what all of them take. -/
theorem length_le_counted {α : Type} (encode : α → Bytes) {items : List α} {item : α}
    (h : item ∈ items) : (encode item).length ≤ (counted encode items).length := by
  have hsum := List.le_sum_of_mem (List.mem_map_of_mem (f := fun item => (encode item).length) h)
  rw [counted_length]
  omega

/-- There are at most as many items as bytes. -/
theorem count_le_counted {α : Type} (encode : α → Bytes) {items : List α}
    (h : ∀ item, 1 ≤ (encode item).length) : items.length ≤ (counted encode items).length := by
  have hsum : items.length ≤ (items.map fun item => (encode item).length).sum := by
    induction items with
    | nil => exact Nat.le_refl 0
    | cons item items ih =>
        have hitem := h item
        rw [List.length_cons, List.map_cons, List.sum_cons]
        omega
  rw [counted_length]
  omega

end Standard

/-- What can be serialized at all can be read back. -/
theorem Transaction.readable_of_length {tx : Transaction}
    (h : (Standard.serialize tx).length < 2 ^ 64) : tx.Readable := by
  have hbase := Standard.serializeBase_length_le tx
  have hbody : (Standard.counted Standard.input tx.input).length +
      (Standard.counted Standard.output tx.output).length ≤ (Standard.serialize tx).length := by
    rw [Standard.serializeBase_length, Standard.body, List.length_append] at hbase
    omega
  constructor
  case inputs =>
    have hcount := @Standard.count_le_counted _ Standard.input tx.input fun input => by
      rw [Standard.input_length]
      omega
    rw [Standard.Fits]
    omega
  case outputs =>
    have hcount := @Standard.count_le_counted _ Standard.output tx.output fun output => by
      rw [Standard.output_length]
      omega
    rw [Standard.Fits]
    omega
  case input =>
    intro input hinput
    have hsize := Standard.length_le_counted Standard.input hinput
    rw [Standard.input_length, Standard.lengthed_length] at hsize
    refine ⟨by rw [Standard.Fits]; omega, ?_⟩
    cases hempty : input.witness with
    | nil =>
        refine ⟨by rw [Standard.Fits, List.length_nil]; exact Nat.two_pow_pos 64, ?_⟩
        intro item hitem
        cases hitem
    | cons item items =>
        -- a witness that is not empty is part of what is serialized
        have hany : tx.input.any (fun input => !input.witness.isEmpty) = true := by
          rw [List.any_eq_true]
          exact ⟨input, hinput, by rw [hempty]; rfl⟩
        have hserialize := Standard.serialize_length hany
        have hwitness : (Standard.counted Standard.lengthed input.witness).length ≤
            Standard.witnessSize tx.input :=
          List.le_sum_of_mem (List.mem_map_of_mem hinput)
        rw [← hempty]
        constructor
        · have hcount := @Standard.count_le_counted _ Standard.lengthed input.witness fun item => by
            rw [Standard.lengthed_length]
            exact Nat.le_add_right_of_le (Standard.compactSize_pos _)
          rw [Standard.Fits]
          omega
        · intro item hitem
          have hitem := Standard.length_le_counted Standard.lengthed hitem
          rw [Standard.lengthed_length] at hitem
          rw [Standard.Fits]
          omega
  case output =>
    intro output houtput
    have hsize := Standard.length_le_counted Standard.output houtput
    rw [Standard.output_length, Standard.lengthed_length] at hsize
    rw [Standard.Fits]
    omega

namespace Transaction

/-- `Transaction::weight`: the encoding without witnesses counts three times more. -/
def weight (tx : Transaction) : ℕ :=
  (Standard.serializeBase tx).length * 3 + (Standard.serialize tx).length

/-- `Transaction::vsize`. -/
def vsize (tx : Transaction) : ℕ :=
  (tx.weight + 3) / 4

theorem serialize_length_le (tx : Transaction) : (Standard.serialize tx).length ≤ tx.weight := by
  rw [weight]
  omega

end Transaction

end Urma.Chain
