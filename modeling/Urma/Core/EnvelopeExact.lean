import Mathlib.Data.List.Basic
import Urma.Core.Envelope

/-!
# The envelope is exact

Whatever the `bitcoin` crate is, as long as its builder emits minimal pushes and its strict reader
accepts them: the witness built for a record reveals that record and its author, and a witness
that is accepted carries the one script of the record it reveals.
-/

namespace Urma

open Lib.Layout Lib.Script

/-! ## What the envelope relies on -/

/-- The builder emits minimal pushes, the strict reader accepts them and the opcodes that are not
pushes, and the control block of a tree of one leaf is that of the key it was built for. -/
structure BitcoinCrate.Lawful (crate : BitcoinCrate) : Prop where
  pushInt_zero : crate.pushInt 0 = push []
  pushInt_number : ∀ n : ℕ, 1 ≤ n → n ≤ 16 → crate.pushInt n = [UInt8.ofNat (80 + n)]
  pushInt_negOne : crate.pushInt (-1) = [79]
  pushSlice : ∀ bytes, bytes.length ≤ 520 → crate.pushSlice bytes = push bytes
  instructions_nil : crate.instructionsMinimal [] = []
  instructions_push : ∀ bytes rest, bytes.length ≤ 520 → isNumber bytes = false →
    crate.instructionsMinimal (push bytes ++ rest) =
      .ok (.pushBytes bytes) :: crate.instructionsMinimal rest
  instructions_op : ∀ (opcode : UInt8) rest, 79 ≤ opcode.toNat →
    crate.instructionsMinimal (opcode :: rest) =
      .ok (.op opcode) :: crate.instructionsMinimal rest
  control : ∀ script author info, crate.spendInfo script author = .ok info →
    ∃ bytes control, crate.controlBlock info script = some bytes ∧ bytes.length = 33 ∧
      crate.decodeControl bytes = .ok control ∧ control.leafVersion = tapScript ∧
        control.internalKey = author

/-- A key the crate accepts as its own bytes. -/
def BitcoinCrate.IsKey (crate : BitcoinCrate) (key : XOnlyPublicKey) : Prop :=
  crate.keyFromSlice key.serialize.toList = .ok key

namespace Envelope

open Format

variable {crate : BitcoinCrate} {record : Bytes} {author : XOnlyPublicKey}

/-! ## Parts -/

theorem isNumber_of_length {bytes : Bytes} (h : bytes.length ≠ 1) : isNumber bytes = false := by
  match bytes with
  | [] => rfl
  | [_] => exact absurd rfl h
  | _ :: _ :: _ => rfl

/-- The parts of a record are neither empty nor above 520 bytes. -/
theorem part_bounds {part : Bytes} (h : part ∈ chunks 520 record) :
    1 ≤ part.length ∧ part.length ≤ 520 := by
  obtain ⟨i, hi⟩ := List.mem_iff_getElem?.mp h
  rw [chunks_getElem? (by decide)] at hi
  split at hi
  · next hstart =>
      cases hi
      rw [List.length_take, List.length_drop]
      omega
  · cases hi

/-- How a part is read back from its push. -/
def partInstruction : Bytes → Instruction
  | [value] =>
      if 1 ≤ value ∧ value ≤ 16 then .op (value + 80)
      else if value = 129 then .op 79
      else .pushBytes [value]
  | part => .pushBytes part

/-- The opcode of a small number, as the builder and the reader write it. -/
theorem opcode_toNat {value : UInt8} (h : value ≤ 16) : (value + 80).toNat = 80 + value.toNat := by
  have hmax : value.toNat ≤ 16 := h
  rw [UInt8.toNat_add]
  show (value.toNat + 80) % 256 = _
  omega

/-- **A part is one of three**: a small number, minus one, or data to push. -/
theorem part_cases (part : Bytes) :
    (∃ value, part = [value] ∧ 1 ≤ value ∧ value ≤ 16 ∧
      pushPart crate part = crate.pushInt value.toNat ∧
        partInstruction part = .op (value + 80)) ∨
    (part = [129] ∧ pushPart crate part = crate.pushInt (-1) ∧ partInstruction part = .op 79) ∨
    (isNumber part = false ∧ pushPart crate part = crate.pushSlice part ∧
      partInstruction part = .pushBytes part) := by
  match part with
  | [] => exact Or.inr (Or.inr ⟨rfl, rfl, rfl⟩)
  | _ :: _ :: _ => exact Or.inr (Or.inr ⟨rfl, rfl, rfl⟩)
  | [value] =>
      by_cases hsmall : 1 ≤ value ∧ value ≤ 16
      · refine Or.inl ⟨value, rfl, hsmall.1, hsmall.2, if_pos hsmall, if_pos hsmall⟩
      · by_cases hneg : value = 129
        · rw [hneg]
          exact Or.inr (Or.inl ⟨rfl, rfl, rfl⟩)
        · refine Or.inr (Or.inr ⟨?_, ?_, ?_⟩)
          · have hbeq : (value == 129) = false := beq_eq_false_iff_ne.mpr hneg
            have hrange : (decide (1 ≤ value) && decide (value ≤ 16)) = false := by
              rw [← Bool.decide_and, decide_eq_false_iff_not]
              exact hsmall
            rw [isNumber, hbeq, hrange]
            rfl
          · rw [pushPart, if_neg hsmall, if_neg hneg]
          · rw [partInstruction, if_neg hsmall, if_neg hneg]

theorem instructions_pushPart (h : crate.Lawful) {part : Bytes} (hlength : part.length ≤ 520)
    (rest : Bytes) :
    crate.instructionsMinimal (pushPart crate part ++ rest) =
      .ok (partInstruction part) :: crate.instructionsMinimal rest := by
  rcases @part_cases crate part with ⟨value, _, hone, hmax, hpush, hread⟩ | ⟨_, hpush, hread⟩ |
    ⟨hnumber, hpush, hread⟩
  · have hopcode := opcode_toNat hmax
    have hbyte : UInt8.ofNat (80 + value.toNat) = value + 80 := by
      rw [← hopcode, UInt8.ofNat_toNat]
    rw [hpush, hread, h.pushInt_number value.toNat hone hmax, hbyte]
    apply h.instructions_op
    omega
  · rw [hpush, hread, h.pushInt_negOne]
    exact h.instructions_op 79 rest (by decide)
  · rw [hpush, hread, h.pushSlice part hlength]
    exact h.instructions_push part rest hlength hnumber

/-- The parts of a record are read back in order. -/
theorem instructions_pushParts (h : crate.Lawful) {parts : List Bytes}
    (hparts : ∀ part ∈ parts, part.length ≤ 520) (rest : Bytes) :
    crate.instructionsMinimal (parts.flatMap (pushPart crate) ++ rest) =
      parts.map (fun part => .ok (partInstruction part)) ++ crate.instructionsMinimal rest := by
  induction parts with
  | nil => rfl
  | cons part parts ih =>
      have htail := ih (fun part hmem => hparts part (List.mem_cons_of_mem _ hmem))
      rw [List.flatMap_cons, List.append_assoc,
        instructions_pushPart h (hparts part List.mem_cons_self), htail]
      rfl

theorem readRecord_push {part acc : Bytes} {ops : List (Except Error Instruction)}
    (hpart : 1 ≤ part.length ∧ part.length ≤ 520)
    (hcap : (acc ++ part).length ≤ Geometry.recordBytes) :
    readRecord crate (.ok (.pushBytes part) :: ops) acc = readRecord crate ops (acc ++ part) := by
  have hsegment : (!part.isEmpty && decide (part.length ≤ 520)) = true := by
    rw [Bool.and_eq_true, decide_eq_true_eq]
    refine ⟨?_, hpart.2⟩
    cases part with
    | nil => exact absurd hpart.1 (by decide)
    | cons _ _ => rfl
  rw [readRecord.eq_def]
  simp only [hsegment, ensure_true, Except.ok_bind, decide_eq_true hcap]

theorem readRecord_op {opcode value : UInt8} {acc : Bytes}
    {ops : List (Except Error Instruction)} (hend : opcode ≠ Opcode.endIf)
    (hvalue : (81 ≤ opcode ∧ opcode ≤ 96) ∧ opcode - 80 = value ∨ opcode = 79 ∧ value = 129)
    (hcap : (acc ++ [value]).length ≤ Geometry.recordBytes) :
    readRecord crate (.ok (.op opcode) :: ops) acc = readRecord crate ops (acc ++ [value]) := by
  rw [readRecord.eq_def]
  simp only [if_neg hend]
  rcases hvalue with ⟨hrange, rfl⟩ | ⟨rfl, rfl⟩
  · rw [if_pos hrange, decide_eq_true hcap, ensure_true, Except.ok_bind]
  · rw [if_neg (by decide), if_pos rfl, decide_eq_true hcap, ensure_true, Except.ok_bind]

/-- **The loop collects the record** from the instructions of its parts. -/
theorem readRecord_parts {parts : List Bytes} {acc : Bytes}
    (hparts : ∀ part ∈ parts, 1 ≤ part.length ∧ part.length ≤ 520)
    (hlength : acc.length + parts.flatten.length ≤ Geometry.recordBytes) :
    readRecord crate (parts.map (fun part => .ok (partInstruction part)) ++
      [.ok (.op Opcode.endIf)]) acc = .ok (acc ++ parts.flatten) := by
  induction parts generalizing acc with
  | nil =>
      rw [List.flatten_nil, List.append_nil]
      rfl
  | cons part parts ih =>
      have hpart := hparts part List.mem_cons_self
      rw [List.flatten_cons, List.length_append] at hlength
      have htail : readRecord crate (parts.map (fun part => .ok (partInstruction part)) ++
          [.ok (.op Opcode.endIf)]) (acc ++ part) = .ok (acc ++ part ++ parts.flatten) := by
        apply ih (fun part hmem => hparts part (List.mem_cons_of_mem _ hmem))
        rw [List.length_append]
        omega
      have hcap : (acc ++ part).length ≤ Geometry.recordBytes := by
        rw [List.length_append]
        omega
      rw [List.map_cons, List.cons_append, List.flatten_cons, ← List.append_assoc, ← htail]
      rcases @part_cases crate part with ⟨value, rfl, hone, hmax, _, hread⟩ | ⟨rfl, _, hread⟩ |
        ⟨_, _, hread⟩
      · have hopcode := opcode_toNat hmax
        have honeNat : 1 ≤ value.toNat := hone
        have hmaxNat : value.toNat ≤ 16 := hmax
        rw [hread]
        apply readRecord_op _ _ hcap
        · intro heq
          rw [heq] at hopcode
          have hend : Opcode.endIf.toNat = 104 := rfl
          omega
        · refine Or.inl ⟨⟨?_, ?_⟩, UInt8.add_sub_cancel value 80⟩
          · show 81 ≤ (value + 80).toNat
            omega
          · show (value + 80).toNat ≤ 96
            omega
      · rw [hread]
        exact readRecord_op (by decide) (Or.inr ⟨rfl, rfl⟩) hcap
      · rw [hread]
        exact readRecord_push hpart hcap

/-! ## The script -/

/-- The first five instructions of a script, and those of the record and of the end. -/
theorem instructions_recordScript (h : crate.Lawful) :
    crate.instructionsMinimal (recordScript crate record author) =
      [.ok (.pushBytes author.serialize.toList), .ok (.op Opcode.checkSig), .ok (.pushBytes []),
        .ok (.op Opcode.opIf), .ok (.pushBytes magic)] ++
      ((chunks 520 record).map (fun part => .ok (partInstruction part)) ++
        [.ok (.op Opcode.endIf)]) := by
  have hkey : author.serialize.toList.length = 32 := Vector.length_toList
  have hend : crate.instructionsMinimal [Opcode.endIf] = [.ok (.op Opcode.endIf)] := by
    rw [h.instructions_op _ _ (by decide), h.instructions_nil]
  have hparts : ∀ part ∈ chunks 520 record, part.length ≤ 520 :=
    fun part hmem => (part_bounds hmem).2
  rw [recordScript, scriptHead, h.pushSlice _ (by omega), h.pushInt_zero,
    h.pushSlice magic (by decide)]
  simp only [List.append_assoc, List.cons_append]
  rw [h.instructions_push _ _ (by omega) (isNumber_of_length (by omega)),
    h.instructions_op _ _ (by decide), h.instructions_push _ _ (by decide) rfl,
    h.instructions_op _ _ (by decide), h.instructions_push _ _ (by decide) rfl,
    instructions_pushParts h hparts, hend]
  rfl

/-- The bytes a script starts with. -/
theorem scriptHead_eq (h : crate.Lawful) :
    scriptHead crate author =
      32 :: (author.serialize.toList ++ [172, 0, 99, 4, 85, 82, 77, 65]) := by
  have hkey : author.serialize.toList.length = 32 := Vector.length_toList
  have hprefix : pushPrefix author.serialize.toList.length = [32] := by
    rw [hkey]
    rfl
  rw [scriptHead, h.pushSlice _ (by omega), h.pushInt_zero, h.pushSlice magic (by decide), push,
    hprefix]
  rfl

/-- A push takes at most three bytes more than its part. -/
theorem pushPart_length (h : crate.Lawful) {part : Bytes} (hlength : part.length ≤ 520) :
    (pushPart crate part).length ≤ part.length + 3 := by
  rcases @part_cases crate part with ⟨value, rfl, hone, hmax, hpush, _⟩ | ⟨rfl, hpush, _⟩ |
    ⟨_, hpush, _⟩
  · rw [hpush, h.pushInt_number value.toNat hone hmax]
    simp
  · rw [hpush, h.pushInt_negOne]
    simp
  · rw [hpush, h.pushSlice part hlength, push, List.length_append]
    have hprefix := (pushPrefix_length_le (Nat.lt_of_le_of_lt hlength (by decide))).2
    omega

/-- **The size bound admits every record** within the cap. -/
theorem recordScript_length (h : crate.Lawful) (hlength : record.length ≤ Geometry.recordBytes) :
    42 ≤ (recordScript crate record author).length ∧
      (recordScript crate record author).length ≤ maxScriptBytes := by
  have hparts : ∀ parts : List Bytes, (∀ part ∈ parts, part.length ≤ 520) →
      (parts.flatMap (pushPart crate)).length ≤ parts.flatten.length + 3 * parts.length := by
    intro parts hbound
    induction parts with
    | nil => exact Nat.zero_le _
    | cons part parts ih =>
        have hpart := pushPart_length h (hbound part List.mem_cons_self)
        have htail := ih (fun part hmem => hbound part (List.mem_cons_of_mem _ hmem))
        rw [List.flatMap_cons, List.flatten_cons, List.length_append, List.length_append,
          List.length_cons]
        omega
  have hbody := hparts (chunks 520 record) (fun part hmem => (part_bounds hmem).2)
  rw [chunks_flatten (by decide), chunks_length] at hbody
  have hkey : author.serialize.toList.length = 32 := Vector.length_toList
  have htotal : (recordScript crate record author).length =
      42 + ((chunks 520 record).flatMap (pushPart crate)).length := by
    rw [recordScript, scriptHead_eq h]
    simp only [List.length_append, List.length_cons, List.length_nil, hkey]
    omega
  have hchunks : (record.length + 519) / 520 ≤ (Geometry.recordBytes + 519) / 520 :=
    Nat.div_le_div_right (Nat.add_le_add_right hlength 519)
  rw [htotal]
  constructor
  · exact Nat.le_add_right _ _
  · unfold maxScriptBytes
    generalize (Geometry.recordBytes + 519) / 520 = most at hchunks ⊢
    generalize Geometry.recordBytes = cap at hlength ⊢
    omega

/-- A script starts with the push of its key. -/
theorem recordScript_key (h : crate.Lawful) :
    slice (recordScript crate record author) 1 33 = author.serialize.toList := by
  apply slice_eq [32] _ ([172, 0, 99, 4, 85, 82, 77, 65] ++
    ((chunks 520 record).flatMap (pushPart crate) ++ [Opcode.endIf]))
  · rw [recordScript, scriptHead_eq h, List.cons_append, List.append_assoc]
    rfl
  · rfl
  · rw [Vector.length_toList]

/-- And the marker of the envelope stands behind it. -/
theorem recordScript_marker (h : crate.Lawful) :
    slice (recordScript crate record author) 34 41 = [0, 99, 4, 85, 82, 77, 65] := by
  apply slice_eq (32 :: (author.serialize.toList ++ [172])) _
    ((chunks 520 record).flatMap (pushPart crate) ++ [Opcode.endIf])
  · rw [recordScript, scriptHead_eq h]
    simp
  · simp
  · rfl

/-! ## Both directions -/

variable {signature : Bytes} {items : List Bytes} {parsed : ParsedEnvelope}

/-- **The witness of a record reveals it.** -/
theorem extractEnvelope_witness (h : crate.Lawful) (hkey : crate.IsKey author)
    (hrecord : record.length ≤ Geometry.recordBytes) (hsignature : signature.length = 64)
    {info : crate.SpendInfo} (hinfo : crate.spendInfo (recordScript crate record author) author =
      .ok info) :
    ∃ items, witness crate signature (recordScript crate record author) info = .ok items ∧
      ∃ control, extractEnvelope crate items =
        .ok ⟨author, record, recordScript crate record author, control⟩ := by
  obtain ⟨bytes, control, hcontrol, hlength, hdecode, hversion, hinternal⟩ :=
    h.control _ _ _ hinfo
  obtain ⟨hleast, hmost⟩ := @recordScript_length crate record author h hrecord
  have hread : readRecord crate ((crate.instructionsMinimal
      (recordScript crate record author)).drop 5) [] = .ok record := by
    rw [instructions_recordScript h]
    have hflatten : (chunks 520 record).flatten = record := chunks_flatten (by decide) record
    have hparts := @readRecord_parts crate (chunks 520 record) []
      (fun part hmem => part_bounds hmem) (by rw [hflatten, List.length_nil]; omega)
    rw [hflatten, List.nil_append] at hparts
    exact hparts
  refine ⟨[signature, recordScript crate record author, bytes], ?_, control, ?_⟩
  · simp only [witness, Except.bind_eq_ok, ensure_eq_ok, context_eq_ok, beq_iff_eq]
    exact ⟨(), hsignature, bytes, hcontrol, (), hlength, rfl⟩
  · simp only [extractEnvelope, Except.bind_eq_ok, ensure_eq_ok, Bool.and_eq_true,
      decide_eq_true_eq, beq_iff_eq]
    refine ⟨(), rfl, (), ⟨hsignature, hlength⟩, (), ⟨hleast, hmost⟩, author, ?_, control,
      hdecode, (), ⟨hversion, hinternal⟩, record, hread, (), rfl, rfl⟩
    rw [← hkey, ← recordScript_key h]
    rfl

/-- **An accepted witness carries the script of the record it reveals.** -/
theorem extractEnvelope_script (h : extractEnvelope crate items = .ok parsed) :
    ∃ signature control, signature.length = 64 ∧ control.length = 33 ∧
      items = [signature, recordScript crate parsed.record parsed.author, control] := by
  simp only [extractEnvelope, Except.bind_eq_ok, ensure_eq_ok, Bool.and_eq_true,
    decide_eq_true_eq, beq_iff_eq] at h
  obtain ⟨_, hitems, _, hlengths, _, _, author, _, control, _, _, _, record, _, _, hscript,
    hparsed⟩ := h
  cases hparsed
  obtain ⟨signature, script, control, rfl⟩ := List.length_eq_three.mp hitems
  have hscript : recordScript crate record author = script := hscript
  exact ⟨signature, control, hlengths.1, hlengths.2, by rw [hscript]⟩

/-- A script of the envelope passes the cheap test. -/
theorem isCandidate_recordScript (h : crate.Lawful) (signature control : Bytes) :
    isCandidate [signature, recordScript crate record author, control] = true := by
  have hlength : 41 ≤ (recordScript crate record author).length := by
    rw [recordScript, scriptHead_eq h]
    simp only [List.length_append, List.length_cons, List.length_nil, Vector.length_toList]
    omega
  rw [isCandidate, recordScript_marker h, decide_eq_true hlength]
  rfl

/-- **The envelope is exact.** The witness built for a record reveals that record and its author;
an accepted witness carries the one script of its record and passes the cheap test; and the size
bound admits the script of every record within the cap. -/
theorem envelope_exact (crate : BitcoinCrate) (h : crate.Lawful) :
    (∀ (record : Bytes) (author : XOnlyPublicKey) (signature : Bytes) (info : crate.SpendInfo),
      record.length ≤ Geometry.recordBytes → crate.IsKey author → signature.length = 64 →
      crate.spendInfo (recordScript crate record author) author = .ok info →
      ∃ items, witness crate signature (recordScript crate record author) info = .ok items ∧
        ∃ parsed, extractEnvelope crate items = .ok parsed ∧ parsed.record = record ∧
          parsed.author = author) ∧
    (∀ (items : List Bytes) (parsed : ParsedEnvelope), extractEnvelope crate items = .ok parsed →
      (∃ signature control,
        items = [signature, recordScript crate parsed.record parsed.author, control]) ∧
      isCandidate items = true) ∧
    ∀ (record : Bytes) (author : XOnlyPublicKey), record.length ≤ Geometry.recordBytes →
      42 ≤ (recordScript crate record author).length ∧
        (recordScript crate record author).length ≤ maxScriptBytes := by
  refine ⟨?_, ?_, ?_⟩
  · intro record author signature info hrecord hkey hsignature hinfo
    obtain ⟨items, hitems, control, hparsed⟩ :=
      extractEnvelope_witness h hkey hrecord hsignature hinfo
    exact ⟨items, hitems, _, hparsed, rfl, rfl⟩
  · intro items parsed hparsed
    obtain ⟨signature, control, _, _, hitems⟩ := extractEnvelope_script hparsed
    refine ⟨⟨signature, control, hitems⟩, ?_⟩
    rw [hitems]
    exact isCandidate_recordScript h signature control
  · intro record author hrecord
    exact recordScript_length h hrecord

/-! ## A sample -/

namespace Sample

/-- `XOnlyPublicKey::from_slice`, for keys known to be on the curve. -/
def keyFromSlice (bytes : Bytes) : Except Error XOnlyPublicKey :=
  match tryInto 32 bytes with
  | .ok key => .ok ⟨key⟩
  | .error _ => .error .secp256k1

/-- A control block is a version byte with the parity in its low bit, the internal key and a
branch, which is empty in a tree of one leaf. -/
def decodeControl (bytes : Bytes) : Except Error ControlBlock :=
  if 33 ≤ bytes.length ∧ (bytes.length - 33) % 32 = 0 then do
    let internalKey ← keyFromSlice (slice bytes 1 33)
    .ok { leafVersion := bytes.headD 0 &&& 254, internalKey }
  else .error .taproot

/-- Scripts as in `Lib.Script`; a tree is its only leaf and its key, and its output key is even. -/
def library : BitcoinCrate where
  SpendInfo := Bytes × XOnlyPublicKey
  pushInt n :=
    if n = 0 then [0]
    else if n = -1 then [79]
    else if 1 ≤ n ∧ n ≤ 16 then [UInt8.ofNat (80 + n.toNat)]
    else push (toLe 8 n.natAbs)
  pushSlice := push
  instructionsMinimal := instructions .script
  debugInstruction _ := "instruction"
  keyFromSlice := keyFromSlice
  decodeControl := decodeControl
  spendInfo script key := .ok (script, key)
  controlBlock info script :=
    if info.1 = script then some (tapScript :: info.2.serialize.toList) else none

theorem keyFromSlice_serialize (key : XOnlyPublicKey) :
    keyFromSlice key.serialize.toList = .ok key := by
  rw [keyFromSlice, tryInto_toList]

theorem library_lawful : library.Lawful where
  pushInt_zero := rfl
  pushInt_number := by
    intro n hone hmax
    have hzero : (n : Int) ≠ 0 := by omega
    have hneg : (n : Int) ≠ -1 := by omega
    have hrange : 1 ≤ (n : Int) ∧ (n : Int) ≤ 16 := by omega
    simp only [library, if_neg hzero, if_neg hneg, if_pos hrange, Int.toNat_natCast]
  pushInt_negOne := rfl
  pushSlice _ _ := rfl
  instructions_nil := rfl
  instructions_push := by
    intro bytes rest hlength hnumber
    exact instructions_push Error.script (Nat.lt_of_le_of_lt hlength (by decide)) hnumber rest
  instructions_op := by
    intro opcode rest hopcode
    exact instructions_op Error.script hopcode rest
  control := by
    intro script author info hinfo
    cases hinfo
    have hlength : author.serialize.toList.length = 32 := Vector.length_toList
    have hversion : tapScript &&& 254 = tapScript := by decide
    have hslice : slice (tapScript :: author.serialize.toList) 1 33 =
        author.serialize.toList := by
      apply slice_eq [tapScript] _ [] <;> simp
    refine ⟨_, ⟨tapScript, author⟩, if_pos rfl, by rw [List.length_cons, hlength], ?_, rfl, rfl⟩
    show decodeControl (tapScript :: author.serialize.toList) = _
    rw [decodeControl, List.length_cons, hlength, if_pos (by decide), hslice,
      keyFromSlice_serialize, Except.ok_bind, List.headD_cons, hversion]

/-- The x coordinate of the generator of the curve. -/
def generator : XOnlyPublicKey :=
  ⟨#v[121, 190, 102, 126, 249, 220, 187, 172, 85, 160, 98, 149, 206, 135, 11, 7, 2, 155, 252, 219,
    45, 206, 40, 217, 89, 242, 129, 91, 22, 248, 23, 152]⟩

/-- A post. -/
def post : Bytes :=
  RecordKind.post.prefixOf ++ [104, 101, 108, 108, 111]

end Sample

theorem envelope_exact_post :
    ∃ items, witness Sample.library (List.replicate 64 1)
        (recordScript Sample.library Sample.post Sample.generator)
        (recordScript Sample.library Sample.post Sample.generator, Sample.generator) = .ok items ∧
      ∃ parsed, extractEnvelope Sample.library items = .ok parsed ∧
        parsed.record = Sample.post ∧ parsed.author = Sample.generator :=
  (envelope_exact Sample.library Sample.library_lawful).1 Sample.post Sample.generator
    (List.replicate 64 1) (recordScript Sample.library Sample.post Sample.generator, Sample.generator)
    (by decide) (Sample.keyFromSlice_serialize Sample.generator) List.length_replicate rfl

end Envelope

end Urma
