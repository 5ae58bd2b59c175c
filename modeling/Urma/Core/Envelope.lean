import Urma.Core.Container
import Urma.Core.Multipart
import Urma.Core.PublicRecord
import Urma.Lib.Script

/-!
# The envelope

`urma_core::envelope`: a record is carried by the script of a Taproot leaf, in a branch that is
never executed, and revealed by the witness that spends it. Scripts, keys and Taproot trees are
those of the `bitcoin` crate, which is a parameter of the model; `BitcoinCrate.Lawful` is what the
envelope relies on.
-/

namespace Urma

open Lib.Layout Lib.Script

/-! ## The crate -/

/-- `bitcoin::taproot::ControlBlock`, as far as it is read. -/
structure ControlBlock where
  leafVersion : UInt8
  internalKey : XOnlyPublicKey
  deriving DecidableEq

/-- What the envelope takes from the `bitcoin` crate. -/
structure BitcoinCrate where
  SpendInfo : Type
  /-- `Builder::push_int`. -/
  pushInt : Int → Bytes
  /-- `Builder::push_slice`. -/
  pushSlice : Bytes → Bytes
  /-- `Script::instructions_minimal`. -/
  instructionsMinimal : Bytes → List (Except Error Instruction)
  /-- The `Debug` text of an instruction, or of the failure to read one. -/
  debugInstruction : Except Error Instruction → String
  /-- `XOnlyPublicKey::from_slice`. -/
  keyFromSlice : Bytes → Except Error XOnlyPublicKey
  /-- `ControlBlock::decode`. -/
  decodeControl : Bytes → Except Error ControlBlock
  /-- `TaprootBuilder::new().add_leaf(0, script)?.finalize(secp, key)`. -/
  spendInfo : Bytes → XOnlyPublicKey → Except Error SpendInfo
  /-- `TaprootSpendInfo::control_block` of a tapscript leaf, serialized. -/
  controlBlock : SpendInfo → Bytes → Option Bytes

/-! ## Opcodes -/

namespace Opcode

def checkSig : UInt8 := 172
def opIf : UInt8 := 99
def endIf : UInt8 := 104

end Opcode

/-- `LeafVersion::TapScript`. -/
def tapScript : UInt8 := 192

namespace Envelope

open Format

variable (crate : BitcoinCrate)

/-! ## Building -/

/-- `validate_record`. -/
def validateRecord (record : Bytes) : Except Error Unit := do
  let kind ← RecordKind.parse record
  match kind with
  | .privateRecord => do
      let _ ← Container.inspectHeader record
  | .dataPart | .leafManifest | .rootManifest => do
      let _ ← MultipartRecord.decode record
  | .container => .error (.invalid "offline container cannot be published as a record")
  | .post | .reply | .profile | .avatar | .wirePost | .wireReply | .profileRecord => do
      let _ ← PublicRecord.decode record

/-- One part of the record, in the loop of `record_script`. -/
def pushPart (part : Bytes) : Bytes :=
  match part with
  | [value] =>
      if 1 ≤ value ∧ value ≤ 16 then crate.pushInt value.toNat
      else if value = 129 then crate.pushInt (-1)
      else crate.pushSlice part
  | _ => crate.pushSlice part

/-- What a script starts with, up to the record: `push_x_only_key` to `push_slice(MAGIC)`. -/
def scriptHead (author : XOnlyPublicKey) : Bytes :=
  crate.pushSlice author.serialize.toList ++ (Opcode.checkSig :: (crate.pushInt 0 ++
    (Opcode.opIf :: crate.pushSlice magic)))

/-- `record_script`. Its only error is that of a part above 4 GiB, and parts have 520 bytes. -/
def recordScript (record : Bytes) (author : XOnlyPublicKey) : Bytes :=
  scriptHead crate author ++ ((chunks 520 record).flatMap (pushPart crate) ++ [Opcode.endIf])

/-- `build_for_author`. -/
def buildForAuthor (record : Bytes) (author : XOnlyPublicKey) :
    Except Error (Bytes × crate.SpendInfo) := do
  validateRecord record
  let script := recordScript crate record author
  let info ← crate.spendInfo script author
  .ok (script, info)

/-- `witness`. -/
def witness (signature script : Bytes) (info : crate.SpendInfo) : Except Error (List Bytes) := do
  ensure (signature.length == 64) "URMA requires implicit SIGHASH_DEFAULT"
  let control ← context (crate.controlBlock info script) "script missing from Taproot tree"
  ensure (control.length == 33) "URMA requires one leaf"
  .ok [signature, script, control]

/-! ## Reading -/

/-- `is_candidate`. -/
def isCandidate (witness : List Bytes) : Bool :=
  match witness with
  | [_, script, _] =>
      41 ≤ script.length && slice script 34 41 == [0, 99, 4, 85, 82, 77, 65]
  | _ => false

/-- `ParsedEnvelope`. -/
structure ParsedEnvelope where
  author : XOnlyPublicKey
  record : Bytes
  script : Bytes
  control : ControlBlock
  deriving DecidableEq

/-- The loop of `extract_envelope` over the instructions of the branch. -/
def readRecord : List (Except Error Instruction) → Bytes → Except Error Bytes
  | [], _ => .error (.missing "missing envelope end")
  | .error error :: _, _ => .error error
  | .ok (.pushBytes part) :: ops, record => do
      ensure (!part.isEmpty && part.length ≤ 520) "invalid record segment"
      let record := record ++ part
      ensure (record.length ≤ Geometry.recordBytes) "record too large"
      readRecord ops record
  | .ok (.op opcode) :: ops, record =>
      if opcode = Opcode.endIf then
        match ops with
        | [] => .ok record
        | instruction :: _ => .error (.invalid
            s!"trailing script instruction: {crate.debugInstruction instruction}")
      else if 81 ≤ opcode ∧ opcode ≤ 96 then do
        let record := record ++ [opcode - 80]
        ensure (record.length ≤ Geometry.recordBytes) "record too large"
        readRecord ops record
      else if opcode = 79 then do
        let record := record ++ [129]
        ensure (record.length ≤ Geometry.recordBytes) "record too large"
        readRecord ops record
      else .error (.invalid
        s!"invalid envelope instruction {crate.debugInstruction (.ok (.op opcode))}")

/-- The largest script: every part of the largest record behind a three-byte push. -/
def maxScriptBytes : ℕ :=
  Geometry.recordBytes + 3 * ((Geometry.recordBytes + 519) / 520) + 42

/-- `extract_envelope`. -/
def extractEnvelope (witness : List Bytes) : Except Error ParsedEnvelope := do
  ensure (witness.length == 3) "invalid witness item count"
  let signature := witness.getD 0 []
  let script := witness.getD 1 []
  let control := witness.getD 2 []
  ensure (signature.length == 64 && control.length == 33) "invalid signature or control length"
  ensure (42 ≤ script.length && script.length ≤ maxScriptBytes) "script size out of bounds"
  let author ← crate.keyFromSlice (slice script 1 33)
  let control ← crate.decodeControl control
  ensure (control.leafVersion == tapScript && control.internalKey == author)
    "invalid author/internal-key commitment"
  let record ← readRecord crate ((crate.instructionsMinimal script).drop 5) []
  ensure (recordScript crate record author == script) "noncanonical envelope or segmentation"
  .ok { author, record, script, control }

/-- `extract`. -/
def extract (witness : List Bytes) : Except Error ParsedEnvelope := do
  let parsed ← extractEnvelope crate witness
  validateRecord parsed.record
  .ok parsed

end Envelope

end Urma
