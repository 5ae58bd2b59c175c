import Urma.Core.Multipart

/-!
# Consistency of a publication

`urma_core::multipart::consistency`: the records of an object are seen once each, in the order
they are published, and nothing but running hashes and counters is kept of them. A running hash
is the bytes it has been fed; finalizing it applies the hash. A failed call of the source may
leave its state half updated; its callers give up then, so the model keeps no state after an
error.
-/

namespace Urma

/-- `MultipartConsistency`. -/
structure MultipartConsistency where
  parts : ℕ
  leaves : ℕ
  length : ℕ
  lastPartLength : ℕ
  lastLeafEntries : ℕ
  payloadHash : Bytes
  groupHash : Bytes
  groups : List Bytes32
  leavesHash : Bytes
  deriving DecidableEq

namespace MultipartConsistency

/-- `u32::checked_add`. -/
def checkedAdd32 (a b : ℕ) : Option ℕ :=
  if a + b ≤ u32Max then some (a + b) else none

/-- `u16::checked_add`. -/
def checkedAdd16 (a b : ℕ) : Option ℕ :=
  if a + b ≤ u16Max then some (a + b) else none

/-- `MultipartConsistency::new`. -/
def new : MultipartConsistency where
  parts := 0
  leaves := 0
  length := 0
  lastPartLength := 0
  lastLeafEntries := 0
  payloadHash := []
  groupHash := []
  groups := []
  leavesHash := []

variable (sha256 : Bytes → Bytes32)

/-- `references_hash`. -/
def referencesHash (entries : List ChildReference) : Bytes32 :=
  sha256 (encodeReferences entries)

/-- `accept_data`. -/
def acceptData (state : MultipartConsistency) (part : DataPart) (reference : ChildReference) :
    Except Error MultipartConsistency := do
  ensure (part.index == state.parts) "noncanonical data publication order"
  ensure (!(0 < state.parts) || state.lastPartLength == Geometry.dataBytes)
    "short nonfinal data part"
  let groupHash := state.groupHash ++ reference.encode
  let length ← context (checkedAdd state.length part.payload.length) "payload length overflow"
  let parts ← context (checkedAdd32 state.parts 1) "part count overflow"
  let state := { state with
    payloadHash := state.payloadHash ++ part.payload
    lastPartLength := part.payload.length
    length, parts }
  if parts % Geometry.fanout = 0 then
    .ok { state with groups := state.groups ++ [sha256 groupHash], groupHash := [] }
  else
    .ok { state with groupHash }

/-- `accept_leaf`. -/
def acceptLeaf (state : MultipartConsistency) (leaf : LeafManifest)
    (reference : ChildReference) : Except Error MultipartConsistency := do
  ensure (0 < state.parts && leaf.index == state.leaves) "noncanonical leaf publication order"
  ensure (!(0 < state.leaves) || state.lastLeafEntries == Geometry.fanout) "short nonfinal leaf"
  let state :=
    if state.leaves = 0 ∧ state.parts % Geometry.fanout ≠ 0 then
      { state with groups := state.groups ++ [sha256 state.groupHash], groupHash := [] }
    else state
  let group ← context state.groups[state.leaves]? "leaf references exceed data groups"
  ensure (referencesHash sha256 leaf.entries == group)
    "leaf references differ from signed data parts"
  let leaves ← context (checkedAdd16 state.leaves 1) "leaf count overflow"
  .ok { state with
    leavesHash := state.leavesHash ++ reference.encode
    lastLeafEntries := leaf.entries.length
    leaves }

/-- `accept_root`. -/
def acceptRoot (state : MultipartConsistency) (root : RootManifest) : Except Error Unit := do
  ensure (root.payloadHash == sha256 state.payloadHash) "root payload hash mismatch"
  ensure (referencesHash sha256 root.entries == sha256 state.leavesHash)
    "root references differ from signed leaves"
  let geometry ← Geometry.new root.length
  ensure (state.length == root.length && state.parts == geometry.parts &&
    state.leaves == geometry.leaves) "publication geometry mismatch"
  let entries ← geometry.leafEntries (state.leaves - 1)
  ensure (state.lastLeafEntries == entries) "final leaf size mismatch"

/-- `MultipartConsistency::accept`. -/
def accept (state : MultipartConsistency) (bytes : Bytes) (txid : Txid) :
    Except Error MultipartConsistency := do
  let record ← MultipartRecord.decode bytes
  let reference : ChildReference := { txid, recordHash := sha256 bytes }
  match record with
  | .data part => acceptData sha256 state part reference
  | .leaf leaf => acceptLeaf sha256 state leaf reference
  | .root root => do
      acceptRoot sha256 state root
      .ok state

/-- `validate_count`. -/
def validateCount (state : MultipartConsistency) (count : ℕ) : Except Error Unit := do
  let geometry ← Geometry.new state.length
  ensure (geometry.nodes == count) "publication root or geometry missing"

end MultipartConsistency

end Urma
