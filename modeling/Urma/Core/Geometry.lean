import Mathlib.Data.List.Basic
import Urma.Core.Multipart
import Urma.Lib.Partition

/-!
# Geometry partitions every object

The arithmetic of `multipart::Geometry` is that of machine words: products, differences and sums
that leave their type are faults, and conversions to a narrower type may fail. For an accepted length
and an index in range none does, and the parts and the leaves cut the object without a rest.
-/

namespace Urma

open Lib.Partition

/-! ## Words -/

/-- What a computation with words ends with: a value that leaves its type, or an error. -/
inductive Fault where
  | arithmetic
  | error (cause : Error)
  deriving DecidableEq

/-- An error as it is. -/
def Fault.ofError {α : Type} (result : Except Error α) : Except Fault α :=
  result.mapError .error

/-- `a * b` in a type of this maximum. -/
def mulWord (limit a b : ℕ) : Except Fault ℕ :=
  if a * b ≤ limit then .ok (a * b) else .error .arithmetic

/-- `a + b` in a type of this maximum. -/
def addWord (limit a b : ℕ) : Except Fault ℕ :=
  if a + b ≤ limit then .ok (a + b) else .error .arithmetic

/-- `a - b`. -/
def subWord (a b : ℕ) : Except Fault ℕ :=
  if b ≤ a then .ok (a - b) else .error .arithmetic

/-- `try_from` to a type of this maximum. -/
def narrow (limit value : ℕ) : Except Fault ℕ :=
  if value ≤ limit then .ok value else .error (.error .integer)

/-- `div_ceil`. -/
def divCeil (a b : ℕ) : ℕ :=
  (a + b - 1) / b

namespace Geometry

/-- `Geometry::MAX_NODES`. -/
def maxNodes : ℕ := 32695

/-- `Geometry::new`, in words. -/
def newWords (length : ℕ) : Except Fault Geometry := do
  Fault.ofError (ensure (length ≤ maxObjectBytes) "multipart length outside bounds")
  let size ← narrow u64Max dataBytes
  let parts ← narrow u32Max (max (divCeil length size) 1)
  let leaves ← narrow u16Max (divCeil parts fanout)
  .ok { length, parts, leaves }

/-- `Geometry::nodes`, in words. -/
def nodesWords (geometry : Geometry) : Except Fault ℕ := do
  let sum ← addWord u32Max geometry.parts geometry.leaves
  addWord u32Max sum 1

/-- `Geometry::part_length`, in words; a `usize` has at least the bits of a `u32`. -/
def partLengthWords (geometry : Geometry) (index : ℕ) : Except Fault ℕ := do
  Fault.ofError (ensure (index < geometry.parts) "part index outside object")
  let size ← narrow u64Max dataBytes
  let offset ← mulWord u64Max index size
  let rest ← subWord geometry.length offset
  narrow u32Max (min rest size)

/-- `Geometry::leaf_entries`, in words. -/
def leafEntriesWords (geometry : Geometry) (index : ℕ) : Except Fault ℕ := do
  Fault.ofError (ensure (index < geometry.leaves) "leaf index outside object")
  let offset ← mulWord u32Max index fanout
  let rest ← subWord geometry.parts offset
  narrow u16Max (min rest fanout)

/-! ## Cuts -/

variable {geometry : Geometry} {length total : ℕ}

/-- **The parts cut the length**, and there are not too many. -/
theorem cut_parts (h : new length = .ok geometry) :
    Cut geometry.length dataBytes (geometry.parts - 1) ∧ geometry.length = length ∧
      geometry.parts ≤ maxParts := by
  obtain ⟨hlength, rfl⟩ := new_eq_ok.mp h
  simp only [maxObjectBytes] at hlength
  refine ⟨⟨?_, ?_⟩, rfl, ?_⟩
  · simp only [dataBytes]
    omega
  · simp only [dataBytes]
    omega
  · simp only [dataBytes, maxParts]
    omega

/-- **The leaves cut the parts.** -/
theorem cut_leaves (h : new length = .ok geometry) :
    Cut geometry.parts fanout (geometry.leaves - 1) := by
  obtain ⟨hlength, rfl⟩ := new_eq_ok.mp h
  refine ⟨?_, ?_⟩
  · simp only [fanout]
    omega
  · simp only [fanout]
    omega

/-- The last part has a byte, unless the object is empty. -/
theorem last_part (h : new length = .ok geometry) :
    1 ≤ geometry.length - (geometry.parts - 1) * dataBytes ∨ geometry.length = 0 := by
  obtain ⟨_, rfl⟩ := new_eq_ok.mp h
  simp only [dataBytes]
  omega

/-- The last leaf has an entry. -/
theorem last_leaf (h : new length = .ok geometry) :
    1 ≤ geometry.parts - (geometry.leaves - 1) * fanout := by
  obtain ⟨_, rfl⟩ := new_eq_ok.mp h
  simp only [fanout]
  omega

/-- There are at most 64 leaves. -/
theorem leaves_le (h : new length = .ok geometry) : geometry.leaves ≤ 64 := by
  obtain ⟨hlength, rfl⟩ := new_eq_ok.mp h
  simp only [maxObjectBytes] at hlength
  simp only [dataBytes, fanout]
  omega

/-! ## No operation fails -/

theorem narrow_eq {limit value : ℕ} (h : value ≤ limit) : narrow limit value = .ok value :=
  if_pos h

/-- **A geometry in words** is the geometry. -/
theorem newWords_eq (length : ℕ) : newWords length = Fault.ofError (new length) := by
  by_cases hlength : length ≤ maxObjectBytes
  · obtain ⟨geometry, hgeometry⟩ : ∃ geometry, new length = .ok geometry :=
      ⟨_, new_eq_ok.mpr ⟨hlength, rfl⟩⟩
    obtain ⟨_, _, hparts⟩ := cut_parts hgeometry
    have hleaves := leaves_le hgeometry
    obtain ⟨_, heq⟩ := new_eq_ok.mp hgeometry
    rw [hgeometry]
    have hcheck : ensure (length ≤ maxObjectBytes) "multipart length outside bounds" = .ok () :=
      ensure_eq_ok.mpr (decide_eq_true hlength)
    unfold newWords
    rw [hcheck]
    subst heq
    have hsize : narrow u64Max dataBytes = .ok dataBytes := narrow_eq (by decide)
    have hmax : maxParts ≤ u32Max := by decide
    have hmaxLeaves : 64 ≤ u16Max := by decide
    have hparts := narrow_eq (Nat.le_trans hparts hmax)
    have hleaves := narrow_eq (Nat.le_trans hleaves hmaxLeaves)
    simp only [bind, Except.bind, Fault.ofError, Except.mapError, hsize, divCeil] at hparts hleaves ⊢
    rw [hparts]
    simp only
    rw [hleaves]
  · have hcheck : ensure (length ≤ maxObjectBytes) "multipart length outside bounds" =
        .error (.invalid "multipart length outside bounds") := by
      rw [decide_eq_false hlength]
      rfl
    unfold newWords new
    rw [hcheck]
    rfl

/-- **The length of a part in words** is the length of the part. -/
theorem partLengthWords_eq (h : new length = .ok geometry) (index : ℕ) :
    geometry.partLengthWords index = Fault.ofError (geometry.partLength index) := by
  unfold partLengthWords partLength
  by_cases hindex : index < geometry.parts
  · obtain ⟨hcut, _, hparts⟩ := cut_parts h
    have hpositive := (new_pos h).1
    have hstart : index * dataBytes ≤ geometry.length := hcut.start_le (by omega)
    have hword : index * dataBytes ≤ u64Max := by
      simp only [maxParts] at hparts
      simp only [dataBytes, u64Max]
      omega
    have hcheck : ensure (index < geometry.parts) "part index outside object" = .ok () :=
      ensure_eq_ok.mpr (decide_eq_true hindex)
    have hsize : narrow u64Max dataBytes = .ok dataBytes := narrow_eq (by decide)
    have hmul : mulWord u64Max index dataBytes = .ok (index * dataBytes) := if_pos hword
    have hsub : subWord geometry.length (index * dataBytes) =
      .ok (geometry.length - index * dataBytes) := if_pos hstart
    have hmax : dataBytes ≤ u32Max := by decide
    have hnarrow := narrow_eq (Nat.le_trans
      (Nat.min_le_right (geometry.length - index * dataBytes) dataBytes) hmax)
    simp only [hcheck, bind, Except.bind, Fault.ofError, Except.mapError, hsize, hmul, hsub, hnarrow]
  · rw [decide_eq_false hindex]
    rfl

/-- **The entries of a leaf in words** are the entries of the leaf. -/
theorem leafEntriesWords_eq (h : new length = .ok geometry) (index : ℕ) :
    geometry.leafEntriesWords index = Fault.ofError (geometry.leafEntries index) := by
  unfold leafEntriesWords leafEntries
  by_cases hindex : index < geometry.leaves
  · have hcut := cut_leaves h
    have hleaves := leaves_le h
    have hpositive := (new_pos h).2
    have hstart : index * fanout ≤ geometry.parts := hcut.start_le (by omega)
    have hword : index * fanout ≤ u32Max := by
      simp only [fanout, u32Max]
      omega
    have hcheck : ensure (index < geometry.leaves) "leaf index outside object" = .ok () :=
      ensure_eq_ok.mpr (decide_eq_true hindex)
    have hmul : mulWord u32Max index fanout = .ok (index * fanout) := if_pos hword
    have hsub : subWord geometry.parts (index * fanout) = .ok (geometry.parts - index * fanout) :=
      if_pos hstart
    have hmax : fanout ≤ u16Max := by decide
    have hle := Nat.le_trans (Nat.min_le_right (geometry.parts - index * fanout) fanout) hmax
    have hnarrow := narrow_eq hle
    have htry : tryU16 (min (geometry.parts - index * fanout) fanout) =
      .ok (min (geometry.parts - index * fanout) fanout) := if_pos hle
    simp only [hcheck, bind, Except.bind, Fault.ofError, Except.mapError, hmul, hsub, hnarrow, htry]
  · rw [decide_eq_false hindex]
    rfl

/-! ## The partition -/

/-- What a geometry is to its object. -/
structure Partitions (geometry : Geometry) : Prop where
  parts : ∃ last,
    (List.range geometry.parts).mapM geometry.partLengthWords =
      .ok (List.replicate (geometry.parts - 1) dataBytes ++ [last]) ∧
    (List.replicate (geometry.parts - 1) dataBytes ++ [last]).sum = geometry.length ∧
    last ≤ dataBytes ∧ (1 ≤ last ∨ geometry.length = 0)
  leaves : ∃ last,
    (List.range geometry.leaves).mapM geometry.leafEntriesWords =
      .ok (List.replicate (geometry.leaves - 1) fanout ++ [last]) ∧
    (List.replicate (geometry.leaves - 1) fanout ++ [last]).sum = geometry.parts ∧
    1 ≤ last ∧ last ≤ fanout
  nodes : geometry.nodesWords = .ok geometry.nodes ∧ geometry.nodes ≤ maxNodes
  outsideParts : ∀ index, geometry.parts ≤ index → geometry.partLengthWords index =
    .error (.error (.invalid "part index outside object"))
  outsideLeaves : ∀ index, geometry.leaves ≤ index → geometry.leafEntriesWords index =
    .error (.error (.invalid "leaf index outside object"))

/-- The sizes in order are those of the pieces. -/
theorem mapM_pieces {size count : ℕ} {sizeOf : ℕ → Except Fault ℕ}
    (h : ∀ index < count, sizeOf index = .ok (piece total size index)) :
    (List.range count).mapM sizeOf = .ok (pieces total size count) := by
  rw [pieces]
  have hmem : ∀ index ∈ List.range count, sizeOf index = .ok (piece total size index) :=
    fun index hindex => h index (List.mem_range.mp hindex)
  generalize List.range count = indices at hmem
  induction indices with
  | nil => rfl
  | cons index indices ih =>
      rw [List.mapM_cons, hmem index List.mem_cons_self,
        ih fun other hother => hmem other (List.mem_cons_of_mem index hother)]
      rfl

/-- **What is accepted is partitioned.** -/
theorem partitions (h : new length = .ok geometry) : geometry.Partitions := by
  obtain ⟨hcutParts, _, hparts⟩ := cut_parts h
  have hcutLeaves := cut_leaves h
  have hleaves := leaves_le h
  obtain ⟨hpartsPos, hleavesPos⟩ := new_pos h
  have hsuccParts : geometry.parts - 1 + 1 = geometry.parts := Nat.succ_pred_eq_of_pos hpartsPos
  have hsuccLeaves : geometry.leaves - 1 + 1 = geometry.leaves :=
    Nat.succ_pred_eq_of_pos hleavesPos
  refine ⟨⟨geometry.length - (geometry.parts - 1) * dataBytes, ?_, ?_, ?_, last_part h⟩,
    ⟨geometry.parts - (geometry.leaves - 1) * fanout, ?_, ?_, last_leaf h, ?_⟩, ⟨?_, ?_⟩, ?_, ?_⟩
  · rw [← hcutParts.pieces_eq, hsuccParts]
    refine mapM_pieces fun index hindex => ?_
    have hcheck : ensure (index < geometry.parts) "part index outside object" = .ok () :=
      ensure_eq_ok.mpr (decide_eq_true hindex)
    rw [partLengthWords_eq h, partLength, hcheck]
    rfl
  · rw [← hcutParts.pieces_eq]
    exact hcutParts.sum_pieces
  · have hlast := hcutParts.last
    rw [Nat.succ_mul] at hlast
    omega
  · rw [← hcutLeaves.pieces_eq, hsuccLeaves]
    refine mapM_pieces fun index hindex => ?_
    have hmax : fanout ≤ u16Max := by decide
    have htry : tryU16 (piece geometry.parts fanout index) =
        .ok (piece geometry.parts fanout index) :=
      if_pos (Nat.le_trans (Nat.min_le_right _ _) hmax)
    have hcheck : ensure (index < geometry.leaves) "leaf index outside object" = .ok () :=
      ensure_eq_ok.mpr (decide_eq_true hindex)
    rw [leafEntriesWords_eq h, leafEntries, hcheck]
    show Fault.ofError (tryU16 (piece geometry.parts fanout index)) = _
    rw [htry]
    rfl
  · rw [← hcutLeaves.pieces_eq]
    exact hcutLeaves.sum_pieces
  · have hlast := hcutLeaves.last
    rw [Nat.succ_mul] at hlast
    omega
  · have hmax : maxParts + 64 + 1 ≤ u32Max := by decide
    have hsum : addWord u32Max geometry.parts geometry.leaves =
      .ok (geometry.parts + geometry.leaves) := if_pos (by omega)
    rw [nodesWords, hsum]
    exact if_pos (by omega)
  · have hmax : maxParts + 64 + 1 = maxNodes := by decide
    rw [nodes]
    omega
  · intro index hindex
    rw [partLengthWords, decide_eq_false (Nat.not_lt.mpr hindex)]
    rfl
  · intro index hindex
    rw [leafEntriesWords, decide_eq_false (Nat.not_lt.mpr hindex)]
    rfl

/-- **Geometry partitions every object.** A length above the bound is refused. Every other has a
geometry: no conversion of `new` fails, no operation of `part_length`, `leaf_entries` and `nodes`
leaves its type for an index in range, and the parts and the leaves are a partition. -/
theorem geometry_partitions (length : ℕ) :
    (maxObjectBytes < length ∧
      newWords length = .error (.error (.invalid "multipart length outside bounds"))) ∨
    (length ≤ maxObjectBytes ∧ ∃ geometry, newWords length = .ok geometry ∧
      new length = .ok geometry ∧ geometry.length = length ∧ geometry.Partitions ∧
      (∀ index, geometry.partLengthWords index = Fault.ofError (geometry.partLength index)) ∧
      ∀ index, geometry.leafEntriesWords index = Fault.ofError (geometry.leafEntries index)) := by
  by_cases hlength : length ≤ maxObjectBytes
  · obtain ⟨geometry, hgeometry⟩ : ∃ geometry, new length = .ok geometry :=
      ⟨_, new_eq_ok.mpr ⟨hlength, rfl⟩⟩
    refine Or.inr ⟨hlength, geometry, ?_, hgeometry, (cut_parts hgeometry).2.1,
      partitions hgeometry, partLengthWords_eq hgeometry, leafEntriesWords_eq hgeometry⟩
    rw [newWords_eq, hgeometry]
    rfl
  · refine Or.inl ⟨Nat.lt_of_not_le hlength, ?_⟩
    rw [newWords, decide_eq_false hlength]
    rfl

end Geometry

end Urma
