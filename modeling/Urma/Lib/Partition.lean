import Mathlib.Algebra.GroupWithZero.Nat
import Mathlib.Data.Nat.Notation

/-!
# Cutting a total into pieces

A total is cut into pieces of one size, of which the last may be shorter. All pieces but the last
are full, and together they are the total.
-/

namespace Urma.Lib.Partition

/-- The piece at an index. -/
def piece (total size index : ℕ) : ℕ :=
  min (total - index * size) size

/-- The first so many pieces. -/
def pieces (total size count : ℕ) : List ℕ :=
  (List.range count).map (piece total size)

/-- A total of so many pieces and a last one. -/
structure Cut (total size count : ℕ) : Prop where
  full : count * size ≤ total
  last : total ≤ (count + 1) * size

namespace Cut

variable {total size count : ℕ}

/-- The start of a piece is within the total. -/
theorem start_le (h : Cut total size count) {index : ℕ} (hindex : index < count + 1) :
    index * size ≤ total :=
  Nat.le_trans (Nat.mul_le_mul_right size (Nat.le_of_lt_succ hindex)) h.full

/-- A piece before the last is full. -/
theorem piece_full (h : Cut total size count) {index : ℕ} (hindex : index < count) :
    piece total size index = size := by
  have hnext : (index + 1) * size ≤ total := h.start_le (Nat.succ_lt_succ hindex)
  rw [Nat.succ_mul] at hnext
  exact Nat.min_eq_right (Nat.le_sub_of_add_le (by omega))

/-- The last piece is what is left. -/
theorem piece_last (h : Cut total size count) : piece total size count = total - count * size := by
  have hlast := h.last
  rw [Nat.succ_mul] at hlast
  exact Nat.min_eq_left (by omega)

/-- **The pieces** are full ones and a last one. -/
theorem pieces_eq (h : Cut total size count) :
    pieces total size (count + 1) = List.replicate count size ++ [total - count * size] := by
  have hfull : (List.range count).map (piece total size) = List.replicate count size := by
    refine List.eq_replicate_iff.mpr ⟨by rw [List.length_map, List.length_range], ?_⟩
    intro n hn
    obtain ⟨index, hindex, rfl⟩ := List.mem_map.mp hn
    exact h.piece_full (List.mem_range.mp hindex)
  rw [pieces, List.range_succ, List.map_append, hfull, List.map_singleton, h.piece_last]

/-- **Together the pieces are the total.** -/
theorem sum_pieces (h : Cut total size count) : (pieces total size (count + 1)).sum = total := by
  rw [h.pieces_eq, List.sum_append_nat, List.sum_replicate_nat, List.sum_singleton]
  exact Nat.add_sub_cancel' h.full

end Cut

end Urma.Lib.Partition
