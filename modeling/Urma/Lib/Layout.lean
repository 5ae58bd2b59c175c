import Mathlib.Algebra.GroupWithZero.Nat
import Mathlib.Data.Nat.Notation

/-!
# Fixed binary layouts

What a format made of fixed-width fields is built from: numbers written least significant byte
first, the slice of a byte string between two offsets, and the cutting of a string into blocks
of one size. Each comes with the law that reading undoes writing.
-/

namespace Urma.Lib.Layout

/-! ## Little-endian numbers -/

/-- The `width` low bytes of a number, least significant first. -/
def toLe : ℕ → ℕ → List UInt8
  | 0, _ => []
  | width + 1, value => UInt8.ofNat (value % 256) :: toLe width (value / 256)

/-- The number a byte string writes, least significant byte first. -/
def fromLe : List UInt8 → ℕ
  | [] => 0
  | byte :: bytes => byte.toNat + 256 * fromLe bytes

/-- The same bytes, most significant first. -/
def toBe (width value : ℕ) : List UInt8 :=
  (toLe width value).reverse

@[simp] theorem toLe_length (width value : ℕ) : (toLe width value).length = width := by
  induction width generalizing value with
  | zero => rfl
  | succ width ih => rw [toLe, List.length_cons, ih]

@[simp] theorem toBe_length (width value : ℕ) : (toBe width value).length = width := by
  rw [toBe, List.length_reverse, toLe_length]

/-- **Reading undoes writing** for every number that fits. -/
theorem fromLe_toLe {width value : ℕ} (h : value < 256 ^ width) :
    fromLe (toLe width value) = value := by
  induction width generalizing value with
  | zero =>
      have hzero : value = 0 := by
        rw [Nat.pow_zero] at h
        omega
      rw [hzero]
      rfl
  | succ width ih =>
      have hrest : value / 256 < 256 ^ width := by
        rw [Nat.pow_succ] at h
        exact Nat.div_lt_of_lt_mul (by omega)
      have hbyte : (UInt8.ofNat (value % 256)).toNat = value % 256 :=
        UInt8.toNat_ofNat_of_lt' (Nat.mod_lt value (by decide))
      rw [toLe, fromLe, hbyte, ih hrest]
      omega

/-- What is read from a byte string fits its width. -/
theorem fromLe_lt (bytes : List UInt8) : fromLe bytes < 256 ^ bytes.length := by
  induction bytes with
  | nil => exact Nat.one_pos
  | cons byte bytes ih =>
      have hbyte := byte.toNat_lt
      rw [fromLe, List.length_cons, Nat.pow_succ]
      omega

/-- **Writing undoes reading**: a byte string is the only one that reads as its number. -/
theorem toLe_fromLe (bytes : List UInt8) : toLe bytes.length (fromLe bytes) = bytes := by
  induction bytes with
  | nil => rfl
  | cons byte bytes ih =>
      have hbyte := byte.toNat_lt
      have hlow : (byte.toNat + 256 * fromLe bytes) % 256 = byte.toNat := by omega
      have hrest : (byte.toNat + 256 * fromLe bytes) / 256 = fromLe bytes := by omega
      rw [fromLe, List.length_cons, toLe, hlow, hrest, ih, UInt8.ofNat_toNat]

/-! ## Slices -/

section Slices

variable {α : Type}

/-- The items from offset `start` up to, not including, offset `stop`. -/
def slice (xs : List α) (start stop : ℕ) : List α :=
  (xs.drop start).take (stop - start)

@[simp] theorem slice_length (xs : List α) (start stop : ℕ) :
    (slice xs start stop).length = min (stop - start) (xs.length - start) := by
  rw [slice, List.length_take, List.length_drop]

theorem slice_length_of_le {xs : List α} {start stop : ℕ} (h : stop ≤ xs.length) :
    (slice xs start stop).length = stop - start := by
  rw [slice_length]
  omega

/-- The slice a part of a concatenation occupies is that part. -/
theorem slice_eq {xs : List α} {start stop : ℕ} (before part after : List α)
    (h : xs = before ++ (part ++ after)) (hstart : before.length = start)
    (hstop : start + part.length = stop) : slice xs start stop = part := by
  have hwidth : stop - start = part.length := by omega
  rw [slice, h, List.drop_left' hstart, hwidth, List.take_left' rfl]

/-- What follows an offset is the slice up to a later one and what follows that. -/
theorem drop_eq_slice_append {xs : List α} {start stop : ℕ} (h : start ≤ stop) :
    xs.drop start = slice xs start stop ++ xs.drop stop := by
  have hstop : start + (stop - start) = stop := by omega
  rw [slice, ← hstop, ← List.drop_drop, hstop, List.take_append_drop]

end Slices

/-- A number field is the writing of what is read from it. -/
theorem toLe_fromLe_slice {bytes : List UInt8} {start stop width : ℕ} (hstop : start + width = stop)
    (h : stop ≤ bytes.length) :
    toLe width (fromLe (slice bytes start stop)) = slice bytes start stop := by
  have hwidth : (slice bytes start stop).length = width := by
    rw [slice_length_of_le h]
    omega
  rw [← hwidth]
  exact toLe_fromLe _

/-! ## Blocks -/

section Blocks

variable {α : Type} {size : ℕ}

/-- The first `count` blocks of `size` items each; the last ones are short or empty when the
items run out. -/
def blocks (size : ℕ) : ℕ → List α → List (List α)
  | 0, _ => []
  | count + 1, xs => xs.take size :: blocks size count (xs.drop size)

/-- All the items in blocks of one size, the last one as long as what remains (`slice::chunks`). -/
def chunks (size : ℕ) (xs : List α) : List (List α) :=
  blocks size ((xs.length + size - 1) / size) xs

/-- The whole blocks only, a short remainder left out (`slice::as_chunks().0`). -/
def asChunks (size : ℕ) (xs : List α) : List (List α) :=
  blocks size (xs.length / size) xs

@[simp] theorem blocks_length (size count : ℕ) (xs : List α) :
    (blocks size count xs).length = count := by
  induction count generalizing xs with
  | zero => rfl
  | succ count ih => rw [blocks, List.length_cons, ih]

/-- Block `i` starts `i` sizes in. -/
theorem blocks_getElem? {count i : ℕ} {xs : List α} (h : i < count) :
    (blocks size count xs)[i]? = some ((xs.drop (i * size)).take size) := by
  induction count generalizing xs i with
  | zero => omega
  | succ count ih =>
      rw [blocks]
      cases i with
      | zero => rw [List.getElem?_cons_zero, Nat.zero_mul, List.drop_zero]
      | succ i =>
          have hoffset : size + i * size = (i + 1) * size := by rw [Nat.succ_mul, Nat.add_comm]
          rw [List.getElem?_cons_succ, ih (by omega), List.drop_drop, hoffset]

theorem blocks_eq_map (size count : ℕ) (xs : List α) :
    blocks size count xs = (List.range count).map fun i => (xs.drop (i * size)).take size := by
  apply List.ext_getElem?
  intro i
  by_cases hi : i < count
  · rw [blocks_getElem? hi, List.getElem?_map, List.getElem?_range hi]
    rfl
  · rw [List.getElem?_eq_none (by rw [blocks_length]; omega),
      List.getElem?_eq_none (by rw [List.length_map, List.length_range]; omega)]

/-- Blocks that fit are not changed by what follows. -/
theorem blocks_append {count : ℕ} {xs : List α} (ys : List α) (h : count * size ≤ xs.length) :
    blocks size count (xs ++ ys) = blocks size count xs := by
  induction count generalizing xs with
  | zero => rfl
  | succ count ih =>
      rw [Nat.succ_mul] at h
      have hfirst : size ≤ xs.length := by omega
      have hrest : count * size ≤ (xs.drop size).length := by
        rw [List.length_drop]
        omega
      rw [blocks, blocks, List.take_append_of_le_length hfirst,
        List.drop_append_of_le_length hfirst, ih hrest]

/-- One block more. -/
theorem blocks_succ (size count : ℕ) (xs : List α) :
    blocks size (count + 1) xs = blocks size count xs ++ [(xs.drop (count * size)).take size] := by
  rw [blocks_eq_map, blocks_eq_map, List.range_succ, List.map_append, List.map_singleton]

/-- Every block is whole when there are items enough. -/
theorem length_of_mem_blocks {count : ℕ} {xs block : List α} (h : count * size ≤ xs.length)
    (hmem : block ∈ blocks size count xs) : block.length = size := by
  induction count generalizing xs with
  | zero => cases hmem
  | succ count ih =>
      rw [Nat.succ_mul] at h
      rw [blocks] at hmem
      rcases List.mem_cons.mp hmem with rfl | hmem
      · rw [List.length_take]
        omega
      · apply ih ?_ hmem
        rw [List.length_drop]
        omega

/-- The blocks put together are what they were cut from. -/
theorem blocks_flatten (size count : ℕ) (xs : List α) :
    (blocks size count xs).flatten = xs.take (count * size) := by
  induction count generalizing xs with
  | zero => rw [blocks, List.flatten_nil, Nat.zero_mul, List.take_zero]
  | succ count ih =>
      have hsplit : (count + 1) * size = size + count * size := by rw [Nat.succ_mul, Nat.add_comm]
      rw [blocks, List.flatten_cons, ih, hsplit, List.take_add]

/-- The chunks put together are the whole. -/
theorem chunks_flatten (hsize : 0 < size) (xs : List α) : (chunks size xs).flatten = xs := by
  rw [chunks, blocks_flatten]
  apply List.take_of_length_le
  have hceil := Nat.div_add_mod (xs.length + size - 1) size
  have hmod := Nat.mod_lt (xs.length + size - 1) hsize
  have hswap := Nat.mul_comm size ((xs.length + size - 1) / size)
  omega

theorem chunks_length (size : ℕ) (xs : List α) :
    (chunks size xs).length = (xs.length + size - 1) / size := by
  rw [chunks, blocks_length]

/-- Chunk `i`, when the items reach that far. -/
theorem chunks_getElem? (hsize : 0 < size) {i : ℕ} {xs : List α} :
    (chunks size xs)[i]? =
      if i * size < xs.length then some ((xs.drop (i * size)).take size) else none := by
  have hceil : i * size < xs.length ↔ i < (xs.length + size - 1) / size := by
    rw [Nat.lt_div_iff_mul_lt hsize]
    omega
  split
  · next h => exact blocks_getElem? (hceil.mp h)
  · next h =>
      apply List.getElem?_eq_none
      rw [chunks_length]
      exact Nat.le_of_not_lt (fun hi => h (hceil.mpr hi))

/-- The chunks are the whole blocks and, when items remain, those. -/
theorem chunks_eq (hsize : 0 < size) (xs : List α) :
    chunks size xs = blocks size (xs.length / size) xs ++
      if xs.length % size = 0 then [] else [xs.drop (xs.length / size * size)] := by
  have hdiv := Nat.div_add_mod xs.length size
  have hmod := Nat.mod_lt xs.length hsize
  have hswap := Nat.mul_comm size (xs.length / size)
  split
  · next h =>
      have hceil : (xs.length + size - 1) / size = xs.length / size := by
        have hsplit : xs.length + size - 1 = size - 1 + size * (xs.length / size) := by omega
        rw [hsplit, Nat.add_mul_div_left _ _ hsize, Nat.div_eq_of_lt (by omega), Nat.zero_add]
      rw [chunks, hceil, List.append_nil]
  · next h =>
      have hceil : (xs.length + size - 1) / size = xs.length / size + 1 := by
        have hsplit : xs.length + size - 1 =
            xs.length % size - 1 + size * (xs.length / size + 1) := by
          rw [Nat.mul_succ]
          omega
        rw [hsplit, Nat.add_mul_div_left _ _ hsize, Nat.div_eq_of_lt (by omega), Nat.zero_add]
      rw [chunks, hceil, blocks_succ, List.take_of_length_le]
      rw [List.length_drop]
      omega

/-- Cutting a concatenation of blocks of the right size gives the blocks back. -/
theorem blocks_flatten_of_forall {xss : List (List α)} (h : ∀ xs ∈ xss, xs.length = size) :
    blocks size xss.length xss.flatten = xss := by
  induction xss with
  | nil => rfl
  | cons xs xss ih =>
      have hlength : xs.length = size := h xs List.mem_cons_self
      have hrest := ih (fun ys hys => h ys (List.mem_cons_of_mem xs hys))
      rw [List.length_cons, blocks, List.flatten_cons, List.take_left' hlength,
        List.drop_left' hlength, hrest]

theorem flatten_length_of_forall {xss : List (List α)} (h : ∀ xs ∈ xss, xs.length = size) :
    xss.flatten.length = xss.length * size := by
  induction xss with
  | nil => rw [List.flatten_nil, List.length_nil, List.length_nil, Nat.zero_mul]
  | cons xs xss ih =>
      have hrest := ih (fun ys hys => h ys (List.mem_cons_of_mem xs hys))
      rw [List.flatten_cons, List.length_append, hrest, h xs List.mem_cons_self,
        List.length_cons, Nat.succ_mul, Nat.add_comm]

/-- So does cutting it into whole chunks. -/
theorem asChunks_flatten (hsize : 0 < size) {xss : List (List α)}
    (h : ∀ xs ∈ xss, xs.length = size) : asChunks size xss.flatten = xss := by
  rw [asChunks, flatten_length_of_forall h, Nat.mul_div_cancel _ hsize]
  exact blocks_flatten_of_forall h

end Blocks

end Urma.Lib.Layout
