import Urma.Lib.Layout

/-!
# Pushes of a script

A script is a byte string of instructions: an opcode, or a push with its data. A push is minimal
when its length is written in the shortest way and no opcode stands for its data. Reading a
script that is built of minimal pushes and opcodes gives the instructions it was built of.
-/

namespace Urma.Lib.Script

open Layout

/-- One instruction of a script. -/
inductive Instruction where
  | pushBytes (bytes : List UInt8)
  | op (opcode : UInt8)
  deriving DecidableEq

/-- The length of a push, in front of its data. -/
def pushPrefix (length : ℕ) : List UInt8 :=
  if length < 76 then [UInt8.ofNat length]
  else if length < 256 then 76 :: toLe 1 length
  else if length < 65536 then 77 :: toLe 2 length
  else 78 :: toLe 4 length

/-- The push of some data. -/
def push (bytes : List UInt8) : List UInt8 :=
  pushPrefix bytes.length ++ bytes

/-- Data an opcode stands for: a number from 1 to 16, or minus one. -/
def isNumber : List UInt8 → Bool
  | [byte] => byte == 129 || (1 ≤ byte && byte ≤ 16)
  | _ => false

variable {ε : Type}

/-- The data of a push whose length has been read, and then the instructions that follow.
A push that reaches past the end ends the reading. -/
def takePush (failure : ε) (read : List UInt8 → List (Except ε Instruction)) (length : ℕ)
    (rest : List UInt8) : List (Except ε Instruction) :=
  if length ≤ rest.length then
    .ok (.pushBytes (rest.take length)) :: read (rest.drop length)
  else [.error failure]

/-- The instructions of a script, pushes being minimal. The first failure is the last item;
`fuel` bounds the number of instructions. -/
def instructionsWith (failure : ε) : ℕ → List UInt8 → List (Except ε Instruction)
  | 0, _ => []
  | _, [] => []
  | fuel + 1, byte :: rest =>
      let read := instructionsWith failure fuel
      let sized (width least : ℕ) : List (Except ε Instruction) :=
        let length := fromLe (rest.take width)
        if width ≤ rest.length ∧ least ≤ length then
          takePush failure read length (rest.drop width)
        else [.error failure]
      if byte.toNat < 76 then
        if byte.toNat = 1 ∧ isNumber (rest.take 1) then [.error failure]
        else takePush failure read byte.toNat rest
      else if byte = 76 then sized 1 76
      else if byte = 77 then sized 2 256
      else if byte = 78 then sized 4 65536
      else .ok (.op byte) :: read rest

/-- All the instructions of a script. -/
def instructions (failure : ε) (script : List UInt8) : List (Except ε Instruction) :=
  instructionsWith failure script.length script

/-! ## Pushes -/

theorem pushPrefix_length_le {length : ℕ} (h : length < 65536) :
    1 ≤ (pushPrefix length).length ∧ (pushPrefix length).length ≤ 3 := by
  unfold pushPrefix
  split
  · simp
  · split
    · simp
    · simp

/-- One instruction takes at least a byte, so what it leaves needs less fuel. -/
theorem instructionsWith_mono (failure : ε) {fuel more : ℕ} {script : List UInt8}
    (hfuel : script.length ≤ fuel) (hmore : fuel ≤ more) :
    instructionsWith failure more script = instructionsWith failure fuel script := by
  induction fuel generalizing more script with
  | zero =>
      rw [List.length_eq_zero_iff.mp (Nat.le_zero.mp hfuel)]
      cases more <;> rfl
  | succ fuel ih =>
      cases script with
      | nil => cases more <;> rfl
      | cons byte rest =>
          obtain ⟨more, rfl⟩ : ∃ n, more = n + 1 := ⟨more - 1, by omega⟩
          rw [List.length_cons] at hfuel
          have htake : ∀ (length : ℕ) (tail : List UInt8), tail.length ≤ rest.length →
              takePush failure (instructionsWith failure more) length tail =
                takePush failure (instructionsWith failure fuel) length tail := by
            intro length tail htail
            unfold takePush
            rw [@ih more (tail.drop length) ?_ (by omega)]
            rw [List.length_drop]
            omega
          have hrest : instructionsWith failure more rest = instructionsWith failure fuel rest :=
            ih (by omega) (by omega)
          have hdrop : ∀ width, (rest.drop width).length ≤ rest.length := by
            intro width
            rw [List.length_drop]
            omega
          simp only [instructionsWith, htake _ _ (Nat.le_refl _), htake _ _ (hdrop _), hrest]

/-- More fuel than bytes is as good as any. -/
theorem instructionsWith_eq (failure : ε) {fuel : ℕ} {script : List UInt8}
    (hfuel : script.length ≤ fuel) :
    instructionsWith failure fuel script = instructions failure script :=
  instructionsWith_mono failure (Nat.le_refl _) hfuel

@[simp] theorem instructions_nil (failure : ε) : instructions failure [] = [] := rfl

/-- **An opcode that is not a push** is read as itself. -/
theorem instructions_op (failure : ε) {opcode : UInt8} (h : 79 ≤ opcode.toNat)
    (rest : List UInt8) :
    instructions failure (opcode :: rest) = .ok (.op opcode) :: instructions failure rest := by
  have hne : ∀ n : UInt8, n.toNat < 79 → opcode ≠ n := by
    intro n hn heq
    rw [heq] at h
    omega
  rw [instructions, List.length_cons, instructionsWith, if_neg (by omega),
    if_neg (hne 76 (by decide)), if_neg (hne 77 (by decide)), if_neg (hne 78 (by decide))]
  rfl

/-- **A minimal push is read back**, and leaves the script behind it. -/
theorem instructions_push (failure : ε) {bytes : List UInt8} (hlength : bytes.length < 256 ^ 4)
    (hminimal : isNumber bytes = false) (rest : List UInt8) :
    instructions failure (push bytes ++ rest) =
      .ok (.pushBytes bytes) :: instructions failure rest := by
  have htake : ∀ fuel, rest.length ≤ fuel →
      takePush failure (instructionsWith failure fuel) bytes.length (bytes ++ rest) =
        .ok (.pushBytes bytes) :: instructions failure rest := by
    intro fuel hfuel
    rw [takePush, if_pos (by rw [List.length_append]; omega), List.take_left' rfl,
      List.drop_left' rfl, instructionsWith_eq failure hfuel]
  unfold push pushPrefix
  split
  · next hsmall =>
      have hbyte : (UInt8.ofNat bytes.length).toNat = bytes.length := by
        apply UInt8.toNat_ofNat_of_lt'
        show bytes.length < 256
        omega
      have hnumber : ¬ (bytes.length = 1 ∧ isNumber ((bytes ++ rest).take 1)) := by
        rintro ⟨hone, hnumber⟩
        rw [List.take_left' hone, hminimal] at hnumber
        cases hnumber
      show instructions failure (UInt8.ofNat bytes.length :: (bytes ++ rest)) = _
      rw [instructions, List.length_cons, instructionsWith, hbyte, if_pos hsmall,
        if_neg hnumber]
      apply htake
      rw [List.length_append]
      omega
  · next hsmall =>
      -- the three forms that write the length out
      have hsized : ∀ (width least : ℕ), bytes.length < 256 ^ width →
          least ≤ bytes.length →
          let body := toLe width bytes.length ++ (bytes ++ rest)
          let length := fromLe (body.take width)
          (if width ≤ body.length ∧ least ≤ length then
            takePush failure (instructionsWith failure body.length) length (body.drop width)
          else [.error failure]) = .ok (.pushBytes bytes) :: instructions failure rest := by
        intro width least hfits hleast
        simp only [List.take_left' (toLe_length width bytes.length),
          List.drop_left' (toLe_length width bytes.length), fromLe_toLe hfits]
        rw [if_pos ⟨by rw [List.length_append, toLe_length]; omega, hleast⟩]
        apply htake
        rw [List.length_append, List.length_append]
        omega
      split
      · next hmedium =>
          have hread := hsized 1 76 (by omega) (by omega)
          show instructions failure (76 :: (toLe 1 bytes.length ++ bytes) ++ rest) = _
          rw [List.cons_append, List.append_assoc, instructions, List.length_cons]
          exact hread
      · next hmedium =>
          split
          · next hlarge =>
              have hread := hsized 2 256 (by omega) (by omega)
              show instructions failure (77 :: (toLe 2 bytes.length ++ bytes) ++ rest) = _
              rw [List.cons_append, List.append_assoc, instructions, List.length_cons]
              exact hread
          · next hlarge =>
              have hread := hsized 4 65536 hlength (by omega)
              show instructions failure (78 :: (toLe 4 bytes.length ++ bytes) ++ rest) = _
              rw [List.cons_append, List.append_assoc, instructions, List.length_cons]
              exact hread

end Urma.Lib.Script
