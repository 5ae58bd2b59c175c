import Mathlib.Data.Nat.Notation

/-!
# Cutting UTF-8 at ASCII bytes

An ASCII byte is never inside the encoding of another character, so what is valid UTF-8 stays so
when it is cut at one. A byte string is a list here, as in the rest of this development.
-/

namespace Urma.Lib.Utf8

/-- A byte string that is the encoding of characters. -/
abbrev Valid (bytes : List UInt8) : Prop :=
  ByteArray.IsValidUTF8 ⟨bytes.toArray⟩

variable {bytes before after : List UInt8} {byte : UInt8}

theorem toByteArray_eq (bytes : List UInt8) : bytes.toByteArray = ⟨bytes.toArray⟩ := by
  apply ByteArray.ext
  rw [List.data_toByteArray]

theorem valid_iff : Valid bytes ↔ ∃ chars : List Char, bytes = chars.flatMap String.utf8EncodeChar := by
  constructor
  · rintro ⟨chars, h⟩
    refine ⟨chars, ?_⟩
    have hdata := congrArg (fun array => array.data.toList) h
    rw [List.utf8Encode, toByteArray_eq] at hdata
    exact hdata
  · rintro ⟨chars, rfl⟩
    exact .intro chars (by rw [List.utf8Encode, toByteArray_eq])

theorem Valid.append (hbefore : Valid before) (hafter : Valid after) : Valid (before ++ after) := by
  obtain ⟨chars, rfl⟩ := valid_iff.mp hbefore
  obtain ⟨others, rfl⟩ := valid_iff.mp hafter
  exact valid_iff.mpr ⟨chars ++ others, by rw [List.flatMap_append]⟩

/-- A character with an ASCII byte in its encoding is encoded by that byte. -/
theorem encodeChar_eq_singleton {char : Char} (hmem : byte ∈ String.utf8EncodeChar char)
    (hbyte : byte < 128) : String.utf8EncodeChar char = [byte] := by
  have hhigh (n base : ℕ) (hbase : 128 ≤ base) (hn : n + base < 256) :
      byte ≠ UInt8.ofNat (n + base) := by
    intro heq
    rw [heq, UInt8.lt_iff_toNat_lt, UInt8.toNat_ofNat_of_lt' hn] at hbyte
    have : n + base < 128 := hbyte
    omega
  revert hmem
  fun_cases String.utf8EncodeChar char with
  | case1 v h =>
      intro hmem
      rw [List.mem_singleton.mp hmem]
  | case2 v h h' =>
      intro hmem
      simp only [List.mem_cons, List.not_mem_nil, or_false] at hmem
      rcases hmem with hmem | hmem
      · exact absurd hmem (hhigh _ _ (by decide) (by omega))
      · exact absurd hmem (hhigh _ _ (by decide) (by omega))
  | case3 v h h' h'' =>
      intro hmem
      simp only [List.mem_cons, List.not_mem_nil, or_false] at hmem
      rcases hmem with hmem | hmem | hmem
      · exact absurd hmem (hhigh _ _ (by decide) (by omega))
      · exact absurd hmem (hhigh _ _ (by decide) (by omega))
      · exact absurd hmem (hhigh _ _ (by decide) (by omega))
  | case4 v h h' h'' =>
      intro hmem
      simp only [List.mem_cons, List.not_mem_nil, or_false] at hmem
      rcases hmem with hmem | hmem | hmem | hmem
      · exact absurd hmem (hhigh _ _ (by decide) (by omega))
      · exact absurd hmem (hhigh _ _ (by decide) (by omega))
      · exact absurd hmem (hhigh _ _ (by decide) (by omega))
      · exact absurd hmem (hhigh _ _ (by decide) (by omega))

/-- **Cutting before an ASCII byte.** The induction is on the characters: one whose encoding is not
before the byte is the byte. -/
theorem Valid.cut (h : Valid (before ++ byte :: after)) (hbyte : byte < 128) :
    Valid before ∧ Valid (byte :: after) ∧ Valid after := by
  obtain ⟨chars, hchars⟩ := valid_iff.mp h
  clear h
  induction chars generalizing before with
  | nil =>
      exact absurd hchars (by simp)
  | cons char chars ih =>
      rw [List.flatMap_cons] at hchars
      rcases List.append_eq_append_iff.mp hchars with ⟨middle, hencode, hrest⟩ | ⟨middle, hbefore, hrest⟩
      · cases middle with
        | nil =>
            rw [List.append_nil] at hencode
            rw [List.nil_append] at hrest
            obtain ⟨hbefore, hrest⟩ := @ih [] (by rw [List.nil_append]; exact hrest)
            exact ⟨valid_iff.mpr ⟨[char], by simp [hencode]⟩, hrest⟩
        | cons first middle =>
            obtain ⟨rfl, hafter⟩ := List.cons.inj hrest
            have hsingle := @encodeChar_eq_singleton byte _
              (by rw [hencode]; exact List.mem_append_right _ List.mem_cons_self) hbyte
            rw [hencode] at hsingle
            have hlength := congrArg List.length hsingle
            rw [List.length_append, List.length_cons, List.length_singleton] at hlength
            have hempty : before = [] := List.length_eq_zero_iff.mp (by omega)
            have hlast : middle = [] := List.length_eq_zero_iff.mp (by omega)
            subst hempty
            subst hlast
            rw [List.nil_append] at hencode
            change after = chars.flatMap String.utf8EncodeChar at hafter
            have htail : Valid after := valid_iff.mpr ⟨chars, hafter⟩
            refine ⟨valid_iff.mpr ⟨[], rfl⟩, valid_iff.mpr ⟨char :: chars, ?_⟩, htail⟩
            rw [List.flatMap_cons, hencode, ← hafter]
            rfl
      · obtain ⟨hmiddle, hrest⟩ := ih hrest.symm
        refine ⟨?_, hrest⟩
        rw [hbefore]
        exact Valid.append (valid_iff.mpr ⟨[char], by simp⟩) hmiddle

/-- An ASCII character is encoded by its number. -/
theorem encodeChar_ofNat :
    ∀ n : Fin 128, String.utf8EncodeChar (Char.ofNat n) = [UInt8.ofNat n] := by
  decide

/-- A byte string of ASCII bytes is valid. -/
theorem valid_of_ascii (h : ∀ byte ∈ bytes, byte < 128) : Valid bytes := by
  refine valid_iff.mpr ⟨bytes.map fun byte => Char.ofNat byte.toNat, ?_⟩
  induction bytes with
  | nil => rfl
  | cons byte bytes ih =>
      have hbyte : byte.toNat < 128 := UInt8.lt_iff_toNat_lt.mp (h byte List.mem_cons_self)
      rw [List.map_cons, List.flatMap_cons,
        ← ih fun other hother => h other (List.mem_cons_of_mem byte hother)]
      have hencode := encodeChar_ofNat ⟨byte.toNat, hbyte⟩
      rw [UInt8.ofNat_toNat] at hencode
      rw [hencode]
      rfl

variable {stop : UInt8 → Bool}

/-- **Cutting at the first of some ASCII bytes.** -/
theorem Valid.span (h : Valid bytes) (hstop : ∀ byte, stop byte = true → byte < 128) :
    Valid (bytes.takeWhile (!stop ·)) ∧ Valid (bytes.dropWhile (!stop ·)) := by
  have hparts := @List.takeWhile_append_dropWhile _ (!stop ·) bytes
  cases hdrop : bytes.dropWhile (!stop ·) with
  | nil =>
      rw [hdrop, List.append_nil] at hparts
      rw [hparts]
      exact ⟨h, valid_iff.mpr ⟨[], rfl⟩⟩
  | cons byte rest =>
      have hfirst := List.head_dropWhile_not (!stop ·) (l := bytes) (by rw [hdrop]; simp)
      simp only [hdrop, List.head_cons, Bool.not_eq_false'] at hfirst
      rw [hdrop] at hparts
      rw [← hparts] at h
      obtain ⟨hbefore, hafter, _⟩ := h.cut (hstop byte hfirst)
      exact ⟨hbefore, hafter⟩

end Urma.Lib.Utf8
