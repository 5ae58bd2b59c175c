import Mathlib.Data.Nat.Notation

/-!
# Exact readers

A reader takes a value off the front of a byte string and leaves the rest. It is exact for a
writer when it reads just what the writer writes: every valid value is read back, and no other
bytes read as it. Exactness passes from a reader to its repetition.
-/

namespace Urma.Lib.Reader

variable {ε α : Type}

/-- A reader of a value, with what it leaves. -/
abbrev Read (ε α : Type) :=
  List UInt8 → Except ε (α × List UInt8)

/-- The reader undoes the writer on valid values, and accepts nothing else. -/
def Exact (read : Read ε α) (write : α → List UInt8) (Valid : α → Prop) : Prop :=
  ∀ (bytes : List UInt8) (a : α) (rest : List UInt8),
    read bytes = .ok (a, rest) ↔ Valid a ∧ bytes = write a ++ rest

/-- The same reader several times in a row. -/
def readMany (read : Read ε α) : ℕ → Read ε (List α)
  | 0, bytes => .ok ([], bytes)
  | count + 1, bytes => do
      let (a, bytes) ← read bytes
      let (as, bytes) ← readMany read count bytes
      .ok (a :: as, bytes)

/-- As many values are read as were asked for. -/
theorem readMany_length {read : Read ε α} {count : ℕ} {bytes rest : List UInt8} {as : List α}
    (h : readMany read count bytes = .ok (as, rest)) : as.length = count := by
  induction count generalizing bytes as with
  | zero =>
      cases h
      rfl
  | succ count ih =>
      rw [readMany] at h
      cases hfirst : read bytes with
      | error e =>
          rw [hfirst] at h
          cases h
      | ok first =>
          obtain ⟨a, middle⟩ := first
          rw [hfirst] at h
          cases hothers : readMany read count middle with
          | error e =>
              simp only [bind, Except.bind, hothers] at h
              cases h
          | ok others =>
              obtain ⟨as', left⟩ := others
              simp only [bind, Except.bind, hothers] at h
              cases h
              rw [List.length_cons, ih hothers]

/-- **Repetition is exact**: the values are written one after another. -/
theorem Exact.readMany {read : Read ε α} {write : α → List UInt8} {Valid : α → Prop}
    (h : Exact read write Valid) (count : ℕ) :
    Exact (readMany read count) (fun as => as.flatMap write)
      (fun as => as.length = count ∧ ∀ a ∈ as, Valid a) := by
  induction count with
  | zero =>
      intro bytes as rest
      constructor
      · intro heq
        cases heq
        exact ⟨⟨rfl, fun a ha => by cases ha⟩, rfl⟩
      · rintro ⟨⟨hlength, _⟩, rfl⟩
        rw [List.length_eq_zero_iff.mp hlength]
        rfl
  | succ count ih =>
      intro bytes as rest
      rw [Reader.readMany]
      constructor
      · intro heq
        cases hfirst : read bytes with
        | error e => rw [hfirst] at heq; cases heq
        | ok first =>
            obtain ⟨a, middle⟩ := first
            rw [hfirst] at heq
            cases hrest : Reader.readMany read count middle with
            | error e =>
                simp only [bind, Except.bind, hrest] at heq
                cases heq
            | ok others =>
                obtain ⟨as', rest'⟩ := others
                simp only [bind, Except.bind, hrest] at heq
                cases heq
                obtain ⟨hvalid, hbytes⟩ := (h bytes a middle).mp hfirst
                obtain ⟨⟨hlength, hall⟩, hmiddle⟩ := (ih middle as' _).mp hrest
                refine ⟨⟨by rw [List.length_cons, hlength], ?_⟩, ?_⟩
                · intro b hb
                  rcases List.mem_cons.mp hb with rfl | hb
                  · exact hvalid
                  · exact hall b hb
                · rw [hbytes, hmiddle]
                  show write a ++ (as'.flatMap write ++ _) = (a :: as').flatMap write ++ _
                  rw [List.flatMap_cons, List.append_assoc]
      · rintro ⟨⟨hlength, hall⟩, rfl⟩
        cases as with
        | nil => cases hlength
        | cons a as =>
            have hfirst := (h ((a :: as).flatMap write ++ rest) a (as.flatMap write ++ rest)).mpr
              ⟨hall a List.mem_cons_self, by rw [List.flatMap_cons, List.append_assoc]⟩
            have hrest := (ih (as.flatMap write ++ rest) as rest).mpr
              ⟨⟨Nat.succ.inj hlength, fun b hb => hall b (List.mem_cons_of_mem a hb)⟩, rfl⟩
            simp only [bind, Except.bind, hfirst, hrest]

/-! ## One direction -/

/-- The reader undoes the writer on valid values. -/
def Undoes (read : Read ε α) (write : α → List UInt8) (Valid : α → Prop) : Prop :=
  ∀ (a : α) (rest : List UInt8), Valid a → read (write a ++ rest) = .ok (a, rest)

/-- Repetition undoes writing one after another. -/
theorem Undoes.readMany {read : Read ε α} {write : α → List UInt8} {Valid : α → Prop}
    (h : Undoes read write Valid) (as : List α) (rest : List UInt8) (hvalid : ∀ a ∈ as, Valid a) :
    Reader.readMany read as.length (as.flatMap write ++ rest) = .ok (as, rest) := by
  induction as with
  | nil => rfl
  | cons a as ih =>
      have hfirst := h a (as.flatMap write ++ rest) (hvalid a List.mem_cons_self)
      have hrest := ih (fun b hb => hvalid b (List.mem_cons_of_mem a hb))
      rw [List.length_cons, Reader.readMany, List.flatMap_cons, List.append_assoc]
      simp only [bind, Except.bind, hfirst, hrest]

/-- What the reader accepts is what the writer writes. -/
def Rewrites (read : Read ε α) (write : α → List UInt8) : Prop :=
  ∀ (bytes : List UInt8) (a : α) (rest : List UInt8), read bytes = .ok (a, rest) →
    bytes = write a ++ rest

/-- Repetition accepts what is written one after another. -/
theorem Rewrites.readMany {read : Read ε α} {write : α → List UInt8} (h : Rewrites read write)
    (count : ℕ) : Rewrites (readMany read count) fun as => as.flatMap write := by
  induction count with
  | zero =>
      intro bytes as rest heq
      cases heq
      rfl
  | succ count ih =>
      intro bytes as rest heq
      rw [Reader.readMany] at heq
      cases hfirst : read bytes with
      | error e =>
          rw [hfirst] at heq
          cases heq
      | ok first =>
          obtain ⟨a, middle⟩ := first
          rw [hfirst] at heq
          cases hothers : Reader.readMany read count middle with
          | error e =>
              simp only [bind, Except.bind, hothers] at heq
              cases heq
          | ok others =>
              obtain ⟨as', left⟩ := others
              simp only [bind, Except.bind, hothers] at heq
              cases heq
              show bytes = (a :: as').flatMap write ++ rest
              rw [List.flatMap_cons, List.append_assoc, h bytes a middle hfirst,
                ih middle as' rest hothers]

/-! ## What a reader depends on -/

/-- What a reader reads depends on the bytes it takes off the front, and on nothing after them. -/
def Local (read : Read ε α) : Prop :=
  ∀ (bytes : List UInt8) (a : α) (rest : List UInt8), read bytes = .ok (a, rest) →
    ∃ used, bytes = used ++ rest ∧ ∀ other, read (used ++ other) = .ok (a, other)

/-- Repetition is local. -/
theorem Local.readMany {read : Read ε α} (h : Local read) (count : ℕ) :
    Local (readMany read count) := by
  induction count with
  | zero =>
      intro bytes as rest heq
      cases heq
      exact ⟨[], rfl, fun _ => rfl⟩
  | succ count ih =>
      intro bytes as rest heq
      rw [Reader.readMany] at heq
      cases hfirst : read bytes with
      | error e =>
          rw [hfirst] at heq
          cases heq
      | ok first =>
          obtain ⟨a, middle⟩ := first
          rw [hfirst] at heq
          cases hothers : Reader.readMany read count middle with
          | error e =>
              simp only [bind, Except.bind, hothers] at heq
              cases heq
          | ok others =>
              obtain ⟨as', left⟩ := others
              simp only [bind, Except.bind, hothers] at heq
              cases heq
              obtain ⟨used, rfl, hused⟩ := h bytes a middle hfirst
              obtain ⟨used', rfl, hused'⟩ := ih middle as' rest hothers
              refine ⟨used ++ used', (List.append_assoc _ _ _).symm, ?_⟩
              intro other
              rw [List.append_assoc, Reader.readMany]
              simp only [bind, Except.bind, hused, hused']

end Urma.Lib.Reader
