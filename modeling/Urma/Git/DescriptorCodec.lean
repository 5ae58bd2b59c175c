import Urma.Git.Descriptor

/-!
# A payload has one descriptor

Each part of a descriptor is read back from exactly what is written for it, so the decoder undoes
the encoder and accepts nothing else.
-/

namespace Urma.Git

open Lib.Layout
open Web (ascii)

/-! ## Streams -/

namespace Stream

variable {input after : Stream} {length : ℕ}

theorem remaining_advance (input : Stream) (length : ℕ) :
    (input.advance length).remaining = input.remaining.drop length :=
  (List.drop_drop ..).symm

@[simp] theorem advance_advance (input : Stream) (m n : ℕ) :
    (input.advance m).advance n = input.advance (m + n) := by
  show Stream.mk input.bytes (input.position + m + n) _ = Stream.mk _ (input.position + (m + n)) _
  rw [Nat.add_assoc]

/-- What is read is the front of what remains, and is all that is passed. -/
theorem readExact_eq_ok {taken : Bytes} :
    input.readExact length = .ok (taken, after) ↔
      taken.length = length ∧ input.remaining = taken ++ after.remaining ∧
        after = input.advance length := by
  rw [readExact]
  constructor
  · intro h
    split at h
    · next hlength =>
        cases h
        refine ⟨by rw [List.length_take, Nat.min_eq_left hlength], ?_, rfl⟩
        rw [remaining_advance, List.take_append_drop]
    · cases h
  · rintro ⟨rfl, hremaining, rfl⟩
    rw [if_pos (by rw [hremaining, List.length_append]; exact Nat.le_add_right _ _), hremaining,
      List.take_left]

/-- A stream that starts with a part is passed over it. -/
theorem remaining_of_append {part rest : Bytes} (h : input.remaining = part ++ rest) :
    (input.advance part.length).remaining = rest := by
  rw [remaining_advance, h, List.drop_left]

/-- The position after a part that was there is inside the stream. -/
theorem position_of_append {part rest : Bytes} (h : input.remaining = part ++ rest)
    (hpart : part ≠ []) :
    input.position + part.length + rest.length = input.bytes.length := by
  have hlength := congrArg List.length h
  rw [remaining, List.length_drop, List.length_append] at hlength
  have hpos := List.length_pos_iff.mpr hpart
  omega

end Stream

/-! ## Fields -/

theorem copyFromSlice_toList {n : ℕ} (array : Vector UInt8 n) :
    copyFromSlice n array.toList = array := by
  apply Vector.ext
  intro i hi
  rw [copyFromSlice, Vector.getElem_ofFn, List.getD_eq_getElem?_getD]
  rw [List.getElem?_eq_getElem (by rw [Vector.length_toList]; exact hi), Option.getD_some,
    Vector.getElem_toList]

theorem toList_copyFromSlice {n : ℕ} {bytes : Bytes} (h : bytes.length = n) :
    (copyFromSlice n bytes).toList = bytes := by
  subst h
  have hbytes := copyFromSlice_toList (⟨bytes.toArray, rfl⟩ : Vector UInt8 bytes.length)
  exact congrArg Vector.toList hbytes

theorem u16Bytes_eq_ok {length : ℕ} {bytes : Bytes} :
    u16Bytes length = .ok bytes ↔ length ≤ u16Max ∧ bytes = toLe 2 length := by
  rw [u16Bytes]
  split
  · next h => simp [h, eq_comm]
  · next h => simp [h]

/-- There are two object formats. -/
theorem headLength_eq_ok {objectFormat : UInt8} {length : ℕ} :
    headLength objectFormat = .ok length ↔
      objectFormat = 1 ∧ length = 20 ∨ objectFormat = 2 ∧ length = 32 := by
  rw [headLength]
  by_cases h₁ : objectFormat = 1
  · rw [if_pos h₁, h₁]
    simp [eq_comm]
  · rw [if_neg h₁]
    by_cases h₂ : objectFormat = 2
    · rw [if_pos h₂, h₂]
      simp [eq_comm]
    · rw [if_neg h₂]
      simp [h₁, h₂]

namespace GitProfile

/-- A profile is read back from its revision, and no other byte is a revision. -/
theorem fromRevision_eq_ok {revision : UInt8} {profile : GitProfile} :
    fromRevision revision = .ok profile ↔ revision = profile.revision := by
  rw [fromRevision]
  by_cases h₀ : revision = 0
  · rw [if_pos h₀, h₀]
    cases profile <;> simp [GitProfile.revision]
  · rw [if_neg h₀]
    by_cases h₁ : revision = 1
    · rw [if_pos h₁, h₁]
      cases profile <;> simp [GitProfile.revision]
    · rw [if_neg h₁]
      cases profile <;> simp [GitProfile.revision, h₀, h₁]

theorem forName_eq_unnamed {name : Text} : forName name = unnamed ↔ name.bytes = [] := by
  rw [forName]
  cases name.bytes <;> simp

end GitProfile

/-! ## Names -/

/-- What is written of a name. -/
def nameBytes (name : Text) : Bytes :=
  if name.bytes.isEmpty then [] else toLe 2 name.len ++ name.bytes

theorem eq_emptyText {name : Text} (h : name.bytes = []) : name = emptyText := by
  obtain ⟨bytes, utf8⟩ := name
  cases h
  rfl

theorem nameBytes_empty : nameBytes emptyText = [] := rfl

theorem nameBytes_of_ne {name : Text} (h : name.bytes ≠ []) :
    nameBytes name = toLe 2 name.len ++ name.bytes := by
  rw [nameBytes, if_neg (by rw [List.isEmpty_iff]; exact h)]

/-- A valid name has from 1 to 100 bytes. -/
theorem validateName_bounds {name : Text} (h : validateName name = .ok ()) :
    name.bytes ≠ [] ∧ name.len ≤ 100 := by
  rw [validateName] at h
  split at h
  · cases h
  · next hbytes =>
      simp only [ensureDescriptor_eq_ok, Bool.and_eq_true, decide_eq_true_eq] at h
      exact ⟨by rw [hbytes]; exact List.cons_ne_nil _ _, h.1.1.1.1⟩

/-- The name of a descriptor is empty or valid. -/
theorem validateRepositoryName_eq_ok {name : Text} :
    Descriptor.validateRepositoryName name = .ok () ↔
      name = emptyText ∨ validateName name = .ok () := by
  rw [Descriptor.validateRepositoryName]
  by_cases hname : name.bytes = []
  · rw [if_pos (List.isEmpty_iff.mpr hname)]
    exact iff_of_true rfl (Or.inl (eq_emptyText hname))
  · rw [if_neg (by rw [List.isEmpty_iff]; exact hname)]
    constructor
    · exact Or.inr
    · rintro (rfl | h)
      · exact absurd rfl hname
      · exact h

theorem repositoryName_len {name : Text} (h : Descriptor.validateRepositoryName name = .ok ()) :
    name.len ≤ 100 := by
  rcases validateRepositoryName_eq_ok.mp h with rfl | hname
  · exact Nat.zero_le _
  · exact (validateName_bounds hname).2

/-- **A name is read from exactly what is written for it**, under the revision of its profile. -/
theorem readName_eq_ok {input after : Stream} {revision : UInt8} {name : Text}
    (hrevision : revision = 0 ∨ revision = 1) :
    readName input revision = .ok (name, after) ↔
      Descriptor.validateRepositoryName name = .ok () ∧
        revision = (GitProfile.forName name).revision ∧
        input.remaining = nameBytes name ++ after.remaining ∧
        after = input.advance (nameBytes name).length := by
  rcases hrevision with rfl | rfl
  · rw [readName, if_pos rfl]
    constructor
    · intro h
      cases h
      exact ⟨rfl, rfl, rfl, rfl⟩
    · rintro ⟨_, hprofile, _, rfl⟩
      cases hname : GitProfile.forName name with
      | unnamed =>
          rw [eq_emptyText (GitProfile.forName_eq_unnamed.mp hname)]
          rfl
      | named =>
          rw [hname] at hprofile
          cases hprofile
  · rw [readName, if_neg (by decide)]
    simp only [Except.bind_eq_ok, Prod.exists, Stream.readExact_eq_ok, ensureDescriptor_eq_ok]
    constructor
    · rintro ⟨lengthBytes, middle, ⟨hwidth, hlength, rfl⟩, _, _, bytes, last,
        ⟨hbytes, hname, rfl⟩, h⟩
      cases htext : Text.fromUtf8 bytes with
      | error cause => rw [htext] at h; cases h
      | ok text =>
          rw [htext] at h
          simp only [Except.bind_eq_ok] at h
          obtain ⟨_, hvalid, h⟩ := h
          cases h
          cases Text.fromUtf8_eq_ok.mp htext
          have hne := (validateName_bounds hvalid).1
          have hwritten : lengthBytes = toLe 2 name.len := by
            rw [Text.len, hbytes, ← hwidth, toLe_fromLe]
          refine ⟨validateRepositoryName_eq_ok.mpr (Or.inr hvalid), ?_, ?_, ?_⟩
          · rw [GitProfile.forName, if_neg (by rw [List.isEmpty_iff]; exact hne)]
            rfl
          · rw [hlength, hname, nameBytes_of_ne hne, hwritten, List.append_assoc]
          · rw [nameBytes_of_ne hne, List.length_append, toLe_length, Stream.advance_advance,
              ← hbytes]
    · rintro ⟨hvalid, hprofile, hremaining, rfl⟩
      have hne : name.bytes ≠ [] := by
        intro hname
        rw [GitProfile.forName_eq_unnamed.mpr hname] at hprofile
        cases hprofile
      have hvalidName : validateName name = .ok () := by
        rcases validateRepositoryName_eq_ok.mp hvalid with rfl | h
        · exact absurd rfl hne
        · exact h
      have hbound := (validateName_bounds hvalidName).2
      have hread : fromLe (toLe 2 name.len) = name.len := fromLe_toLe (by omega)
      rw [nameBytes_of_ne hne, List.append_assoc] at hremaining
      have hafter := Stream.remaining_of_append hremaining
      rw [toLe_length] at hafter
      refine ⟨toLe 2 name.len, input.advance 2, ⟨toLe_length _ _, ?_, rfl⟩, (), ?_, name.bytes, _,
        ⟨hread.symm, ?_, rfl⟩, ?_⟩
      · rw [hafter, hremaining]
      · rw [hread, Bool.and_eq_true, bne_iff_ne, decide_eq_true_eq]
        exact ⟨fun h => hne (List.length_eq_zero_iff.mp h), hbound⟩
      · rw [hafter, hread, List.length_append, toLe_length, Stream.advance_advance]
        rfl
      · rw [Text.fromUtf8_eq_ok.mpr rfl]
        simp only [hvalidName, Except.ok_bind, hread, Stream.advance_advance]
        rw [nameBytes_of_ne hne, List.length_append, toLe_length]
        rfl

/-! ## The fixed part -/

namespace Descriptor

variable {descriptor : Descriptor}

/-- The 108 bytes of the fixed layout, with the length of the branch as two bytes. -/
def fixedBytes (descriptor : Descriptor) : Bytes :=
  [descriptor.objectFormat, (GitProfile.forName descriptor.repositoryName).revision] ++
    (toLe 2 descriptor.branch.length ++ (toLe 8 descriptor.packLength.toNat ++
      (descriptor.packSha256.toList ++ (descriptor.firstRoot.toList ++
        descriptor.previousRoot.toList))))

/-- All the bytes of a descriptor. -/
def written (descriptor : Descriptor) : Bytes :=
  descriptor.fixedBytes ++ (descriptor.head ++ (descriptor.branch ++
    nameBytes descriptor.repositoryName))

@[simp] theorem fixedBytes_length (descriptor : Descriptor) :
    descriptor.fixedBytes.length = 108 := by
  simp [fixedBytes]

/-- The fields of the fixed part stand at their offsets. -/
theorem fixedBytes_fields (descriptor : Descriptor) :
    slice descriptor.fixedBytes 2 4 = toLe 2 descriptor.branch.length ∧
      slice descriptor.fixedBytes 4 12 = toLe 8 descriptor.packLength.toNat ∧
      slice descriptor.fixedBytes 12 44 = descriptor.packSha256.toList ∧
      slice descriptor.fixedBytes 44 76 = descriptor.firstRoot.toList ∧
      slice descriptor.fixedBytes 76 108 = descriptor.previousRoot.toList := by
  let first : Bytes :=
    [descriptor.objectFormat, (GitProfile.forName descriptor.repositoryName).revision]
  refine ⟨slice_eq first _ _ rfl rfl (by simp), ?_, ?_, ?_, ?_⟩
  · refine slice_eq (first ++ toLe 2 descriptor.branch.length) _
      (descriptor.packSha256.toList ++ (descriptor.firstRoot.toList ++
        descriptor.previousRoot.toList)) ?_ (by simp [first]) (by simp)
    rw [List.append_assoc, fixedBytes]
  · refine slice_eq (first ++ toLe 2 descriptor.branch.length ++
      toLe 8 descriptor.packLength.toNat) _
      (descriptor.firstRoot.toList ++ descriptor.previousRoot.toList) ?_ (by simp [first]) (by simp)
    rw [List.append_assoc, List.append_assoc, fixedBytes]
  · refine slice_eq (first ++ toLe 2 descriptor.branch.length ++
      toLe 8 descriptor.packLength.toNat ++ descriptor.packSha256.toList) _
      descriptor.previousRoot.toList ?_ (by simp [first]) (by simp)
    rw [List.append_assoc, List.append_assoc, List.append_assoc, fixedBytes]
  · refine slice_eq (first ++ toLe 2 descriptor.branch.length ++
      toLe 8 descriptor.packLength.toNat ++ descriptor.packSha256.toList ++
      descriptor.firstRoot.toList) _ [] ?_ (by simp [first]) (by simp)
    rw [List.append_nil, List.append_assoc, List.append_assoc, List.append_assoc,
      List.append_assoc, fixedBytes]

theorem two_cons {bytes : Bytes} (h : 2 ≤ bytes.length) :
    [bytes.getD 0 0, bytes.getD 1 0] ++ bytes.drop 2 = bytes := by
  match bytes, h with
  | a :: b :: rest, _ => rfl

/-- A fixed part is the one of a descriptor with its fields. -/
theorem eq_fixedBytes {fixed : Bytes} (hlength : fixed.length = 108)
    (hformat : descriptor.objectFormat = fixed.getD 0 0)
    (hrevision : (GitProfile.forName descriptor.repositoryName).revision = fixed.getD 1 0)
    (hbranch : descriptor.branch.length = fromLe (slice fixed 2 4))
    (hpackLength : descriptor.packLength = UInt64.ofNat (fromLe (slice fixed 4 12)))
    (hsha256 : descriptor.packSha256 = copyFromSlice 32 (slice fixed 12 44))
    (hfirst : descriptor.firstRoot = copyFromSlice 32 (slice fixed 44 76))
    (hprevious : descriptor.previousRoot = copyFromSlice 32 (slice fixed 76 108)) :
    fixed = descriptor.fixedBytes := by
  have hslice (start stop : ℕ) (hstop : stop ≤ 108) :
      (slice fixed start stop).length = stop - start :=
    slice_length_of_le (hlength ▸ hstop)
  have hpack : descriptor.packLength.toNat = fromLe (slice fixed 4 12) := by
    have hbound := fromLe_lt (slice fixed 4 12)
    rw [hslice 4 12 (by decide)] at hbound
    rw [hpackLength]
    exact UInt64.toNat_ofNat_of_lt' hbound
  rw [fixedBytes, hformat, hrevision, hbranch, hpack, hsha256, hfirst, hprevious,
    toLe_fromLe_slice rfl (by omega), toLe_fromLe_slice rfl (by omega),
    toList_copyFromSlice (hslice 12 44 (by decide)), toList_copyFromSlice (hslice 44 76 (by decide)),
    toList_copyFromSlice (hslice 76 108 (by decide))]
  have hlast : fixed.drop 108 = [] := List.drop_eq_nil_of_le (by omega)
  have hrest : fixed.drop 2 = slice fixed 2 4 ++ (slice fixed 4 12 ++ (slice fixed 12 44 ++
      (slice fixed 44 76 ++ slice fixed 76 108))) := by
    rw [drop_eq_slice_append (show 2 ≤ 4 by decide), drop_eq_slice_append (show 4 ≤ 12 by decide),
      drop_eq_slice_append (show 12 ≤ 44 by decide), drop_eq_slice_append (show 44 ≤ 76 by decide),
      drop_eq_slice_append (show 76 ≤ 108 by decide), hlast, List.append_nil]
  rw [← hrest]
  exact (two_cons (by omega)).symm

/-! ## Validity -/

/-- **A valid descriptor**: the fields fit their widths and agree with the object format. -/
structure Valid (descriptor : Descriptor) : Prop where
  name : validateRepositoryName descriptor.repositoryName = .ok ()
  head : headLength descriptor.objectFormat = .ok descriptor.head.length
  branch : descriptor.branch.length ≤ u16Max

/-- What `validate` accepts is valid. -/
theorem valid_of_validate (h : descriptor.validate = .ok ()) : descriptor.Valid := by
  simp only [validate, Except.bind_eq_ok, ensureDescriptor_eq_ok, Bool.and_eq_true, beq_iff_eq,
    decide_eq_true_eq] at h
  obtain ⟨_, hname, expected, hexpected, ⟨⟨⟨⟨hhead, _⟩, hbranch⟩, _⟩, _⟩, _⟩ := h
  exact ⟨hname, hhead ▸ hexpected, hbranch⟩

/-- The head of a valid descriptor has at most 32 bytes. -/
theorem Valid.head_le (h : descriptor.Valid) : descriptor.head.length ≤ 32 := by
  rcases headLength_eq_ok.mp h.head with ⟨_, hlength⟩ | ⟨_, hlength⟩
  · omega
  · omega

theorem nameBytes_length_le {name : Text} (h : name.len ≤ 100) : (nameBytes name).length ≤ 102 := by
  rw [nameBytes]
  split
  · exact Nat.zero_le _
  · rw [List.length_append, toLe_length]
    rw [Text.len] at h
    omega

/-- **A descriptor is short**: the limit is what the widths and the rules of the fields leave. -/
theorem Valid.written_length_le (h : descriptor.Valid) :
    descriptor.written.length ≤ maxPrefixBytes := by
  have hhead := h.head_le
  have hbranch := h.branch
  have hname := nameBytes_length_le (repositoryName_len h.name)
  rw [written, List.length_append, List.length_append, List.length_append, fixedBytes_length]
  simp only [u16Max] at hbranch
  simp only [maxPrefixBytes]
  omega

/-! ## Encoding -/

theorem encodeName_of_len {name : Text} (h : name.len ≤ 100) :
    encodeName name = .ok (nameBytes name) := by
  rw [encodeName, nameBytes]
  split
  · rfl
  · rw [u16Bytes_eq_ok.mpr ⟨Nat.le_trans h (by decide), rfl⟩]
    rfl

/-- **The encoder writes the fields one after another**, of what `validate` accepts. -/
theorem encode_eq_ok {bytes : Bytes} :
    descriptor.encode = .ok bytes ↔ descriptor.validate = .ok () ∧ bytes = descriptor.written := by
  have hwritten (h : descriptor.validate = .ok ()) :
      descriptor.encode = .ok descriptor.written := by
    have hvalid := valid_of_validate h
    rw [encode, h, u16Bytes_eq_ok.mpr ⟨hvalid.branch, rfl⟩,
      encodeName_of_len (repositoryName_len hvalid.name)]
    simp only [Except.ok_bind, written, fixedBytes, List.append_assoc]
  constructor
  · intro h
    cases hvalidate : descriptor.validate with
    | error cause =>
        rw [encode, hvalidate] at h
        cases h
    | ok u =>
        rw [hwritten hvalidate] at h
        cases h
        exact ⟨rfl, rfl⟩
  · rintro ⟨h, rfl⟩
    exact hwritten h

/-! ## Decoding -/

/-- What follows the fixed part, the head, the branch and the name. -/
theorem remaining_written {input : Stream} {pack : Bytes}
    (h : input.remaining = descriptor.written ++ pack) :
    (input.advance 108).remaining = descriptor.head ++ (descriptor.branch ++
        (nameBytes descriptor.repositoryName ++ pack)) ∧
      (input.advance (108 + descriptor.head.length)).remaining = descriptor.branch ++
        (nameBytes descriptor.repositoryName ++ pack) ∧
      (input.advance (108 + descriptor.head.length + descriptor.branch.length)).remaining =
        nameBytes descriptor.repositoryName ++ pack ∧
      (input.advance (108 + descriptor.head.length + descriptor.branch.length +
        (nameBytes descriptor.repositoryName).length)).remaining = pack := by
  simp only [written, List.append_assoc] at h
  have hfixed := Stream.remaining_of_append h
  rw [fixedBytes_length] at hfixed
  have hhead := Stream.remaining_of_append hfixed
  rw [Stream.advance_advance] at hhead
  have hbranch := Stream.remaining_of_append hhead
  rw [Stream.advance_advance] at hbranch
  have hname := Stream.remaining_of_append hbranch
  rw [Stream.advance_advance] at hname
  exact ⟨hfixed, hhead, hbranch, hname⟩

theorem written_length (descriptor : Descriptor) :
    descriptor.written.length = 108 + descriptor.head.length + descriptor.branch.length +
      (nameBytes descriptor.repositoryName).length := by
  rw [written, List.length_append, List.length_append, List.length_append, fixedBytes_length]
  omega

theorem written_ne_nil (descriptor : Descriptor) : descriptor.written ≠ [] := by
  intro h
  have hlength := written_length descriptor
  rw [h, List.length_nil] at hlength
  omega

/-- What the decoder accepts goes on with what is written of the descriptor, and then a pack of the
length it announces. -/
theorem written_of_decode {input after : Stream} (h : decode input = .ok (descriptor, after)) :
    descriptor.validate = .ok () ∧ after = input.advance descriptor.written.length ∧
      ∃ pack, input.remaining = descriptor.written ++ pack ∧
        pack.length = descriptor.packLength.toNat := by
  simp only [decode, Except.bind_eq_ok, Prod.exists, Stream.readExact_eq_ok] at h
  obtain ⟨fixed, _, ⟨hfixed, hremaining, rfl⟩, length, hlength, profile, hprofile, head, _,
    ⟨hhead, hheadRemaining, rfl⟩, branch, _, ⟨hbranch, hbranchRemaining, rfl⟩, name, last, hname,
    _, hvalidate, h⟩ := h
  have hrevision : fixed.getD 1 0 = 0 ∨ fixed.getD 1 0 = 1 := by
    rw [GitProfile.fromRevision_eq_ok.mp hprofile]
    cases profile
    · exact Or.inl rfl
    · exact Or.inr rfl
  obtain ⟨_, hrevisionName, hnameRemaining, hlast⟩ := (readName_eq_ok hrevision).mp hname
  rw [Stream.advance_advance, Stream.advance_advance, Stream.advance_advance] at hlast
  cases htotal : checkedAdd (UInt64.ofNat (fromLe (slice fixed 4 12))).toNat last.position with
  | none =>
      rw [htotal] at h
      cases h
  | some total =>
      rw [htotal] at h
      simp only [Except.bind_eq_ok, ensureDescriptor_eq_ok, beq_iff_eq] at h
      obtain ⟨_, hend, h⟩ := h
      cases h
      obtain ⟨_, rfl⟩ := checkedAdd_eq_some.mp htotal
      have hbytes := @eq_fixedBytes ⟨name, fixed.getD 0 0, head, branch,
        UInt64.ofNat (fromLe (slice fixed 4 12)), copyFromSlice 32 (slice fixed 12 44),
        copyFromSlice 32 (slice fixed 44 76), copyFromSlice 32 (slice fixed 76 108)⟩ _
        hfixed rfl hrevisionName.symm hbranch rfl rfl rfl rfl
      rw [hheadRemaining, hbranchRemaining, hnameRemaining] at hremaining
      refine ⟨hvalidate, ?_, last.remaining, ?_, ?_⟩
      · rw [written_length, hlast, ← hhead, ← hbranch]
        simp only [Stream.seekEnd, Stream.seekStart, Stream.advance, Nat.add_assoc]
      · rw [hremaining, written, ← hbytes]
        simp only [List.append_assoc]
      · rw [Stream.remaining, List.length_drop]
        exact (Nat.eq_sub_of_add_eq hend).symm

/-- **A written descriptor is read back**: the stream is left at its pack. -/
theorem decode_of_written {input : Stream} {pack : Bytes} (hvalidate : descriptor.validate = .ok ())
    (hremaining : input.remaining = descriptor.written ++ pack)
    (hpack : pack.length = descriptor.packLength.toNat) :
    decode input = .ok (descriptor, input.advance descriptor.written.length) := by
  have hvalid := valid_of_validate hvalidate
  have hend := Stream.position_of_append hremaining (written_ne_nil descriptor)
  obtain ⟨hfixed, hhead, hbranch, hname⟩ := remaining_written hremaining
  obtain ⟨hbranchLength, hpackLength, hsha256, hfirst, hprevious⟩ := fixedBytes_fields descriptor
  have hbranchRead : fromLe (slice descriptor.fixedBytes 2 4) = descriptor.branch.length := by
    rw [hbranchLength]
    exact fromLe_toLe (Nat.lt_succ_of_le hvalid.branch)
  have hpackRead : UInt64.ofNat (fromLe (slice descriptor.fixedBytes 4 12)) =
      descriptor.packLength := by
    rw [hpackLength, fromLe_toLe descriptor.packLength.toNat_lt, UInt64.ofNat_toNat]
  have hrevision : descriptor.fixedBytes.getD 1 0 = 0 ∨ descriptor.fixedBytes.getD 1 0 = 1 := by
    show (GitProfile.forName descriptor.repositoryName).revision = 0 ∨
      (GitProfile.forName descriptor.repositoryName).revision = 1
    cases GitProfile.forName descriptor.repositoryName
    · exact Or.inl rfl
    · exact Or.inr rfl
  have hreadFixed : input.readExact 108 = .ok (descriptor.fixedBytes, input.advance 108) := by
    refine Stream.readExact_eq_ok.mpr ⟨fixedBytes_length _, ?_, rfl⟩
    rw [hremaining, hfixed, written]
    simp only [List.append_assoc]
  have hreadHead : (input.advance 108).readExact descriptor.head.length =
      .ok (descriptor.head, input.advance (108 + descriptor.head.length)) := by
    refine Stream.readExact_eq_ok.mpr ⟨rfl, ?_, by rw [Stream.advance_advance]⟩
    rw [hfixed, hhead]
  have hreadBranch : (input.advance (108 + descriptor.head.length)).readExact
      descriptor.branch.length = .ok (descriptor.branch,
        input.advance (108 + descriptor.head.length + descriptor.branch.length)) := by
    refine Stream.readExact_eq_ok.mpr ⟨rfl, ?_, by rw [Stream.advance_advance]⟩
    rw [hhead, hbranch]
  have hreadName := (@readName_eq_ok (input.advance (108 + descriptor.head.length +
    descriptor.branch.length)) _ _ descriptor.repositoryName hrevision).mpr
    ⟨hvalid.name, rfl, by rw [Stream.advance_advance, hbranch, hname], rfl⟩
  have hprofile : GitProfile.fromRevision (descriptor.fixedBytes.getD 1 0) =
      .ok (GitProfile.forName descriptor.repositoryName) :=
    GitProfile.fromRevision_eq_ok.mpr rfl
  have hformat : headLength (descriptor.fixedBytes.getD 0 0) = .ok descriptor.head.length :=
    hvalid.head
  have htotal : checkedAdd descriptor.packLength.toNat
      (input.advance descriptor.written.length).position = some input.bytes.length := by
    have hbounded := input.bounded
    refine checkedAdd_eq_some.mpr ⟨?_, ?_⟩
    · show _ + (input.position + _) ≤ _
      omega
    · show _ = _ + (input.position + _)
      omega
  simp only [decode, hreadFixed, Except.ok_bind, hformat, hprofile, hbranchRead, hreadHead,
    hreadBranch, hreadName, hpackRead, hsha256, hfirst, hprevious, copyFromSlice_toList,
    Stream.advance_advance, ← written_length]
  have hsame : (⟨descriptor.repositoryName, descriptor.fixedBytes.getD 0 0, descriptor.head,
      descriptor.branch, descriptor.packLength, descriptor.packSha256, descriptor.firstRoot,
      descriptor.previousRoot⟩ : Descriptor) = descriptor := rfl
  rw [hsame, hvalidate]
  simp only [Except.ok_bind, htotal]
  show (ensureDescriptor (input.bytes.length == input.bytes.length) _ >>= fun _ =>
    .ok (descriptor, input.advance descriptor.written.length)) = _
  rw [ensureDescriptor_eq_ok (u := ()).mpr (beq_self_eq_true _)]
  rfl

/-! ## The format -/

/-- What the decoder accepts, it accepts of every stream with the same bytes to come. -/
theorem eq_of_decode {input other after otherAfter : Stream} {otherDescriptor : Descriptor}
    (h : decode input = .ok (descriptor, after))
    (hother : decode other = .ok (otherDescriptor, otherAfter))
    (hremaining : input.remaining = other.remaining) : descriptor = otherDescriptor := by
  obtain ⟨_, _, pack, hpackRemaining, hpack⟩ := written_of_decode hother
  obtain ⟨hvalidate, _, _⟩ := written_of_decode hother
  have hdecode := decode_of_written hvalidate (hremaining.trans hpackRemaining) hpack
  rw [h] at hdecode
  exact congrArg Prod.fst (Except.ok.inj hdecode)

/-- **The descriptor codec is exact.** Where a stream goes on with an encoded descriptor and a pack
of the length it announces, decoding returns the descriptor and leaves the stream at the pack.
Whatever is decoded was such an encoding, of at most `maxPrefixBytes`, and its second byte alone
names the profile. A payload has one descriptor. -/
theorem descriptor_codec_exact :
    (∀ descriptor : Descriptor, descriptor.validate = .ok () →
      ∃ bytes, descriptor.encode = .ok bytes ∧ ∀ (input : Stream) (pack : Bytes),
        input.remaining = bytes ++ pack → pack.length = descriptor.packLength.toNat →
          decode input = .ok (descriptor, input.advance bytes.length) ∧
            (input.advance bytes.length).remaining = pack) ∧
    (∀ (input after : Stream) (descriptor : Descriptor), decode input = .ok (descriptor, after) →
      ∃ bytes pack, descriptor.encode = .ok bytes ∧ input.remaining = bytes ++ pack ∧
        pack.length = descriptor.packLength.toNat ∧ after = input.advance bytes.length ∧
        after.remaining = pack ∧ bytes.length ≤ maxPrefixBytes ∧
        ∃ profile, GitProfile.fromRevision (bytes.getD 1 0) = .ok profile ∧
          descriptor.profile = profile.identifier) ∧
    (∀ (input other after otherAfter : Stream) (descriptor otherDescriptor : Descriptor),
      input.remaining = other.remaining → decode input = .ok (descriptor, after) →
      decode other = .ok (otherDescriptor, otherAfter) → descriptor = otherDescriptor) := by
  refine ⟨?_, ?_, ?_⟩
  · intro descriptor hvalidate
    refine ⟨descriptor.written, encode_eq_ok.mpr ⟨hvalidate, rfl⟩, ?_⟩
    intro input pack hremaining hpack
    exact ⟨decode_of_written hvalidate hremaining hpack, Stream.remaining_of_append hremaining⟩
  · intro input after descriptor hdecode
    obtain ⟨hvalidate, rfl, pack, hremaining, hpack⟩ := written_of_decode hdecode
    have hvalid := valid_of_validate hvalidate
    exact ⟨descriptor.written, pack, encode_eq_ok.mpr ⟨hvalidate, rfl⟩, hremaining, hpack, rfl,
      Stream.remaining_of_append hremaining, hvalid.written_length_le,
      GitProfile.forName descriptor.repositoryName, GitProfile.fromRevision_eq_ok.mpr rfl, rfl⟩
  · intro input other after otherAfter descriptor otherDescriptor hremaining hdecode hother
    exact eq_of_decode hdecode hother hremaining

/-- A named snapshot of the branch `m`. -/
def sample : Descriptor where
  repositoryName := ⟨[97], by decide⟩
  objectFormat := 1
  head := List.replicate 20 7
  branch := ascii "refs/heads/m"
  packLength := 32
  packSha256 := Vector.replicate 32 5
  firstRoot := Vector.replicate 32 0
  previousRoot := Vector.replicate 32 0

theorem descriptor_codec_exact_sample :
    ∃ bytes, sample.encode = .ok bytes ∧ ∀ (input : Stream) (pack : Bytes),
      input.remaining = bytes ++ pack → pack.length = 32 →
        decode input = .ok (sample, input.advance bytes.length) ∧
          (input.advance bytes.length).remaining = pack :=
  descriptor_codec_exact.1 sample rfl

end Descriptor

end Urma.Git
