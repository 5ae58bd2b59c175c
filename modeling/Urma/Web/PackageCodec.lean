import Urma.Lib.Sha256
import Urma.Web.Package

/-!
# A site has one package

The readers of the cursor are exact for what the encoder writes, and so is the whole decoder: a
package that is accepted has one byte string, and a byte string that is accepted is the one of its
package.
-/

namespace Urma.Web

open Lib.Layout Lib.Reader

/-! ## The cursor -/

namespace Cursor

variable {total length width : ℕ} {bytes rest : Bytes}

/-- What is taken off the front. -/
theorem take_eq_ok {taken : Bytes} :
    take total length bytes = .ok (taken, rest) ↔ taken.length = length ∧ bytes = taken ++ rest := by
  rw [take]
  constructor
  · intro h
    split at h
    · next hlength =>
        cases h
        exact ⟨by rw [List.length_take, Nat.min_eq_left hlength], (List.take_append_drop _ _).symm⟩
    · split at h
      · cases h
      · cases h
  · rintro ⟨rfl, rfl⟩
    rw [if_pos (by rw [List.length_append]; exact Nat.le_add_right _ _), List.take_left,
      List.drop_left]

theorem number_exact : Exact (number total width) (toLe width) (· < 256 ^ width) := by
  intro bytes value rest
  simp only [number, Except.bind_eq_ok, Prod.exists, take_eq_ok]
  constructor
  · rintro ⟨taken, left, ⟨hlength, rfl⟩, h⟩
    cases h
    rw [← hlength]
    exact ⟨fromLe_lt taken, by rw [toLe_fromLe]⟩
  · rintro ⟨hvalue, rfl⟩
    exact ⟨toLe width value, rest, ⟨toLe_length _ _, rfl⟩, by rw [fromLe_toLe hvalue]⟩

theorem text_exact : Exact (text total length) Text.bytes (·.len = length) := by
  intro bytes value rest
  simp only [text, Except.bind_eq_ok, Prod.exists, take_eq_ok, protocol_eq_ok,
    Text.fromUtf8_eq_ok]
  constructor
  · rintro ⟨taken, left, ⟨hlength, rfl⟩, found, rfl, h⟩
    cases h
    exact ⟨hlength, rfl⟩
  · rintro ⟨hlength, rfl⟩
    exact ⟨value.bytes, rest, ⟨hlength, rfl⟩, value, rfl, rfl⟩

theorem array_exact : Exact (array total) Vector.toList (fun _ => True) := by
  intro bytes value rest
  simp only [array, Except.bind_eq_ok, Prod.exists, take_eq_ok, protocol_eq_ok, tryInto_eq_ok]
  constructor
  · rintro ⟨taken, left, ⟨hlength, rfl⟩, found, rfl, h⟩
    cases h
    exact ⟨trivial, rfl⟩
  · rintro ⟨_, rfl⟩
    exact ⟨value.toList, rest, ⟨Vector.length_toList, rfl⟩, value, rfl, rfl⟩

end Cursor

namespace Package

open Cursor

variable {total width : ℕ} {sha256 : Bytes → Bytes32}

/-! ## Entries -/

/-- A text after its length, as bytes. -/
def textBytes (width : ℕ) (text : Text) : Bytes :=
  toLe width text.len ++ text.bytes

theorem readText_exact :
    Exact (readText total width) (textBytes width) (·.len < 256 ^ width) := by
  intro bytes value rest
  simp only [readText, Except.bind_eq_ok, Prod.exists]
  constructor
  · rintro ⟨length, left, hlength, htext⟩
    obtain ⟨hbound, rfl⟩ := (number_exact _ _ _).mp hlength
    obtain ⟨rfl, rfl⟩ := (text_exact _ _ _).mp htext
    exact ⟨hbound, by rw [textBytes, List.append_assoc]⟩
  · rintro ⟨hbound, rfl⟩
    refine ⟨value.len, value.bytes ++ rest, (number_exact _ _ _).mpr ⟨hbound, ?_⟩,
      (text_exact _ _ _).mpr ⟨rfl, rfl⟩⟩
    rw [textBytes, List.append_assoc]

/-- A line of the directory, as bytes. -/
def DirectoryEntry.bytes (entry : DirectoryEntry) : Bytes :=
  textBytes 2 entry.path ++ (textBytes 1 entry.mime ++ (toLe 8 entry.length ++
    entry.sha256.toList))

/-- A line whose fields fit their widths. -/
structure DirectoryEntry.Fits (entry : DirectoryEntry) : Prop where
  path : entry.path.len < 256 ^ 2
  mime : entry.mime.len < 256 ^ 1
  length : entry.length < 256 ^ 8

theorem readFile_exact : Exact (readFile total) DirectoryEntry.bytes DirectoryEntry.Fits := by
  intro bytes entry rest
  simp only [readFile, Except.bind_eq_ok, Prod.exists]
  constructor
  · rintro ⟨path, _, hpath, mime, _, hmime, length, _, hlength, sha256, _, hsha256, h⟩
    cases h
    obtain ⟨hpathFits, rfl⟩ := (readText_exact _ _ _).mp hpath
    obtain ⟨hmimeFits, rfl⟩ := (readText_exact _ _ _).mp hmime
    obtain ⟨hlengthFits, rfl⟩ := (number_exact _ _ _).mp hlength
    obtain ⟨_, rfl⟩ := (array_exact _ _ _).mp hsha256
    refine ⟨⟨hpathFits, hmimeFits, hlengthFits⟩, ?_⟩
    simp only [DirectoryEntry.bytes, List.append_assoc]
  · rintro ⟨hfits, rfl⟩
    simp only [DirectoryEntry.bytes, List.append_assoc]
    exact ⟨_, _, (readText_exact _ _ _).mpr ⟨hfits.path, rfl⟩,
      _, _, (readText_exact _ _ _).mpr ⟨hfits.mime, rfl⟩,
      _, _, (number_exact _ _ _).mpr ⟨hfits.length, rfl⟩,
      _, _, (array_exact _ _ _).mpr ⟨trivial, rfl⟩, rfl⟩

/-- The entry of a pinned object, as bytes. -/
def pinBytes (pin : PinnedEntry) : Bytes :=
  textBytes 2 pin.path ++ (textBytes 1 pin.mime ++ (pin.rootTxid.bytes.toList ++
    pin.payloadSha256.toList))

theorem readPin_exact : Exact (readPin total) pinBytes
    (fun pin => pin.path.len < 256 ^ 2 ∧ pin.mime.len < 256 ^ 1) := by
  intro bytes pin rest
  simp only [readPin, Except.bind_eq_ok, Prod.exists]
  constructor
  · rintro ⟨path, _, hpath, mime, _, hmime, txid, _, htxid, hash, _, hhash, h⟩
    cases h
    obtain ⟨hpathFits, rfl⟩ := (readText_exact _ _ _).mp hpath
    obtain ⟨hmimeFits, rfl⟩ := (readText_exact _ _ _).mp hmime
    obtain ⟨_, rfl⟩ := (array_exact _ _ _).mp htxid
    obtain ⟨_, rfl⟩ := (array_exact _ _ _).mp hhash
    refine ⟨⟨hpathFits, hmimeFits⟩, ?_⟩
    simp only [pinBytes, List.append_assoc]
  · rintro ⟨⟨hpath, hmime⟩, rfl⟩
    simp only [pinBytes, List.append_assoc]
    exact ⟨_, _, (readText_exact _ _ _).mpr ⟨hpath, rfl⟩,
      _, _, (readText_exact _ _ _).mpr ⟨hmime, rfl⟩,
      _, _, (array_exact _ _ _).mpr ⟨trivial, rfl⟩,
      _, _, (array_exact _ _ _).mpr ⟨trivial, rfl⟩, rfl⟩

/-- The directory line of a file. -/
def directoryEntry (file : FileEntry) : DirectoryEntry :=
  ⟨file.path, file.mime, file.bytes.length, file.sha256⟩

/-- **The contents are read along the directory**: every file gets the bytes its line announces. -/
theorem readContents_eq_ok {directory : List DirectoryEntry} {bytes rest : Bytes}
    {files : List FileEntry} :
    readContents total directory bytes = .ok (files, rest) ↔
      files.map directoryEntry = directory ∧ bytes = files.flatMap FileEntry.bytes ++ rest := by
  induction directory generalizing bytes files with
  | nil =>
      rw [readContents, List.map_eq_nil_iff]
      constructor
      · intro h
        cases h
        exact ⟨rfl, rfl⟩
      · rintro ⟨rfl, rfl⟩
        rfl
  | cons entry directory ih =>
      simp only [readContents, Except.bind_eq_ok, Prod.exists, take_eq_ok]
      constructor
      · rintro ⟨taken, left, ⟨hlength, rfl⟩, others, last, hothers, h⟩
        cases h
        obtain ⟨rfl, rfl⟩ := ih.mp hothers
        rw [List.map_cons, List.flatMap_cons, List.append_assoc, directoryEntry, hlength]
        exact ⟨rfl, rfl⟩
      · rintro ⟨hfiles, rfl⟩
        cases files with
        | nil => cases hfiles
        | cons file files =>
            rw [List.map_cons, List.cons.injEq] at hfiles
            obtain ⟨rfl, hrest⟩ := hfiles
            rw [List.flatMap_cons, List.append_assoc]
            exact ⟨file.bytes, _, ⟨rfl, rfl⟩, files, rest, ih.mpr ⟨hrest, rfl⟩, rfl⟩

/-! ## Validity -/

/-- **A valid package**: grammatical, unique and strictly ascending paths, contents with their
declared hashes, and an entry that is a document. -/
structure Valid (sha256 : Bytes → Bytes32) (package : Package) : Prop where
  label : validateLabel package.label = .ok ()
  fileCount : 1 ≤ package.files.length ∧ package.files.length ≤ u16Max
  pinnedCount : package.pinned.length ≤ u16Max
  entry : ∃ file, package.files[package.entry]? = some file ∧ isEntryMime file.mime = true
  file : ∀ file ∈ package.files, validatePath file.path = .ok () ∧
    validateMime file.mime = .ok () ∧ sha256 file.bytes = file.sha256
  pin : ∀ pin ∈ package.pinned, validatePath pin.path = .ok () ∧ validateMime pin.mime = .ok ()
  distinct : (package.files.map FileEntry.path ++ package.pinned.map PinnedEntry.path).Nodup
  filesAscend : (package.files.map FileEntry.path).Pairwise (·.below · = true)
  pinnedAscend : (package.pinned.map PinnedEntry.path).Pairwise (·.below · = true)

theorem below_trans {a b c : Text} (hab : a.below b = true) (hbc : b.below c = true) :
    a.below c = true := by
  rw [Text.below, Ordering.isLT_iff_eq_lt] at hab hbc ⊢
  exact Std.TransCmp.lt_trans hab hbc

/-- Each pair in order is all of them in order. -/
theorem ascending_iff {paths : List Text} :
    ascending paths = true ↔ paths.Pairwise (·.below · = true) := by
  induction paths with
  | nil => exact ⟨fun _ => List.Pairwise.nil, fun _ => rfl⟩
  | cons first rest ih =>
      cases rest with
      | nil => exact ⟨fun _ => List.pairwise_singleton _ _, fun _ => rfl⟩
      | cons second rest =>
          rw [ascending, Bool.and_eq_true, ih, @List.pairwise_cons _ _ first]
          constructor
          · rintro ⟨hfirst, hrest⟩
            refine ⟨?_, hrest⟩
            intro other hother
            rcases List.mem_cons.mp hother with rfl | hother
            · exact hfirst
            · exact below_trans hfirst (List.rel_of_pairwise_cons hrest hother)
          · rintro ⟨hfirst, hrest⟩
            exact ⟨hfirst second List.mem_cons_self, hrest⟩

theorem not_contains_iff {paths : List Text} {path : Text} :
    (!paths.contains path) = true ↔ path ∉ paths := by
  simp

/-- The loop over the files. -/
theorem validateFiles_eq_ok {files : List FileEntry} {paths paths' : List Text} :
    validateFiles sha256 files paths = .ok paths' ↔
      (∀ file ∈ files, validatePath file.path = .ok () ∧ validateMime file.mime = .ok () ∧
        sha256 file.bytes = file.sha256) ∧
      ((files.map FileEntry.path).Nodup ∧ ∀ path ∈ files.map FileEntry.path, path ∉ paths) ∧
      paths' = (files.map FileEntry.path).reverse ++ paths := by
  induction files generalizing paths with
  | nil =>
      rw [validateFiles]
      constructor
      · intro h
        cases h
        simp
      · rintro ⟨_, _, rfl⟩
        rfl
  | cons file files ih =>
      simp only [validateFiles, Except.bind_eq_ok, ensureWeb_eq_ok, ih, beq_iff_eq,
        not_contains_iff, List.mem_cons, forall_eq_or_imp, List.map_cons, List.nodup_cons,
        List.reverse_cons, List.append_assoc, List.singleton_append, not_or, exists_const]
      constructor
      · rintro ⟨_, hpath, _, hmime, hhash, hfresh, hrest, ⟨hnodup, hapart⟩, rfl⟩
        exact ⟨⟨⟨hpath, hmime, hhash⟩, hrest⟩, ⟨⟨fun hmem => (hapart _ hmem).1 rfl, hnodup⟩,
          hfresh, fun path hmem => (hapart path hmem).2⟩, rfl⟩
      · rintro ⟨⟨⟨hpath, hmime, hhash⟩, hrest⟩, ⟨⟨hnew, hnodup⟩, hfresh, hapart⟩, rfl⟩
        refine ⟨(), hpath, (), hmime, hhash, hfresh, hrest, ⟨hnodup, ?_⟩, rfl⟩
        intro path hmem
        exact ⟨fun heq => hnew (heq ▸ hmem), hapart path hmem⟩

/-- The loop over the pinned objects. -/
theorem validatePins_eq_ok {pins : List PinnedEntry} {paths : List Text} {u : Unit} :
    validatePins pins paths = .ok u ↔
      (∀ pin ∈ pins, validatePath pin.path = .ok () ∧ validateMime pin.mime = .ok ()) ∧
      (pins.map PinnedEntry.path).Nodup ∧ ∀ path ∈ pins.map PinnedEntry.path, path ∉ paths := by
  induction pins generalizing paths with
  | nil => simp [validatePins]
  | cons pin pins ih =>
      simp only [validatePins, Except.bind_eq_ok, ensureWeb_eq_ok, ih, not_contains_iff,
        List.mem_cons, forall_eq_or_imp, List.map_cons, List.nodup_cons, not_or, exists_const]
      constructor
      · rintro ⟨_, hpath, _, hmime, hfresh, hrest, hnodup, hapart⟩
        exact ⟨⟨⟨hpath, hmime⟩, hrest⟩, ⟨fun hmem => (hapart _ hmem).1 rfl, hnodup⟩,
          hfresh, fun path hmem => (hapart path hmem).2⟩
      · rintro ⟨⟨⟨hpath, hmime⟩, hrest⟩, ⟨hnew, hnodup⟩, hfresh, hapart⟩
        refine ⟨(), hpath, (), hmime, hfresh, hrest, hnodup, ?_⟩
        intro path hmem
        exact ⟨fun heq => hnew (heq ▸ hmem), hapart path hmem⟩

/-- **What `validate` accepts.** -/
theorem validate_eq_ok {package : Package} {u : Unit} :
    validate sha256 package = .ok u ↔ Valid sha256 package := by
  rw [validate]
  constructor
  · intro h
    simp only [Except.bind_eq_ok, ensureWeb_eq_ok, Bool.and_eq_true, decide_eq_true_eq,
      Bool.not_eq_true', List.isEmpty_eq_false_iff, ← List.length_pos_iff] at h
    obtain ⟨_, hlabel, _, hfiles, _, hpinned, h⟩ := h
    split at h
    · cases h
    · next entry hentry =>
        simp only [Except.bind_eq_ok, ensureWeb_eq_ok, validateFiles_eq_ok, validatePins_eq_ok,
          ascending_iff] at h
        obtain ⟨_, hmime, paths, ⟨hfile, ⟨hnodup, _⟩, rfl⟩, _, ⟨hpin, hnodup', hapart⟩, _,
          hascend, hascend'⟩ := h
        refine ⟨hlabel, hfiles, hpinned, ⟨entry, hentry, hmime⟩, hfile, hpin, ?_, hascend,
          hascend'⟩
        rw [List.nodup_append]
        refine ⟨hnodup, hnodup', ?_⟩
        intro path hmem other hother heq
        apply hapart other hother
        rw [← heq, List.append_nil, List.mem_reverse]
        exact hmem
  · intro h
    obtain ⟨entry, hentry, hmime⟩ := h.entry
    obtain ⟨hnodup, hnodup', hapart⟩ := List.nodup_append.mp h.distinct
    simp only [Except.bind_eq_ok, ensureWeb_eq_ok, Bool.and_eq_true, decide_eq_true_eq,
      Bool.not_eq_true', List.isEmpty_eq_false_iff, ← List.length_pos_iff, hentry,
      validateFiles_eq_ok, validatePins_eq_ok, ascending_iff]
    refine ⟨(), h.label, (), h.fileCount, (), h.pinnedCount, (), hmime, _,
      ⟨h.file, ⟨hnodup, by simp⟩, rfl⟩, (), ⟨h.pin, hnodup', ?_⟩, (), h.filesAscend,
      h.pinnedAscend⟩
    intro path hmem hother
    rw [List.append_nil, List.mem_reverse] at hother
    exact hapart path hother path hmem rfl

/-! ## Encoding -/

/-- The bytes of a package. -/
def packageBytes (package : Package) : Bytes :=
  toLe 1 revision ++ ([0] ++ (toLe 2 package.files.length ++ (toLe 2 package.pinned.length ++
    (toLe 2 package.entry ++ (textBytes 1 package.label ++
      (package.files.flatMap (fun file => (directoryEntry file).bytes) ++
        (package.pinned.flatMap pinBytes ++ package.files.flatMap FileEntry.bytes)))))))

/-- The lengths of the files are written in eight bytes. -/
def Fits (package : Package) : Prop :=
  ∀ file ∈ package.files, file.bytes.length < 256 ^ 8

theorem validatePath_len {path : Text} (h : validatePath path = .ok ()) :
    path.len < 256 ^ 2 := by
  simp only [validatePath, Except.bind_eq_ok, ensureWeb_eq_ok, Bool.and_eq_true,
    decide_eq_true_eq] at h
  obtain ⟨_, ⟨_, hlength⟩, _⟩ := h
  exact Nat.lt_of_le_of_lt hlength (by decide)

theorem validateMime_len {mime : Text} (h : validateMime mime = .ok ()) :
    mime.len < 256 ^ 1 := by
  simp only [validateMime, Except.bind_eq_ok, ensureWeb_eq_ok, Bool.and_eq_true,
    decide_eq_true_eq] at h
  obtain ⟨_, ⟨_, hlength⟩, _⟩ := h
  exact Nat.lt_of_le_of_lt hlength (by decide)

theorem validateLabel_len {label : Text} (h : validateLabel label = .ok ()) :
    label.len < 256 ^ 1 := by
  simp only [validateLabel, Except.bind_eq_ok, ensureWeb_eq_ok, decide_eq_true_eq] at h
  obtain ⟨_, hlength, _⟩ := h
  exact Nat.lt_of_le_of_lt hlength (by decide)

/-- The counts and the entry of a valid package are written in two bytes each. -/
theorem Valid.counts {package : Package} (h : Valid sha256 package) :
    package.files.length < 256 ^ 2 ∧ package.pinned.length < 256 ^ 2 ∧
      package.entry < 256 ^ 2 := by
  obtain ⟨_, hentry, _⟩ := h.entry
  have hindex := (List.getElem?_eq_some_iff.mp hentry).1
  have hfiles := h.fileCount.2
  have hpinned := h.pinnedCount
  have hmax : u16Max < 256 ^ 2 := by decide
  omega

theorem Valid.directoryEntry_fits {package : Package} (h : Valid sha256 package)
    (hfits : Fits package) : ∀ file ∈ package.files, (directoryEntry file).Fits := by
  intro file hmem
  obtain ⟨hpath, hmime, _⟩ := h.file file hmem
  exact ⟨validatePath_len hpath, validateMime_len hmime, hfits file hmem⟩

theorem Valid.pin_fits {package : Package} (h : Valid sha256 package) :
    ∀ pin ∈ package.pinned, pin.path.len < 256 ^ 2 ∧ pin.mime.len < 256 ^ 1 := by
  intro pin hmem
  obtain ⟨hpath, hmime⟩ := h.pin pin hmem
  exact ⟨validatePath_len hpath, validateMime_len hmime⟩

theorem encodeText_eq_ok {width : ℕ} {text : Text} {bytes : Bytes} :
    encodeText width text = .ok bytes ↔
      text.len < 256 ^ width ∧ bytes = textBytes width text := by
  simp only [encodeText, Except.bind_eq_ok, tryWidth_eq_ok]
  constructor
  · rintro ⟨_, ⟨hlength, rfl⟩, h⟩
    cases h
    exact ⟨hlength, rfl⟩
  · rintro ⟨hlength, rfl⟩
    exact ⟨_, ⟨hlength, rfl⟩, rfl⟩

theorem encodeFile_eq_ok (file : FileEntry) (bytes : Bytes) :
    encodeFile file = .ok bytes ↔
      (directoryEntry file).Fits ∧ bytes = (directoryEntry file).bytes := by
  simp only [encodeFile, Except.bind_eq_ok, encodeText_eq_ok, tryWidth_eq_ok]
  constructor
  · rintro ⟨_, ⟨hpath, rfl⟩, _, ⟨hmime, rfl⟩, _, ⟨hlength, rfl⟩, h⟩
    cases h
    exact ⟨⟨hpath, hmime, hlength⟩, rfl⟩
  · rintro ⟨hfits, rfl⟩
    exact ⟨_, ⟨hfits.path, rfl⟩, _, ⟨hfits.mime, rfl⟩, _, ⟨hfits.length, rfl⟩, rfl⟩

theorem encodePin_eq_ok (pin : PinnedEntry) (bytes : Bytes) :
    encodePin pin = .ok bytes ↔
      (pin.path.len < 256 ^ 2 ∧ pin.mime.len < 256 ^ 1) ∧ bytes = pinBytes pin := by
  simp only [encodePin, Except.bind_eq_ok, encodeText_eq_ok]
  constructor
  · rintro ⟨_, ⟨hpath, rfl⟩, _, ⟨hmime, rfl⟩, h⟩
    cases h
    exact ⟨⟨hpath, hmime⟩, rfl⟩
  · rintro ⟨⟨hpath, hmime⟩, rfl⟩
    exact ⟨_, ⟨hpath, rfl⟩, _, ⟨hmime, rfl⟩, rfl⟩

/-- **What a package is written as.** -/
theorem encode_eq_ok {package : Package} {bytes : Bytes} :
    encode sha256 package = .ok bytes ↔
      Valid sha256 package ∧ Fits package ∧ bytes = packageBytes package := by
  simp only [encode, Except.bind_eq_ok, validate_eq_ok, tryWidth_eq_ok, encodeText_eq_ok,
    Except.mapM_eq_ok_map encodeFile_eq_ok, Except.mapM_eq_ok_map encodePin_eq_ok]
  constructor
  · rintro ⟨_, hvalid, _, ⟨_, rfl⟩, _, ⟨_, rfl⟩, _, ⟨_, rfl⟩, _, ⟨hfiles, rfl⟩, _, ⟨_, rfl⟩, h⟩
    cases h
    refine ⟨hvalid, fun file hmem => (hfiles file hmem).length, ?_⟩
    rw [packageBytes, List.flatMap_def, List.flatMap_def]
    rfl
  · rintro ⟨hvalid, hfits, rfl⟩
    obtain ⟨hfiles, hpinned, _⟩ := hvalid.counts
    refine ⟨(), hvalid, _, ⟨hfiles, rfl⟩, _, ⟨hpinned, rfl⟩, _,
      ⟨validateLabel_len hvalid.label, rfl⟩, _, ⟨hvalid.directoryEntry_fits hfits, rfl⟩, _,
      ⟨hvalid.pin_fits, rfl⟩, ?_⟩
    rw [packageBytes, List.flatMap_def, List.flatMap_def]
    rfl

/-! ## Decoding -/

/-- **What decodes, and as what.** -/
theorem decode_eq_ok {package : Package} {bytes : Bytes} :
    decode sha256 bytes = .ok package ↔
      Valid sha256 package ∧ Fits package ∧ bytes = packageBytes package := by
  simp only [decode, Except.bind_eq_ok, Prod.exists, ensureWeb_eq_ok, beq_iff_eq,
    validate_eq_ok, List.isEmpty_iff]
  constructor
  · rintro ⟨_, _, hrevision, _, rfl, _, _, hflags, _, rfl, files, _, hfiles, pinned, _, hpinned,
      entry, _, hentry, label, _, hlabel, directory, _, hdirectory, pins, _, hpins, contents, _,
      hcontents, _, rfl, _, hvalid, h⟩
    cases h
    obtain ⟨_, hbytes⟩ := (number_exact _ _ _).mp hrevision
    obtain ⟨_, rfl⟩ := (number_exact _ _ _).mp hflags
    obtain ⟨_, rfl⟩ := (number_exact _ _ _).mp hfiles
    obtain ⟨_, rfl⟩ := (number_exact _ _ _).mp hpinned
    obtain ⟨_, rfl⟩ := (number_exact _ _ _).mp hentry
    obtain ⟨_, rfl⟩ := (readText_exact _ _ _).mp hlabel
    obtain ⟨⟨rfl, hlines⟩, rfl⟩ := (readFile_exact.readMany _ _ _ _).mp hdirectory
    obtain ⟨⟨rfl, _⟩, rfl⟩ := (readPin_exact.readMany _ _ _ _).mp hpins
    obtain ⟨rfl, rfl⟩ := readContents_eq_ok.mp hcontents
    refine ⟨hvalid, ?_, ?_⟩
    · intro file hmem
      exact (hlines _ (List.mem_map_of_mem hmem)).length
    · rw [hbytes, packageBytes, List.length_map]
      simp only [List.flatMap_map, List.append_nil]
      rfl
  · rintro ⟨hvalid, hfits, rfl⟩
    obtain ⟨hfiles, hpinned, hentry⟩ := hvalid.counts
    have hlines : ∀ line ∈ package.files.map directoryEntry, line.Fits := by
      intro line hmem
      obtain ⟨file, hfile, rfl⟩ := List.mem_map.mp hmem
      exact hvalid.directoryEntry_fits hfits file hfile
    have hdirectory : ∀ total rest, readMany (readFile total) package.files.length
        (package.files.flatMap (fun file => (directoryEntry file).bytes) ++ rest) =
          .ok (package.files.map directoryEntry, rest) := by
      intro total rest
      apply (readFile_exact.readMany _ _ _ _).mpr
      refine ⟨⟨List.length_map _, hlines⟩, ?_⟩
      simp only [List.flatMap_map]
    have hpins : ∀ total rest, readMany (readPin total) package.pinned.length
        (package.pinned.flatMap pinBytes ++ rest) = .ok (package.pinned, rest) :=
      fun total rest => (readPin_exact.readMany _ _ _ _).mpr ⟨⟨rfl, hvalid.pin_fits⟩, rfl⟩
    have hcontents : ∀ total, readContents total (package.files.map directoryEntry)
        (package.files.flatMap FileEntry.bytes) = .ok (package.files, []) :=
      fun total => readContents_eq_ok.mpr ⟨rfl, (List.append_nil _).symm⟩
    exact ⟨_, _, (number_exact _ _ _).mpr ⟨by decide, rfl⟩, (), rfl,
      _, _, (number_exact _ _ _).mpr ⟨by decide, rfl⟩, (), rfl,
      _, _, (number_exact _ _ _).mpr ⟨hfiles, rfl⟩,
      _, _, (number_exact _ _ _).mpr ⟨hpinned, rfl⟩,
      _, _, (number_exact _ _ _).mpr ⟨hentry, rfl⟩,
      _, _, (readText_exact _ _ _).mpr ⟨validateLabel_len hvalid.label, rfl⟩,
      _, _, hdirectory _ _, _, _, hpins _ _, _, _, hcontents _, (), rfl, (), hvalid, rfl⟩

/-! ## The bijection -/

/-- What is built is valid. -/
theorem build_valid {label entry : Text} {files : List FileEntry} {pinned : List PinnedEntry}
    {package : Package} (h : build sha256 label entry files pinned = .ok package) :
    Valid sha256 package := by
  rw [build] at h
  simp only at h
  split at h
  · cases h
  · simp only [Except.bind_eq_ok, validate_eq_ok] at h
    obtain ⟨_, _, _, hvalid, hpackage⟩ := h
    cases hpackage
    exact hvalid

/-- **The codec is a bijection.** A package that is built, and whose files have lengths of eight
bytes, is encoded and decodes to itself; what decodes is valid, and its encoding is the one it was
decoded from, so a package has one accepted encoding. -/
theorem package_bijection (sha256 : Bytes → Bytes32) :
    (∀ label entry files pinned package, build sha256 label entry files pinned = .ok package →
      (∀ bytes, encode sha256 package = .ok bytes → decode sha256 bytes = .ok package) ∧
      (Fits package → ∃ bytes, encode sha256 package = .ok bytes ∧
        decode sha256 bytes = .ok package)) ∧
    (∀ package, Valid sha256 package ∧ Fits package ↔
      ∃ bytes, encode sha256 package = .ok bytes ∧ decode sha256 bytes = .ok package) ∧
    (∀ bytes package, decode sha256 bytes = .ok package →
      Valid sha256 package ∧ encode sha256 package = .ok bytes) ∧
    ∀ bytes bytes' package, decode sha256 bytes = .ok package →
      decode sha256 bytes' = .ok package → bytes = bytes' := by
  have hround : ∀ package bytes, encode sha256 package = .ok bytes →
      decode sha256 bytes = .ok package :=
    fun package bytes h => decode_eq_ok.mpr (encode_eq_ok.mp h)
  refine ⟨?_, ?_, ?_, ?_⟩
  · intro label entry files pinned package hbuild
    refine ⟨hround package, ?_⟩
    intro hfits
    have hencode := encode_eq_ok.mpr ⟨build_valid hbuild, hfits, rfl⟩
    exact ⟨_, hencode, hround _ _ hencode⟩
  · intro package
    constructor
    · rintro ⟨hvalid, hfits⟩
      have hencode := encode_eq_ok.mpr ⟨hvalid, hfits, rfl⟩
      exact ⟨_, hencode, hround _ _ hencode⟩
    · rintro ⟨bytes, hencode, _⟩
      obtain ⟨hvalid, hfits, _⟩ := encode_eq_ok.mp hencode
      exact ⟨hvalid, hfits⟩
  · intro bytes package h
    have hdecode := decode_eq_ok.mp h
    exact ⟨hdecode.1, encode_eq_ok.mpr hdecode⟩
  · intro bytes bytes' package h h'
    rw [(decode_eq_ok.mp h).2.2, (decode_eq_ok.mp h').2.2]

end Package

/-! ## A site of one page -/

namespace Sample

def indexPath : Text := ⟨ascii "index.html", by decide +kernel⟩

def htmlMime : Text := ⟨ascii "text/html", by decide +kernel⟩

def label : Text := ⟨ascii "Demo", by decide +kernel⟩

def page : FileEntry :=
  ⟨indexPath, htmlMime, Lib.Sha256.hash (ascii "<p>demo</p>"), ascii "<p>demo</p>"⟩

def site : Package := ⟨label, 0, [page], []⟩

theorem build_site :
    Package.build Lib.Sha256.hash label indexPath [page] [] = .ok site := by
  have hbuilt : (Package.build Lib.Sha256.hash label indexPath [page] []).toOption = some site := by
    decide +kernel
  cases hbuild : Package.build Lib.Sha256.hash label indexPath [page] [] with
  | error error =>
      rw [hbuild] at hbuilt
      cases hbuilt
  | ok package =>
      rw [hbuild] at hbuilt
      cases hbuilt
      rfl

end Sample

theorem Package.package_bijection_site :
    ∃ bytes, encode Lib.Sha256.hash Sample.site = .ok bytes ∧
      decode Lib.Sha256.hash bytes = .ok Sample.site := by
  refine ((package_bijection Lib.Sha256.hash).1 _ _ _ _ _ Sample.build_site).2 ?_
  intro file hmem
  rw [List.mem_singleton.mp hmem]
  decide

end Urma.Web
