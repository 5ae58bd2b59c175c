import Mathlib.Data.List.Nodup
import Mathlib.Data.List.Range
import Urma.Identity.Vault

/-!
# What a keyring is encoded to

Every keyring that edits reach has its slots in order and its names valid and distinct, with an
active slot among them. Such a keyring is decoded from what it is encoded to, and what is decoded is
encoded to the same bytes.
-/

namespace Urma.Identity

open Lib Lib.Layout

section

/-! ## The invariant -/

variable {crates : KeyCrates} {phrase : IdentityPhrase} {keyring keyring' : Keyring}

/-- The entries of a keyring: the slots count up, names are valid and distinct. -/
structure Keyring.Listed (keyring : Keyring) : Prop where
  slots : keyring.entries.map (fun entry => entry.slot.index) =
    List.range keyring.entries.length
  names : ∀ entry ∈ keyring.entries, validateName entry.name = .ok ()
  nodup : (keyring.entries.map NamedIdentity.name).Nodup

variable (crates phrase keyring) in
/-- A keyring of a phrase, with an active slot. -/
structure Keyring.Valid : Prop extends keyring.Listed where
  owner : keyring.phrase = phrase
  root : fromPhrase crates phrase = .ok keyring.root
  active : keyring.active.index < keyring.entries.length

/-- There are no more entries than slots. -/
theorem Keyring.Listed.length_le (h : keyring.Listed) : keyring.entries.length ≤ slotCapacity := by
  by_contra hmore
  have hmem : slotCapacity ∈ keyring.entries.map fun entry => entry.slot.index := by
    rw [h.slots, List.mem_range]
    exact Nat.lt_of_not_le hmore
  obtain ⟨entry, _, heq⟩ := List.mem_map.mp hmem
  exact Nat.lt_irrefl _ (heq ▸ entry.slot.lt)

/-- A valid name takes between 1 and 64 bytes. -/
theorem validateName_len {name : Text} (h : validateName name = .ok ()) :
    1 ≤ name.len ∧ name.len ≤ 64 := by
  rw [validateName] at h
  split at h
  · cases h
  · next hvalid =>
    simp only [Bool.or_eq_true, not_or, decide_eq_true_eq, List.isEmpty_iff] at hvalid
    exact ⟨List.length_pos_iff.mpr hvalid.1.1.1, Nat.le_of_not_lt hvalid.1.1.2⟩

/-- **A push** puts a new name in the next slot. -/
theorem Keyring.push_eq_ok {name : Text} :
    keyring.push name = .ok keyring' ↔ validateName name = .ok () ∧
      name ∉ keyring.entries.map NamedIdentity.name ∧
      ∃ h : keyring.entries.length < slotCapacity, keyring' =
        { keyring with entries := keyring.entries ++ [⟨⟨keyring.entries.length, h⟩, name⟩] } := by
  have hslot : keyring.nextSlot = if h : keyring.entries.length < slotCapacity then
      .ok ⟨keyring.entries.length, h⟩ else keyring.nextSlot := by
    split
    · next hlt =>
      rw [nextSlot, tryU16, if_pos (Nat.le_trans (Nat.le_of_lt hlt) (by decide)), Except.ok_bind,
        IdentitySlot.new, dif_pos hlt]
    · rfl
  have hmem : keyring.entries.any (fun entry => entry.name = name) = true ↔
      name ∈ keyring.entries.map NamedIdentity.name := by
    simp only [List.any_eq_true, decide_eq_true_eq, List.mem_map]
  rw [push]
  constructor
  · intro h
    obtain ⟨_, hvalid, h⟩ := Except.bind_eq_ok.mp h
    split at h
    · cases h
    · next hnot =>
      obtain ⟨slot, hnext, hok⟩ := Except.bind_eq_ok.mp h
      refine ⟨hvalid, fun hin => hnot (hmem.mpr hin), ?_⟩
      by_cases hlt : keyring.entries.length < slotCapacity
      · rw [hslot, dif_pos hlt] at hnext
        cases hnext
        cases hok
        exact ⟨hlt, rfl⟩
      · obtain ⟨length, hlength, hnew⟩ := Except.bind_eq_ok.mp hnext
        rw [tryU16] at hlength
        split at hlength
        · cases hlength
          rw [IdentitySlot.new, dif_neg hlt] at hnew
          cases hnew
        · cases hlength
  · rintro ⟨hvalid, hnot, hlt, rfl⟩
    rw [hvalid, Except.ok_bind, if_neg fun hany => hnot (hmem.mp hany), hslot, dif_pos hlt]
    rfl

theorem Keyring.Listed.push {name : Text} (h : keyring.Listed)
    (hpush : keyring.push name = .ok keyring') : keyring'.Listed := by
  obtain ⟨hvalid, hnew, hlt, rfl⟩ := push_eq_ok.mp hpush
  exact
    { slots := by
        rw [List.map_append, h.slots, List.length_append]
        exact List.range_succ.symm
      names := by
        intro entry hmem
        rcases List.mem_append.mp hmem with hmem | hmem
        · exact h.names entry hmem
        · rw [List.mem_singleton.mp hmem]
          exact hvalid
      nodup := by
        rw [List.map_append, List.nodup_append]
        refine ⟨h.nodup, List.pairwise_singleton _ _, ?_⟩
        intro old hold added hadded heq
        rw [List.mem_singleton.mp hadded] at heq
        subst heq
        exact hnew hold }

/-- Where the entry is that is renamed. -/
theorem renameFirst_eq_some {slot : IdentitySlot} {name : Text} {entries renamed : List NamedIdentity}
    (h : Keyring.renameFirst slot name entries = some renamed) :
    ∃ before entry after, entries = before ++ entry :: after ∧ entry.slot = slot ∧
      renamed = before ++ { entry with name } :: after := by
  induction entries generalizing renamed with
  | nil => cases h
  | cons entry entries ih =>
      rw [Keyring.renameFirst] at h
      split at h
      · next hslot =>
        cases h
        exact ⟨[], entry, entries, rfl, hslot, rfl⟩
      · obtain ⟨rest, hrest, rfl⟩ := Option.map_eq_some_iff.mp h
        obtain ⟨before, found, after, rfl, hslot, rfl⟩ := ih hrest
        exact ⟨entry :: before, found, after, rfl, hslot, rfl⟩

theorem Keyring.Listed.rename {slot : IdentitySlot} {name : Text} (h : keyring.Listed)
    (hrename : keyring.rename slot name = .ok keyring') :
    keyring'.Listed ∧ ∃ entries, keyring' = { keyring with entries } ∧
      entries.length = keyring.entries.length := by
  rw [Keyring.rename] at hrename
  obtain ⟨_, hvalid, hrename⟩ := Except.bind_eq_ok.mp hrename
  split at hrename
  · cases hrename
  · next hnone =>
    split at hrename
    · cases hrename
    · next entries hfirst =>
      cases hrename
      obtain ⟨before, entry, after, hsplit, hslot, rfl⟩ := renameFirst_eq_some hfirst
      have hslots := h.slots
      have hnodup := h.nodup
      -- no other slot is the renamed one, so that no other name is the new one
      have hothers : ∀ other ∈ before ++ after, other.name ≠ name := by
        intro other hmem heq
        apply hnone
        rw [List.any_eq_true]
        have hin : other ∈ keyring.entries := by
          rw [hsplit, List.mem_append, List.mem_cons]
          exact (List.mem_append.mp hmem).imp_right .inr
        refine ⟨other, hin, decide_eq_true ⟨?_, heq⟩⟩
        intro hsame
        have hdistinct : (keyring.entries.map fun entry => entry.slot.index).Nodup := by
          rw [hslots]
          exact List.nodup_range
        rw [hsplit, List.map_append, List.map_cons, List.nodup_middle, List.nodup_cons,
          ← List.map_append] at hdistinct
        exact hdistinct.1 (List.mem_map.mpr ⟨other, hmem, by rw [hsame, hslot]⟩)
      refine ⟨?_, _, rfl, by rw [hsplit, List.length_append, List.length_append]; rfl⟩
      exact
        { slots := by
            rw [hsplit] at hslots
            simpa using hslots
          names := by
            intro other hmem
            rw [List.mem_append, List.mem_cons] at hmem
            rcases hmem with hmem | rfl | hmem
            · exact h.names other (by rw [hsplit]; exact List.mem_append_left _ hmem)
            · exact hvalid
            · exact h.names other (by
                rw [hsplit]
                exact List.mem_append_right _ (List.mem_cons_of_mem _ hmem))
          nodup := by
            rw [hsplit, List.map_append, List.map_cons, List.nodup_middle, List.nodup_cons,
              ← List.map_append] at hnodup
            show ((before ++ { entry with name } :: after).map NamedIdentity.name).Nodup
            rw [List.map_append, List.map_cons, List.nodup_middle, List.nodup_cons,
              ← List.map_append]
            refine ⟨?_, hnodup.2⟩
            intro hmem
            obtain ⟨other, hother, heq⟩ := List.mem_map.mp hmem
            exact hothers other hother heq }

/-! ## Reachable keyrings -/

theorem Keyring.listed_empty (h : Keyring.empty crates phrase = .ok keyring) :
    keyring.Listed ∧ keyring.entries = [] ∧ keyring.phrase = phrase ∧
      fromPhrase crates phrase = .ok keyring.root ∧ keyring.active.index = 0 := by
  simp only [Keyring.empty, Except.bind_eq_ok] at h
  obtain ⟨root, hroot, active, hactive, hok⟩ := h
  cases hok
  rw [IdentitySlot.new, dif_pos (by decide)] at hactive
  cases hactive
  exact ⟨⟨rfl, fun _ hmem => (List.not_mem_nil hmem).elim, List.nodup_nil⟩, rfl, rfl, hroot, rfl⟩

theorem Keyring.recoverFrom_listed {indices : List ℕ} (h : keyring.Listed)
    (hrecover : keyring.recoverFrom indices = .ok keyring') :
    keyring'.Listed ∧ ∃ entries, keyring' = { keyring with entries } ∧
      entries.length = keyring.entries.length + indices.length := by
  induction indices generalizing keyring with
  | nil =>
      cases hrecover
      exact ⟨h, _, rfl, rfl⟩
  | cons index indices ih =>
      rw [Keyring.recoverFrom] at hrecover
      obtain ⟨pushed, hpush, hrest⟩ := Except.bind_eq_ok.mp hrecover
      obtain ⟨hlisted, entries, rfl, hlength⟩ := ih (h.push hpush) hrest
      obtain ⟨_, _, _, rfl⟩ := push_eq_ok.mp hpush
      refine ⟨hlisted, entries, rfl, ?_⟩
      rw [hlength, List.length_append, List.length_cons, List.length_cons, List.length_nil]
      omega

/-- **An edit** keeps a keyring valid. -/
theorem Keyring.Valid.edit (h : keyring.Valid crates phrase) (edit : Edit) :
    (keyring.edit crates edit).Valid crates phrase := by
  rw [Keyring.edit]
  cases hedit : keyring.tryEdit crates edit with
  | error cause => exact h
  | ok edited =>
      cases edit with
      | add name =>
          simp only [tryEdit, add, Except.bind_eq_ok] at hedit
          obtain ⟨_, _, slot, _, key, _, hpush⟩ := hedit
          have hlisted := h.toListed.push hpush
          obtain ⟨_, _, _, rfl⟩ := push_eq_ok.mp hpush
          refine ⟨hlisted, h.owner, h.root, ?_⟩
          rw [List.length_append]
          exact Nat.lt_add_right _ h.active
      | rename slot name =>
          obtain ⟨hlisted, entries, rfl, hlength⟩ := h.toListed.rename hedit
          exact ⟨hlisted, h.owner, h.root, hlength ▸ h.active⟩
      | select slot =>
          simp only [tryEdit, select, Except.bind_eq_ok] at hedit
          obtain ⟨key, hkey, hok⟩ := hedit
          cases hok
          rw [identity] at hkey
          split at hkey
          · next hany =>
            obtain ⟨entry, hmem, hslot⟩ := List.any_eq_true.mp hany
            refine ⟨⟨h.slots, h.names, h.nodup⟩, h.owner, h.root, ?_⟩
            have hindex : entry.slot.index ∈ keyring.entries.map fun entry => entry.slot.index :=
              List.mem_map.mpr ⟨entry, hmem, rfl⟩
            rw [h.slots, List.mem_range, of_decide_eq_true hslot] at hindex
            exact hindex
          · cases hkey

/-- **Every keyring that edits reach** is valid. -/
theorem Keyring.Reachable.valid (h : Keyring.Reachable crates phrase keyring) :
    keyring.Valid crates phrase := by
  induction h with
  | @create keyring name h =>
      simp only [Keyring.create, add, Except.bind_eq_ok] at h
      obtain ⟨fresh, hempty, _, _, slot, _, key, _, hpush⟩ := h
      obtain ⟨hlisted, hnone, hphrase, hroot, hactive⟩ := listed_empty hempty
      have hpushed := hlisted.push hpush
      obtain ⟨_, _, _, rfl⟩ := push_eq_ok.mp hpush
      refine ⟨hpushed, hphrase, hroot, ?_⟩
      rw [hactive, List.length_append]
      exact Nat.lt_add_left _ Nat.one_pos
  | @recover keyring h =>
      simp only [Keyring.recover, Except.bind_eq_ok] at h
      obtain ⟨fresh, hempty, hrest⟩ := h
      obtain ⟨hlisted, hnone, hphrase, hroot, hactive⟩ := listed_empty hempty
      obtain ⟨hall, entries, rfl, hlength⟩ := recoverFrom_listed hlisted hrest
      refine ⟨hall, hphrase, hroot, ?_⟩
      show fresh.active.index < entries.length
      rw [hactive, hlength, List.length_range]
      exact Nat.lt_add_left _ (by decide)
  | edit edit _ ih => exact ih.edit edit

/-! ## The codec -/

theorem tryU8_eq_ok {value : ℕ} {byte : UInt8} :
    tryU8 value = .ok byte ↔ byte.toNat = value := by
  rw [tryU8]
  constructor
  · intro h
    split at h
    · next hle =>
      cases h
      exact UInt8.toNat_ofNat_of_lt' (Nat.lt_succ_of_le hle)
    · cases h
  · rintro rfl
    have hle : byte.toNat ≤ u8Max := Nat.le_of_lt_succ byte.toNat_lt
    rw [if_pos hle, UInt8.ofNat_toNat]

theorem tryU16_eq_ok {value value' : ℕ} :
    tryU16 value = .ok value' ↔ value ≤ u16Max ∧ value' = value := by
  rw [tryU16]
  constructor
  · intro h
    split at h
    · next hle =>
      cases h
      exact ⟨hle, rfl⟩
    · cases h
  · rintro ⟨hle, rfl⟩
    exact if_pos hle

theorem fromUtf8_eq_ok {bytes : Bytes} {text : Text} :
    fromUtf8 bytes = .ok text ↔ bytes = text.bytes := by
  rw [← Text.fromUtf8_eq_ok, fromUtf8]
  cases Text.fromUtf8 bytes with
  | error cause => exact ⟨nofun, nofun⟩
  | ok other => simp

theorem get_eq_ok {bytes part : Bytes} {start stop : ℕ} :
    get bytes start stop = .ok part ↔ stop ≤ bytes.length ∧ slice bytes start stop = part := by
  rw [get]
  split
  · next hle => simp [hle]
  · next hnot => simp [hnot]

theorem tryInto_eq_ok {n : ℕ} {bytes : Bytes} {array : Vector UInt8 n} :
    tryInto n bytes = .ok array ↔ bytes = array.toList := by
  rw [tryInto]
  constructor
  · intro h
    split at h
    · cases h
      rfl
    · cases h
  · rintro rfl
    rw [dif_pos Vector.length_toList]
    rfl

/-- The bytes of an entry. -/
def entryBytes (entry : NamedIdentity) : Bytes :=
  toLe 2 entry.slot.index ++ UInt8.ofNat entry.name.len :: entry.name.bytes

theorem entryBytes_length (entry : NamedIdentity) :
    (entryBytes entry).length = 3 + entry.name.len := by
  rw [entryBytes, List.length_append, toLe_length, List.length_cons, Text.len]
  omega

/-- The entries are encoded one after another. -/
theorem encodeEntries_eq {entries : List NamedIdentity}
    (h : ∀ entry ∈ entries, entry.name.len ≤ u8Max) :
    encodeEntries entries = .ok (entries.flatMap entryBytes) := by
  induction entries with
  | nil => rfl
  | cons entry entries ih =>
      have hrest := ih fun other hmem => h other (List.mem_cons_of_mem entry hmem)
      have hlength : tryU8 entry.name.len = .ok (UInt8.ofNat entry.name.len) :=
        if_pos (h entry List.mem_cons_self)
      rw [encodeEntries, hlength, Except.ok_bind, hrest, Except.ok_bind, List.flatMap_cons,
        entryBytes]

theorem Keyring.Listed.name_le (h : keyring.Listed) {entry : NamedIdentity}
    (hmem : entry ∈ keyring.entries) : entry.name.len ≤ u8Max :=
  Nat.le_trans (validateName_len (h.names entry hmem)).2 (by decide)

/-- **What a listed keyring is encoded to.** -/
theorem Keyring.Listed.encode_eq (h : keyring.Listed) :
    encode keyring = .ok (toLe 2 keyring.entries.length ++ toLe 2 keyring.active.index ++
      keyring.phrase.toList ++ keyring.entries.flatMap entryBytes) := by
  have hcount : tryU16 keyring.entries.length = .ok keyring.entries.length :=
    tryU16_eq_ok.mpr ⟨Nat.le_trans h.length_le (by decide), rfl⟩
  rw [encode, hcount, Except.ok_bind, encodeEntries_eq fun _ hmem => h.name_le hmem]
  rfl

/-- **One round of the loop** reads an entry. -/
theorem decodeEntries_cons {bytes front rest : Bytes} {remaining index : ℕ} {entry : NamedIdentity}
    (hbytes : bytes = front ++ (entryBytes entry ++ rest)) (hindex : entry.slot.index = index)
    (hname : entry.name.len ≤ u8Max) :
    decodeEntries bytes (remaining + 1) index front.length keyring =
      (keyring.push entry.name >>=
        decodeEntries bytes remaining (index + 1) (front.length + (entryBytes entry).length)) := by
  have hslot : entry.slot.index < 256 ^ 2 := Nat.lt_trans entry.slot.lt (by decide)
  have hbyte : (UInt8.ofNat entry.name.len).toNat = entry.name.len :=
    UInt8.toNat_ofNat_of_lt' (Nat.lt_succ_of_le hname)
  have hhead : get bytes front.length (front.length + 3) =
      .ok (toLe 2 entry.slot.index ++ [UInt8.ofNat entry.name.len]) := by
    rw [get_eq_ok]
    constructor
    · rw [hbytes, List.length_append, List.length_append, entryBytes_length]
      omega
    · refine slice_eq front _ (entry.name.bytes ++ rest) ?_ rfl ?_
      · rw [hbytes, entryBytes]
        simp only [List.append_assoc, List.cons_append, List.nil_append]
      · rw [List.length_append, toLe_length, List.length_singleton]
  have hraw : get bytes (front.length + 3) (front.length + 3 + entry.name.len) =
      .ok entry.name.bytes := by
    rw [get_eq_ok]
    constructor
    · rw [hbytes, List.length_append, List.length_append, entryBytes_length]
      omega
    · refine slice_eq (front ++ (toLe 2 entry.slot.index ++ [UInt8.ofNat entry.name.len])) _ rest
        ?_ ?_ ?_
      · rw [hbytes, entryBytes]
        simp only [List.append_assoc, List.cons_append, List.nil_append]
      · rw [List.length_append, List.length_append, toLe_length, List.length_singleton]
      · rfl
  have htake : (toLe 2 entry.slot.index ++ [UInt8.ofNat entry.name.len]).take 2 =
      toLe 2 entry.slot.index := List.take_left' (toLe_length _ _)
  have hlast : (toLe 2 entry.slot.index ++ [UInt8.ofNat entry.name.len]).getD 2 0 =
      UInt8.ofNat entry.name.len := rfl
  rw [decodeEntries, hhead, Except.ok_bind, htake, fromLe_toLe hslot,
    if_neg (not_not.mpr hindex)]
  simp only [hlast, hbyte]
  rw [hraw, Except.ok_bind, fromUtf8_eq_ok.mpr rfl, Except.ok_bind, entryBytes_length,
    ← Nat.add_assoc]

/-- **The loop** reads the entries that follow, when they can be pushed. -/
theorem decodeEntries_eq {bytes front : Bytes} {done todo : List NamedIdentity}
    (hlisted : { keyring with entries := done ++ todo }.Listed)
    (hbytes : bytes = front ++ todo.flatMap entryBytes) :
    decodeEntries bytes todo.length done.length front.length { keyring with entries := done } =
      .ok ({ keyring with entries := done ++ todo }, bytes.length) := by
  induction todo generalizing done front with
  | nil =>
      rw [hbytes, List.append_nil]
      show Except.ok _ = _
      rw [List.flatMap_nil, List.append_nil]
  | cons entry todo ih =>
      have hmem : entry ∈ done ++ entry :: todo := List.mem_append_right _ List.mem_cons_self
      have hslots := hlisted.slots
      have hindex : entry.slot.index = done.length := by
        have hat := congrArg (fun list => list[done.length]?) hslots
        simpa using hat
      have hlt : done.length < slotCapacity := hindex ▸ entry.slot.lt
      have hpush : Keyring.push { keyring with entries := done } entry.name =
          .ok { keyring with entries := done ++ [entry] } := by
        rw [Keyring.push_eq_ok]
        refine ⟨hlisted.names entry hmem, ?_, hlt, ?_⟩
        · have hnodup := hlisted.nodup
          rw [List.map_append, List.map_cons, List.nodup_middle, List.nodup_cons,
            List.mem_append, not_or] at hnodup
          exact hnodup.1.1
        · have hsame : entry = ⟨⟨done.length, hlt⟩, entry.name⟩ := by
            cases entry with
            | mk slot name =>
                cases slot
                simp only at hindex
                simp only [hindex]
          rw [← hsame]
      rw [List.flatMap_cons] at hbytes
      rw [List.length_cons, decodeEntries_cons hbytes hindex (hlisted.name_le hmem), hpush,
        Except.ok_bind]
      have hnext := @ih (front ++ entryBytes entry) (done ++ [entry])
        (by rw [List.append_assoc]; exact hlisted) (by rw [List.append_assoc, hbytes])
      rw [List.length_append, List.length_append, List.length_singleton, List.append_assoc] at hnext
      exact hnext

/-- The parts of an entry that were read are its bytes. -/
theorem entryBytes_of_read {bytes head raw : Bytes} {offset : ℕ} {entry : NamedIdentity}
    (hhead : get bytes offset (offset + 3) = .ok head)
    (hslot : fromLe (head.take 2) = entry.slot.index)
    (hraw : get bytes (offset + 3) (offset + 3 + (head.getD 2 0).toNat) = .ok raw)
    (hname : raw = entry.name.bytes) :
    bytes.drop offset = entryBytes entry ++
      bytes.drop (offset + 3 + (head.getD 2 0).toNat) := by
  obtain ⟨hlong, hhead⟩ := get_eq_ok.mp hhead
  obtain ⟨hlonger, hraw⟩ := get_eq_ok.mp hraw
  have hthree : head.length = 3 := by
    rw [← hhead, slice_length_of_le hlong]
    omega
  have hlength : raw.length = (head.getD 2 0).toNat := by
    rw [← hraw, slice_length_of_le hlonger]
    omega
  obtain ⟨a, b, c, rfl⟩ := List.length_eq_three.mp hthree
  have hle : toLe 2 entry.slot.index = [a, b] := by
    rw [← hslot]
    exact toLe_fromLe [a, b]
  have hbyte : UInt8.ofNat entry.name.len = c := by
    rw [Text.len, ← hname, hlength]
    exact UInt8.ofNat_toNat
  rw [entryBytes, hle, hbyte, ← hname, drop_eq_slice_append (Nat.le_add_right offset 3), hhead,
    drop_eq_slice_append (Nat.le_add_right (offset + 3) ([a, b, c].getD 2 0).toNat), hraw,
    ← List.append_assoc]
  rfl

/-- **The loop** reads what the entries that it adds are encoded to. -/
theorem decodeEntries_eq_ok {bytes : Bytes} {remaining offset stop : ℕ} (hlisted : keyring.Listed)
    (h : decodeEntries bytes remaining keyring.entries.length offset keyring =
      .ok (keyring', stop)) :
    ∃ added, keyring' = { keyring with entries := keyring.entries ++ added } ∧
      added.length = remaining ∧ keyring'.Listed ∧
      bytes.drop offset = added.flatMap entryBytes ++ bytes.drop stop := by
  induction remaining generalizing keyring offset with
  | zero =>
      cases h
      exact ⟨[], by rw [List.append_nil], rfl, hlisted, rfl⟩
  | succ remaining ih =>
      rw [decodeEntries] at h
      obtain ⟨head, hhead, h⟩ := Except.bind_eq_ok.mp h
      split at h
      · cases h
      · next hslot =>
        simp only [Except.bind_eq_ok] at h
        obtain ⟨raw, hraw, name, hname, pushed, hpush, hrest⟩ := h
        have hpushed := hlisted.push hpush
        obtain ⟨_, _, hlt, rfl⟩ := Keyring.push_eq_ok.mp hpush
        have hlength : keyring.entries.length + 1 =
            (keyring.entries ++ [(⟨⟨keyring.entries.length, hlt⟩, name⟩ : NamedIdentity)]).length := by
          rw [List.length_append, List.length_singleton]
        rw [hlength] at hrest
        obtain ⟨added, rfl, hadded, hall, hdrop⟩ := ih hpushed hrest
        refine ⟨⟨⟨keyring.entries.length, hlt⟩, name⟩ :: added, ?_, ?_, hall, ?_⟩
        · rw [List.append_assoc]
          rfl
        · rw [List.length_cons, hadded]
        · have hentry := @entryBytes_of_read bytes head raw offset
            ⟨⟨keyring.entries.length, hlt⟩, name⟩ hhead (not_not.mp hslot) hraw
            (fromUtf8_eq_ok.mp hname)
          rw [hentry, hdrop, List.flatMap_cons, List.append_assoc]

/-- An entry takes between 4 and 67 bytes. -/
theorem entries_length {entries : List NamedIdentity}
    (h : ∀ entry ∈ entries, validateName entry.name = .ok ()) :
    4 * entries.length ≤ (entries.flatMap entryBytes).length ∧
      (entries.flatMap entryBytes).length ≤ 67 * entries.length := by
  induction entries with
  | nil => exact ⟨Nat.le_refl _, Nat.le_refl _⟩
  | cons entry entries ih =>
      obtain ⟨hleast, hmost⟩ := ih fun other hmem => h other (List.mem_cons_of_mem entry hmem)
      obtain ⟨hone, hmax⟩ := validateName_len (h entry List.mem_cons_self)
      rw [List.flatMap_cons, List.length_append, entryBytes_length, List.length_cons]
      omega

/-- **A valid keyring is decoded** from what it is encoded to. -/
theorem Keyring.Valid.decode_encode (h : keyring.Valid crates phrase) :
    ∃ bytes, encode keyring = .ok bytes ∧ decode crates bytes = .ok keyring ∧
      24 ≤ bytes.length ∧ bytes.length ≤ 4308 := by
  have hcapacity : keyring.entries.length ≤ 64 := h.length_le
  have hactive := h.active
  have hcount : keyring.entries.length < 256 ^ 2 := Nat.lt_of_le_of_lt hcapacity (by decide)
  have hslot : keyring.active.index < 256 ^ 2 := Nat.lt_trans keyring.active.lt (by decide)
  obtain ⟨hleast, hmost⟩ := entries_length h.names
  refine ⟨_, h.encode_eq, ?_, ?_, ?_⟩
  · generalize hbytes : toLe 2 keyring.entries.length ++ toLe 2 keyring.active.index ++
      keyring.phrase.toList ++ keyring.entries.flatMap entryBytes = bytes
    have hfront : (toLe 2 keyring.entries.length ++ toLe 2 keyring.active.index ++
        keyring.phrase.toList).length = 20 := by
      rw [List.length_append, List.length_append, toLe_length, toLe_length, Vector.length_toList]
    have hlong : ¬ bytes.length < 20 := by
      rw [← hbytes, List.length_append, hfront]
      omega
    have hfirst : slice bytes 0 2 = toLe 2 keyring.entries.length := by
      refine slice_eq [] _ (toLe 2 keyring.active.index ++ (keyring.phrase.toList ++
        keyring.entries.flatMap entryBytes)) ?_ rfl (by rw [toLe_length])
      rw [← hbytes]
      simp only [List.append_assoc, List.nil_append]
    have hsecond : slice bytes 2 4 = toLe 2 keyring.active.index := by
      refine slice_eq (toLe 2 keyring.entries.length) _ (keyring.phrase.toList ++
        keyring.entries.flatMap entryBytes) ?_ (toLe_length _ _) (by rw [toLe_length])
      rw [← hbytes]
      simp only [List.append_assoc]
    have hthird : slice bytes 4 20 = keyring.phrase.toList := by
      refine slice_eq (toLe 2 keyring.entries.length ++ toLe 2 keyring.active.index) _
        (keyring.entries.flatMap entryBytes) ?_ ?_ (by rw [Vector.length_toList])
      · rw [← hbytes]
        simp only [List.append_assoc]
      · rw [List.length_append, toLe_length, toLe_length]
    have hnew : IdentitySlot.new keyring.active.index = .ok keyring.active :=
      dif_pos keyring.active.lt
    have hempty : Keyring.empty crates keyring.phrase =
        .ok { keyring with entries := [], active := ⟨0, by decide⟩ } := by
      rw [Keyring.empty, h.owner, h.root]
      rfl
    have hentries := @decodeEntries_eq { keyring with active := ⟨0, by decide⟩ } bytes
      (toLe 2 keyring.entries.length ++ toLe 2 keyring.active.index ++ keyring.phrase.toList) []
      keyring.entries ⟨h.slots, h.names, h.nodup⟩ hbytes.symm
    rw [hfront] at hentries
    have hfits : ¬ (keyring.entries.length = 0 ∨ slotCapacity < keyring.entries.length ∨
        keyring.entries.length ≤ keyring.active.index) := by
      rw [slotCapacity]
      omega
    rw [decode, if_neg hlong, hfirst, hsecond, fromLe_toLe hcount, fromLe_toLe hslot]
    simp only [hnew, hfits, if_false, hthird, tryInto_eq_ok.mpr rfl, hempty, Except.ok_bind]
    rw [show decodeEntries bytes keyring.entries.length 0 20
      { keyring with entries := [], active := ⟨0, by decide⟩ } = _ from hentries]
    simp only [Except.ok_bind, ne_eq, not_true_eq_false, if_false, List.nil_append]
  · simp only [List.length_append, toLe_length, Vector.length_toList]
    omega
  · simp only [List.length_append, toLe_length, Vector.length_toList]
    omega

/-- **What is decoded is encoded** to the same bytes. -/
theorem encode_of_decode {bytes : Bytes} (h : decode crates bytes = .ok keyring) :
    encode keyring = .ok bytes := by
  rw [decode] at h
  split at h
  · cases h
  · next hlong =>
    simp only [Except.bind_eq_ok] at h
    obtain ⟨active, hactive, h⟩ := h
    split at h
    · cases h
    · next hcount =>
      simp only [Except.bind_eq_ok, Prod.exists] at h
      obtain ⟨phrase, hphrase, fresh, hempty, decoded, stop, hentries, h⟩ := h
      obtain ⟨hlisted, hnone, howner, hroot, _⟩ := Keyring.listed_empty hempty
      have hread : decodeEntries bytes (fromLe (slice bytes 0 2)) fresh.entries.length 20 fresh =
          .ok (decoded, stop) := by
        rw [hnone]
        exact hentries
      obtain ⟨added, rfl, hadded, hall, hdrop⟩ := decodeEntries_eq_ok hlisted hread
      split at h
      · cases h
      · next hstop =>
        cases h
        have hslot : active.index = fromLe (slice bytes 2 4) := by
          rw [IdentitySlot.new] at hactive
          split at hactive
          · cases hactive
            rfl
          · cases hactive
        have hentropy := tryInto_eq_ok.mp hphrase
        rw [not_not.mp hstop, List.drop_length, List.append_nil] at hdrop
        have hsame : Keyring.Listed { fresh with entries := fresh.entries ++ added, active } :=
          ⟨hall.slots, hall.names, hall.nodup⟩
        rw [hsame.encode_eq]
        show Except.ok (toLe 2 (fresh.entries ++ added).length ++ toLe 2 active.index ++
          fresh.phrase.toList ++ (fresh.entries ++ added).flatMap entryBytes) = _
        rw [hnone, List.nil_append, ← hdrop, hslot, hadded, howner, ← hentropy,
          toLe_fromLe_slice rfl (by omega), toLe_fromLe_slice rfl (by omega), List.append_assoc,
          List.append_assoc, ← drop_eq_slice_append (by decide),
          ← drop_eq_slice_append (by decide), ← drop_eq_slice_append (by decide), List.drop_zero]

end

end Urma.Identity
