import Std.Data.ExtTreeMap
import Mathlib.Data.List.Perm.Basic

/-!
# Putting a whole together from its parts

Parts arrive in any order, some of them twice. A part carries the header of the whole it
belongs to and its place in it. The first part fixes the header; a later part is refused if its
header differs, or if its place is taken by a part that does not agree with it.

The result of doing this one part at a time depends on nothing but the set of parts: it succeeds
exactly when the parts are coherent, and then holds each part in its place. The agreement test
may be weaker than equality (a comparison of digests); the theorem needs it to tell apart the
parts at hand.
-/

namespace Urma.Lib.Assembly

open Std

/-- How a part names its whole and its place, and the test made when the place is taken. -/
structure Scheme (V H K : Type) where
  header : V → H
  place : V → K
  agrees : V → V → Bool

variable {V H K : Type} [Ord K] [TransOrd K]

/-- A whole being put together. -/
structure Whole (V H K : Type) [Ord K] [TransOrd K] where
  header : H
  parts : ExtTreeMap K V

namespace Scheme

/-- The first part fixes the header. -/
def start (scheme : Scheme V H K) (part : V) : Whole V H K where
  header := scheme.header part
  parts := (∅ : ExtTreeMap K V).insert (scheme.place part) part

/-- One more part. -/
def put [DecidableEq H] (scheme : Scheme V H K) (whole : Whole V H K) (part : V) :
    Option (Whole V H K) :=
  if whole.header = scheme.header part then
    match whole.parts[scheme.place part]? with
    | some held => if scheme.agrees held part then some whole else none
    | none => some { whole with parts := whole.parts.insert (scheme.place part) part }
  else none

/-- All the parts, one at a time. -/
def assemble [DecidableEq H] (scheme : Scheme V H K) : List V → Option (Whole V H K)
  | [] => none
  | part :: parts => parts.foldlM scheme.put (scheme.start part)

/-! ## What the result has to be -/

/-- The parts are of one whole, and no two of them claim one place. -/
structure Coherent (scheme : Scheme V H K) (parts : List V) : Prop where
  header : ∀ a ∈ parts, ∀ b ∈ parts, scheme.header a = scheme.header b
  place : ∀ a ∈ parts, ∀ b ∈ parts, scheme.place a = scheme.place b → a = b

/-- The assembly holds exactly these parts, each in its place. -/
structure Gathered (scheme : Scheme V H K) (parts : List V) (whole : Whole V H K) : Prop where
  header : ∀ part ∈ parts, whole.header = scheme.header part
  parts : ∀ (k : K) (part : V),
    whole.parts[k]? = some part ↔ part ∈ parts ∧ scheme.place part = k

/-- The agreement test tells these parts apart. -/
structure Discerning (scheme : Scheme V H K) (parts : List V) : Prop where
  refl : ∀ a ∈ parts, scheme.agrees a a = true
  eq : ∀ a ∈ parts, ∀ b ∈ parts,
    scheme.place a = scheme.place b → scheme.agrees a b = true → a = b

variable {scheme : Scheme V H K} {parts others : List V} {whole whole' : Whole V H K}

omit [Ord K] [TransOrd K] in
theorem Discerning.mono (h : scheme.Discerning parts) (hsub : ∀ a ∈ others, a ∈ parts) :
    scheme.Discerning others where
  refl a ha := h.refl a (hsub a ha)
  eq a ha b hb := h.eq a (hsub a ha) b (hsub b hb)

omit [Ord K] [TransOrd K] in
theorem Coherent.mono (h : scheme.Coherent parts) (hsub : ∀ a ∈ others, a ∈ parts) :
    scheme.Coherent others where
  header a ha b hb := h.header a (hsub a ha) b (hsub b hb)
  place a ha b hb := h.place a (hsub a ha) b (hsub b hb)

theorem Gathered.coherent (h : scheme.Gathered parts whole) : scheme.Coherent parts where
  header a ha b hb := by rw [← h.header a ha, h.header b hb]
  place a ha b hb hplace := by
    have hheld := (h.parts (scheme.place b) a).mpr ⟨ha, hplace⟩
    have hother := (h.parts (scheme.place b) b).mpr ⟨hb, rfl⟩
    rw [hheld] at hother
    exact Option.some.inj hother

theorem Gathered.congr (h : scheme.Gathered parts whole) (hset : ∀ a, a ∈ others ↔ a ∈ parts) :
    scheme.Gathered others whole where
  header a ha := h.header a ((hset a).mp ha)
  parts k a := by rw [hset a]; exact h.parts k a

/-- The parts determine the assembly that holds them. -/
theorem Gathered.unique [LawfulEqOrd K] (h : scheme.Gathered parts whole)
    (h' : scheme.Gathered parts whole') (hne : parts ≠ []) : whole = whole' := by
  obtain ⟨a, ha⟩ := List.exists_mem_of_ne_nil parts hne
  have hheader : whole.header = whole'.header := by rw [h.header a ha, h'.header a ha]
  have hparts : whole.parts = whole'.parts := by
    apply ExtTreeMap.ext_getElem?
    intro k
    apply Option.ext
    intro part
    rw [h.parts k part, h'.parts k part]
  cases whole
  cases whole'
  cases hheader
  cases hparts
  rfl

/-! ## One part at a time -/

theorem start_gathered [LawfulEqOrd K] (part : V) :
    scheme.Gathered [part] (scheme.start part) where
  header a ha := by rw [List.mem_singleton.mp ha]; rfl
  parts k a := by
    rw [start, ExtTreeMap.getElem?_insert, ExtTreeMap.getElem?_empty, List.mem_singleton]
    by_cases hk : scheme.place part = k
    · rw [if_pos (LawfulEqCmp.compare_eq_iff_eq.mpr hk), Option.some.injEq]
      constructor
      · intro h; exact ⟨h.symm, h ▸ hk⟩
      · intro h; exact h.1.symm
    · rw [if_neg (fun h => hk (LawfulEqCmp.compare_eq_iff_eq.mp h))]
      constructor
      · intro h; cases h
      · intro h; exact absurd (h.1 ▸ h.2) hk

/-- A part that is taken joins those held. -/
theorem put_gathered [DecidableEq H] [LawfulEqOrd K] {part : V}
    (h : scheme.Gathered parts whole) (hdiscerning : scheme.Discerning (parts ++ [part]))
    (hput : scheme.put whole part = some whole') : scheme.Gathered (parts ++ [part]) whole' := by
  rw [put] at hput
  split at hput
  · next hheader =>
      split at hput
      · next held hheld =>
          split at hput
          · next hagrees =>
              -- the place is taken by this very part
              cases hput
              obtain ⟨hmem, hplace⟩ := (h.parts (scheme.place part) held).mp hheld
              have heq : held = part :=
                hdiscerning.eq held (List.mem_append_left [part] hmem) part
                  (List.mem_append_right parts List.mem_cons_self) hplace hagrees
              apply h.congr
              intro a
              rw [List.mem_append, List.mem_singleton]
              constructor
              · rintro (ha | ha)
                · exact ha
                · rw [ha, ← heq]; exact hmem
              · intro ha; exact Or.inl ha
          · cases hput
      · next hfree =>
          cases hput
          constructor
          · intro a ha
            rcases List.mem_append.mp ha with ha | ha
            · exact h.header a ha
            · rw [List.mem_singleton.mp ha]; exact hheader
          · intro k a
            rw [ExtTreeMap.getElem?_insert, List.mem_append, List.mem_singleton]
            by_cases hk : scheme.place part = k
            · rw [if_pos (LawfulEqCmp.compare_eq_iff_eq.mpr hk), Option.some.injEq]
              constructor
              · intro heq; exact ⟨Or.inr heq.symm, heq ▸ hk⟩
              · rintro ⟨ha | ha, hplace⟩
                · have htaken := (h.parts k a).mpr ⟨ha, hplace⟩
                  rw [← hk, hfree] at htaken
                  cases htaken
                · exact ha.symm
            · rw [if_neg (fun hc => hk (LawfulEqCmp.compare_eq_iff_eq.mp hc)), h.parts k a]
              constructor
              · intro hmem; exact ⟨Or.inl hmem.1, hmem.2⟩
              · rintro ⟨ha | ha, hplace⟩
                · exact ⟨ha, hplace⟩
                · exact absurd (ha ▸ hplace) hk
  · cases hput

/-- A part coherent with those before it is taken. -/
theorem exists_put [DecidableEq H] {part : V} (h : scheme.Gathered parts whole)
    (hne : parts ≠ []) (hcoherent : scheme.Coherent (parts ++ part :: others))
    (hrefl : scheme.agrees part part = true) :
    ∃ next, scheme.put whole part = some next := by
  have hpart : part ∈ parts ++ part :: others := List.mem_append_right parts List.mem_cons_self
  have hheader : whole.header = scheme.header part := by
    obtain ⟨a, ha⟩ := List.exists_mem_of_ne_nil parts hne
    rw [h.header a ha]
    exact hcoherent.header a (List.mem_append_left _ ha) part hpart
  cases hheld : whole.parts[scheme.place part]? with
  | none =>
      rw [put, if_pos hheader, hheld]
      exact ⟨_, rfl⟩
  | some held =>
      obtain ⟨hmem, hplace⟩ := (h.parts (scheme.place part) held).mp hheld
      have heq := hcoherent.place held (List.mem_append_left _ hmem) part hpart hplace
      rw [put, if_pos hheader, hheld, heq]
      exact ⟨_, if_pos hrefl⟩

/-- A part that is taken has the header of the whole, and leaves it alone. -/
theorem put_header [DecidableEq H] {part : V} (h : scheme.put whole part = some whole') :
    whole'.header = whole.header ∧ scheme.header part = whole.header := by
  rw [put] at h
  split at h
  · next hheader =>
      split at h
      · split at h
        · cases h; exact ⟨rfl, hheader.symm⟩
        · cases h
      · cases h; exact ⟨rfl, hheader.symm⟩
  · cases h

/-! ## All the parts -/

theorem foldlM_put_header [DecidableEq H] (h : others.foldlM scheme.put whole = some whole') :
    whole'.header = whole.header ∧ ∀ part ∈ others, scheme.header part = whole.header := by
  induction others generalizing whole with
  | nil =>
      cases h
      refine ⟨rfl, ?_⟩
      intro part hmem
      cases hmem
  | cons part others ih =>
      obtain ⟨next, hput, hrest⟩ := Option.bind_eq_some_iff.mp h
      obtain ⟨hnext, hpart⟩ := put_header hput
      obtain ⟨hwhole', hothers⟩ := ih hrest
      rw [hnext] at hwhole' hothers
      refine ⟨hwhole', ?_⟩
      intro other hmem
      rcases List.mem_cons.mp hmem with rfl | hmem
      · exact hpart
      · exact hothers other hmem

/-- All parts have the header of the assembly, whether or not they can be told apart. -/
theorem assemble_header [DecidableEq H] (h : scheme.assemble parts = some whole) :
    ∀ part ∈ parts, scheme.header part = whole.header := by
  cases parts with
  | nil => cases h
  | cons first rest =>
      obtain ⟨hwhole, hrest⟩ := foldlM_put_header h
      intro part hmem
      rcases List.mem_cons.mp hmem with rfl | hmem
      · exact hwhole.symm
      · rw [hrest part hmem]; exact hwhole.symm

/-- What has been taken, part after part, is what is held. -/
theorem foldlM_put_gathered [DecidableEq H] [LawfulEqOrd K] (h : scheme.Gathered parts whole)
    (hdiscerning : scheme.Discerning (parts ++ others))
    (hfold : others.foldlM scheme.put whole = some whole') :
    scheme.Gathered (parts ++ others) whole' := by
  induction others generalizing parts whole with
  | nil =>
      cases hfold
      rw [List.append_nil]
      exact h
  | cons part others ih =>
      obtain ⟨next, hput, hrest⟩ := Option.bind_eq_some_iff.mp hfold
      have hreassoc : parts ++ part :: others = parts ++ [part] ++ others := by simp
      rw [hreassoc] at hdiscerning ⊢
      have hfirst := hdiscerning.mono (fun a ha => List.mem_append_left others ha)
      exact ih (put_gathered h hfirst hput) hdiscerning hrest

/-- Coherent parts are taken, one after another. -/
theorem exists_foldlM_put [DecidableEq H] [LawfulEqOrd K] (h : scheme.Gathered parts whole)
    (hne : parts ≠ []) (hcoherent : scheme.Coherent (parts ++ others))
    (hdiscerning : scheme.Discerning (parts ++ others)) :
    ∃ whole', others.foldlM scheme.put whole = some whole' := by
  induction others generalizing parts whole with
  | nil => exact ⟨whole, rfl⟩
  | cons part others ih =>
      have hrefl := hdiscerning.refl part (List.mem_append_right parts List.mem_cons_self)
      obtain ⟨next, hput⟩ := exists_put h hne hcoherent hrefl
      have hreassoc : parts ++ part :: others = parts ++ [part] ++ others := by simp
      rw [hreassoc] at hcoherent hdiscerning
      have hfirst := hdiscerning.mono (fun a ha => List.mem_append_left others ha)
      obtain ⟨whole', hrest⟩ := ih (put_gathered h hfirst hput)
        (List.append_ne_nil_of_left_ne_nil hne [part]) hcoherent hdiscerning
      refine ⟨whole', ?_⟩
      rw [List.foldlM_cons, hput]
      exact hrest

/-- An assembly holds the parts it was made from. -/
theorem assemble_gathered [DecidableEq H] [LawfulEqOrd K]
    (hdiscerning : scheme.Discerning parts) (h : scheme.assemble parts = some whole) :
    scheme.Gathered parts whole := by
  cases parts with
  | nil => cases h
  | cons part rest => exact foldlM_put_gathered (start_gathered part) hdiscerning h

/-- Coherent parts can be assembled. -/
theorem exists_assemble [DecidableEq H] [LawfulEqOrd K] (hne : parts ≠ [])
    (hcoherent : scheme.Coherent parts) (hdiscerning : scheme.Discerning parts) :
    ∃ whole, scheme.assemble parts = some whole := by
  cases parts with
  | nil => exact absurd rfl hne
  | cons part rest =>
      exact exists_foldlM_put (start_gathered part) (List.cons_ne_nil part []) hcoherent
        hdiscerning

/-- **Assembling succeeds exactly on coherent parts**, and holds each of them in its place. -/
theorem assemble_eq_some [DecidableEq H] [LawfulEqOrd K]
    (hdiscerning : scheme.Discerning parts) :
    scheme.assemble parts = some whole ↔ parts ≠ [] ∧ scheme.Gathered parts whole := by
  constructor
  · intro h
    refine ⟨?_, assemble_gathered hdiscerning h⟩
    intro hnil
    rw [hnil] at h
    cases h
  · rintro ⟨hne, hgathered⟩
    obtain ⟨other, hother⟩ := exists_assemble hne hgathered.coherent hdiscerning
    rw [hother, hgathered.unique (assemble_gathered hdiscerning hother) hne]

/-- **Neither order nor repetition matters.** -/
theorem assemble_congr [DecidableEq H] [LawfulEqOrd K]
    (hdiscerning : scheme.Discerning parts) (hset : ∀ a, a ∈ others ↔ a ∈ parts) :
    scheme.assemble others = scheme.assemble parts := by
  have hother : scheme.Discerning others := hdiscerning.mono (fun a ha => (hset a).mp ha)
  have hnil : others = [] ↔ parts = [] := by
    rw [List.eq_nil_iff_forall_not_mem, List.eq_nil_iff_forall_not_mem]
    constructor
    · intro h a ha; exact h a ((hset a).mpr ha)
    · intro h a ha; exact h a ((hset a).mp ha)
  apply Option.ext
  intro whole
  rw [assemble_eq_some hdiscerning, assemble_eq_some hother]
  constructor
  · rintro ⟨hne, hgathered⟩
    exact ⟨fun h => hne (hnil.mpr h), hgathered.congr (fun a => (hset a).symm)⟩
  · rintro ⟨hne, hgathered⟩
    exact ⟨fun h => hne (hnil.mp h), hgathered.congr hset⟩

end Scheme

/-! ## Counting -/

/-- A table has as many entries as there are keys in a duplicate-free list of its keys. -/
theorem size_eq_length [LawfulEqOrd K] {table : ExtTreeMap K V} {keys : List K}
    (hnodup : keys.Nodup) (hkeys : ∀ k, k ∈ table ↔ k ∈ keys) : table.size = keys.length := by
  have hperm : table.keys.Perm keys := by
    apply (List.perm_ext_iff_of_nodup ExtTreeMap.nodup_keys hnodup).mpr
    intro k
    rw [ExtTreeMap.mem_keys, hkeys]
  rw [← ExtTreeMap.length_keys, hperm.length_eq]

end Urma.Lib.Assembly
