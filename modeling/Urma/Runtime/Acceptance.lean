import Mathlib.Data.List.Infix
import Urma.Runtime.Publication

/-!
# What the acceptor accepts

A publication grows by a data part, a leaf or the root. The acceptor's state follows it, so a
whole run follows a growing publication, and what is accepted in the end is exactly the canonical
objects.
-/

namespace Urma.Runtime

open Lib.Layout MultipartConsistency

variable {sha256 : Bytes → Bytes32} {data leaves : List Item} {item : Item}

/-! ## Growing -/

/-- A publication so far. -/
structure Publication where
  data : List Item
  leaves : List Item
  root : Option Item

namespace Publication

def empty : Publication := ⟨[], [], none⟩

/-- The records, in the order of publication. -/
def items (publication : Publication) : List Item :=
  publication.data ++ (publication.leaves ++ publication.root.toList)

/-- Every record has its place. -/
structure Valid (sha256 : Bytes → Bytes32) (publication : Publication) : Prop where
  data : DataValid publication.data
  leaves : LeavesValid sha256 publication.data publication.leaves
  root : ∀ root, publication.root = some root →
    RootValid sha256 publication.data publication.leaves root

/-- The acceptor's state. -/
def order (sha256 : Bytes → Bytes32) (publication : Publication) : Order where
  consistency := consistencyOf sha256 publication.data publication.leaves
  leaves := !publication.leaves.isEmpty
  root := publication.root.isSome

/-- The three ways in which one record extends a publication. -/
inductive Extends : Publication → Item → Publication → Prop where
  | part (data : List Item) (item : Item) :
      Extends ⟨data, [], none⟩ item ⟨data ++ [item], [], none⟩
  | leaf (data leaves : List Item) (item : Item) :
      Extends ⟨data, leaves, none⟩ item ⟨data, leaves ++ [item], none⟩
  | root (data leaves : List Item) (item : Item) :
      Extends ⟨data, leaves, none⟩ item ⟨data, leaves, some item⟩

/-- One record after another. -/
inductive Grows : Publication → List Item → Publication → Prop where
  | refl (publication : Publication) : Grows publication [] publication
  | step {p q r : Publication} {item : Item} {items : List Item} :
      Extends p item q → Grows q items r → Grows p (item :: items) r

variable {p q r : Publication} {items : List Item}

theorem empty_valid : empty.Valid sha256 where
  data := DataValid.nil
  leaves := LeavesValid.nil
  root root h := by cases h

theorem Extends.items_eq (h : Extends p item q) : q.items = p.items ++ [item] := by
  cases h with
  | part => simp [items]
  | leaf => simp [items]
  | root => simp [items]

/-- What extends to a valid publication is valid. -/
theorem Extends.valid_left (h : Extends p item q) (hq : q.Valid sha256) : p.Valid sha256 := by
  cases h with
  | part data item =>
      refine ⟨(dataValid_snoc.mp hq.data).1, LeavesValid.nil, ?_⟩
      intro root h; cases h
  | leaf data leaves item =>
      refine ⟨hq.data, (leavesValid_snoc.mp hq.leaves).1, ?_⟩
      intro root h; cases h
  | root data leaves item =>
      refine ⟨hq.data, hq.leaves, ?_⟩
      intro root h; cases h

theorem Grows.items_eq (h : Grows p items q) : q.items = p.items ++ items := by
  induction h with
  | refl p => rw [List.append_nil]
  | step hextends _ ih => rw [ih, hextends.items_eq, List.append_assoc, List.singleton_append]

theorem Grows.valid_left (h : Grows p items q) (hq : q.Valid sha256) : p.Valid sha256 := by
  induction h with
  | refl p => exact hq
  | step hextends _ ih => exact hextends.valid_left (ih hq)

theorem Grows.trans {others : List Item} (h : Grows p items q) (h' : Grows q others r) :
    Grows p (items ++ others) r := by
  induction h with
  | refl p => exact h'
  | step hextends _ ih => exact Grows.step hextends (ih h')

theorem grows_data (data more : List Item) :
    Grows ⟨data, [], none⟩ more ⟨data ++ more, [], none⟩ := by
  induction more generalizing data with
  | nil =>
      rw [List.append_nil]
      exact Grows.refl _
  | cons item more ih =>
      have hrest := ih (data ++ [item])
      rw [List.append_assoc, List.singleton_append] at hrest
      exact Grows.step (Extends.part data item) hrest

theorem grows_leaves (data leaves more : List Item) :
    Grows ⟨data, leaves, none⟩ more ⟨data, leaves ++ more, none⟩ := by
  induction more generalizing leaves with
  | nil =>
      rw [List.append_nil]
      exact Grows.refl _
  | cons item more ih =>
      have hrest := ih (leaves ++ [item])
      rw [List.append_assoc, List.singleton_append] at hrest
      exact Grows.step (Extends.leaf data leaves item) hrest

/-- Every publication grows from nothing, record by record. -/
theorem grows_items (publication : Publication) :
    Grows empty publication.items publication := by
  obtain ⟨data, leaves, root⟩ := publication
  have hdata := grows_data [] data
  have hleaves := grows_leaves data [] leaves
  rw [List.nil_append] at hdata hleaves
  apply hdata.trans
  apply hleaves.trans
  cases root with
  | none => exact Grows.refl _
  | some root => exact Grows.step (Extends.root data leaves root) (Grows.refl _)

/-! ## The acceptor follows -/

/-- No reference list that the record could be compared with collides with its own. -/
def Discerned (sha256 : Bytes → Bytes32) (publication : Publication) (item : Item) : Prop :=
  ∀ compared, compared ∈ groupsOf sha256 publication.data ∨
      compared = references sha256 publication.leaves →
    referencesHash sha256 item.entries = referencesHash sha256 compared →
      item.entries = compared

/-- **One record.** The acceptor takes a record exactly when it extends the publication to a valid
one, and is then in the state of that. -/
theorem append_eq_ok (hvalid : p.Valid sha256) (hdiscerned : p.Discerned sha256 item)
    {order : Order} :
    (p.order sha256).append sha256 item.1 item.2 = .ok order ↔
      ∃ q, Extends p item q ∧ q.Valid sha256 ∧ order = q.order sha256 := by
  obtain ⟨data, leaves, root⟩ := p
  constructor
  · intro happend
    simp only [Order.append, Except.bind_eq_ok, ensure_eq_ok] at happend
    obtain ⟨_, hroot, kind, hkind, _, hposition, consistency, haccept, horder⟩ := happend
    cases root with
    | some root => cases hroot
    | none =>
        simp only [accept, Except.bind_eq_ok] at haccept
        obtain ⟨record, hdecode, haccept⟩ := haccept
        have hsame := hkind.symm.trans (MultipartRecord.decode_eq_ok hdecode).2.1
        cases hsame
        cases record with
        | data part =>
            -- no data part after a leaf
            cases leaves with
            | cons leaf leaves => cases hposition
            | nil =>
                obtain ⟨hdata, rfl⟩ := (acceptData_eq_ok hvalid.data hdecode).mp haccept
                refine ⟨_, Extends.part data item, ⟨hdata, LeavesValid.nil, ?_⟩, ?_⟩
                · intro root h; cases h
                · exact (Except.ok.inj horder).symm
        | leaf manifest =>
            rw [Discerned, entries_of_decode hdecode] at hdiscerned
            have hfree := fun group hgroup => hdiscerned group (Or.inl hgroup)
            obtain ⟨hleaves, rfl⟩ := (acceptLeaf_eq_ok hvalid.leaves hdecode hfree).mp haccept
            refine ⟨_, Extends.leaf data leaves item, ⟨hvalid.data, hleaves, ?_⟩, ?_⟩
            · intro root h; cases h
            · rw [← Except.ok.inj horder]
              simp [Publication.order, MultipartRecord.kind]
        | root manifest =>
            rw [Discerned, entries_of_decode_root hdecode] at hdiscerned
            have hfree := hdiscerned _ (Or.inr rfl)
            obtain ⟨_, hroot, hstate⟩ := Except.bind_eq_ok.mp haccept
            cases hstate
            have hvalidRoot := (acceptRoot_eq_ok hvalid.leaves hdecode hfree).mp hroot
            refine ⟨_, Extends.root data leaves item, ⟨hvalid.data, hvalid.leaves, ?_⟩, ?_⟩
            · intro root h
              cases h
              exact hvalidRoot
            · rw [← Except.ok.inj horder]
              simp [Publication.order, MultipartRecord.kind]
  · rintro ⟨q, hextends, hq, rfl⟩
    cases hextends with
    | part =>
        obtain ⟨_, hdecode, _⟩ := dataValid_snoc.mp hq.data
        have haccept : acceptData sha256 (consistencyOf sha256 data [])
            ⟨data.length, item.payload⟩ (item.reference sha256) =
            .ok (consistencyOf sha256 (data ++ [item]) []) :=
          (acceptData_eq_ok hvalid.data hdecode).mpr ⟨hq.data, rfl⟩
        have hkind := (MultipartRecord.decode_eq_ok hdecode).2.1
        simp only [Order.append, accept, order, hkind, hdecode, Except.ok_bind]
        exact Except.bind_eq_ok.mpr ⟨(), rfl, Except.bind_eq_ok.mpr ⟨(), rfl,
          Except.bind_eq_ok.mpr ⟨_, haccept, rfl⟩⟩⟩
    | leaf =>
        obtain ⟨_, group, _, hdecode⟩ := leavesValid_snoc.mp hq.leaves
        rw [Discerned, entries_of_decode hdecode] at hdiscerned
        have hfree := fun group hgroup => hdiscerned group (Or.inl hgroup)
        have haccept := (acceptLeaf_eq_ok hvalid.leaves hdecode hfree).mpr ⟨hq.leaves, rfl⟩
        have hkind := (MultipartRecord.decode_eq_ok hdecode).2.1
        have hflag : (!(leaves ++ [item]).isEmpty) = (!leaves.isEmpty || true) := by simp
        simp only [Order.append, accept, order, hkind, hdecode, Except.ok_bind, hflag]
        exact Except.bind_eq_ok.mpr ⟨(), rfl, Except.bind_eq_ok.mpr ⟨(), rfl,
          Except.bind_eq_ok.mpr ⟨_, haccept, rfl⟩⟩⟩
    | root =>
        have hroot := hq.root item rfl
        obtain ⟨manifest, _, hdecode, _⟩ := hroot.manifest
        rw [Discerned, entries_of_decode_root hdecode] at hdiscerned
        have hfree := hdiscerned _ (Or.inr rfl)
        have haccept : acceptRoot sha256 (consistencyOf sha256 data leaves) manifest = .ok () :=
          (acceptRoot_eq_ok hvalid.leaves hdecode hfree).mpr hroot
        have hkind := (MultipartRecord.decode_eq_ok hdecode).2.1
        have hflag : (!leaves.isEmpty || false) = !leaves.isEmpty := Bool.or_false _
        simp only [Order.append, accept, order, hkind, hdecode, Except.ok_bind, haccept]
        exact congrArg (fun flag => (Except.ok ⟨consistencyOf sha256 data leaves, flag, true⟩ :
          Except Error Order)) hflag

/-! ## A whole run -/

/-- The reference lists a run over some records could compare: any run of references to them, and
what their manifests list. -/
def comparedReferences (sha256 : Bytes → Bytes32) (records : List Item) :
    List (List ChildReference) :=
  (references sha256 records).tails.flatMap List.inits ++ records.map Item.entries

/-- The hash does not collide on them. -/
def CollisionFree (sha256 : Bytes → Bytes32) (records : List Item) : Prop :=
  ∀ a ∈ comparedReferences sha256 records, ∀ b ∈ comparedReferences sha256 records,
    referencesHash sha256 a = referencesHash sha256 b → a = b

/-- A run of references to the records is among the lists compared. -/
theorem mem_comparedReferences {records before middle after : List Item}
    (h : records = before ++ (middle ++ after)) :
    references sha256 middle ∈ comparedReferences sha256 records := by
  apply List.mem_append_left
  rw [List.mem_flatMap]
  refine ⟨references sha256 (middle ++ after), ?_, ?_⟩
  · have hall : references sha256 records =
        references sha256 before ++ references sha256 (middle ++ after) := by
      rw [h]
      exact references_append before _
    rw [List.mem_tails, hall]
    exact List.suffix_append _ _
  · rw [List.mem_inits, references_append]
    exact List.prefix_append _ _

theorem CollisionFree.discerned {records : List Item} (h : CollisionFree sha256 records)
    {item : Item} {rest : List Item} (hrecords : records = p.items ++ item :: rest) :
    p.Discerned sha256 item := by
  have hitem : item.entries ∈ comparedReferences sha256 records := by
    apply List.mem_append_right
    apply List.mem_map_of_mem
    rw [hrecords]
    exact List.mem_append_right _ List.mem_cons_self
  rintro compared (hgroup | rfl) hhash
  · -- a group is a run of references to data parts
    obtain ⟨j, hj⟩ := List.mem_iff_getElem?.mp hgroup
    have heq := (groupsOf_getElem? hj).2.1
    have hrun : compared = references sha256
        ((p.data.drop (j * Geometry.fanout)).take Geometry.fanout) := by
      rw [heq, references, references, List.map_take, List.map_drop]
    have hsplit : records = p.data.take (j * Geometry.fanout) ++
        ((p.data.drop (j * Geometry.fanout)).take Geometry.fanout ++
          ((p.data.drop (j * Geometry.fanout)).drop Geometry.fanout ++
            (p.leaves ++ p.root.toList ++ item :: rest))) := by
      rw [← List.append_assoc (List.take _ _) (List.drop _ _), List.take_append_drop,
        ← List.append_assoc, List.take_append_drop, hrecords, Publication.items]
      simp
    rw [hrun] at hhash ⊢
    exact h _ hitem _ (mem_comparedReferences hsplit) hhash
  · have hsplit : records = p.data ++ (p.leaves ++ (p.root.toList ++ item :: rest)) := by
      rw [hrecords, Publication.items]
      simp
    exact h _ hitem _ (mem_comparedReferences hsplit) hhash

/-- **A whole run.** The acceptor takes records exactly when the publication grows by them to a
valid one, and is then in the state of that. -/
theorem run_eq_ok {records : List Item} (hfree : CollisionFree sha256 records)
    (hvalid : p.Valid sha256) (hrecords : records = p.items ++ items) {order : Order} :
    items.foldlM (fun (order : Order) record => order.append sha256 record.1 record.2)
        (p.order sha256) = .ok order ↔
      ∃ q, Grows p items q ∧ q.Valid sha256 ∧ order = q.order sha256 := by
  induction items generalizing p with
  | nil =>
      constructor
      · intro h
        cases h
        exact ⟨p, Grows.refl p, hvalid, rfl⟩
      · rintro ⟨q, hgrows, _, rfl⟩
        cases hgrows
        rfl
  | cons item items ih =>
      have hdiscerned := hfree.discerned hrecords
      rw [List.foldlM_cons, Except.bind_eq_ok]
      constructor
      · rintro ⟨next, happend, hrest⟩
        obtain ⟨q, hextends, hq, rfl⟩ := (append_eq_ok hvalid hdiscerned).mp happend
        have hitems : records = q.items ++ items := by
          rw [hextends.items_eq, hrecords, List.append_assoc, List.singleton_append]
        obtain ⟨r, hgrows, hr, horder⟩ := (ih hq hitems).mp hrest
        exact ⟨r, Grows.step hextends hgrows, hr, horder⟩
      · rintro ⟨r, hgrows, hr, rfl⟩
        cases hgrows with
        | step hextends hgrows =>
            next q =>
            have hq := hgrows.valid_left hr
            have hitems : records = q.items ++ items := by
              rw [hextends.items_eq, hrecords, List.append_assoc, List.singleton_append]
            refine ⟨q.order sha256, (append_eq_ok hvalid hdiscerned).mpr ⟨q, hextends, hq, rfl⟩, ?_⟩
            exact (ih hq hitems).mpr ⟨r, hgrows, hr, rfl⟩

/-- What a run over all the records from the start accepts. -/
theorem run_new_eq_ok {records : List Item} (hfree : CollisionFree sha256 records)
    {order : Order} :
    records.foldlM (fun (order : Order) record => order.append sha256 record.1 record.2)
        Order.new = .ok order ↔
      ∃ q : Publication, q.items = records ∧ q.Valid sha256 ∧ order = q.order sha256 := by
  have hrun := @run_eq_ok sha256 empty records records hfree empty_valid rfl order
  have hstart : Order.new = empty.order sha256 := rfl
  rw [hstart, hrun]
  constructor
  · rintro ⟨q, hgrows, hq, horder⟩
    exact ⟨q, hgrows.items_eq, hq, horder⟩
  · rintro ⟨q, rfl, hq, horder⟩
    exact ⟨q, grows_items q, hq, horder⟩

end Publication

end Urma.Runtime
