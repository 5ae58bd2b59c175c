import Mathlib.Data.List.Nodup
import Urma.Core.Multipart

/-!
# The inventory of an object

`urma_core::multipart::inventory`: while the manifests of an object are read, every transaction
they refer to is met once. A hash set is the list of what was inserted; its reservations are
assumed to succeed.
-/

namespace Urma

/-- `inventory::ManifestInventory`. -/
structure ManifestInventory where
  geometry : Geometry
  nextLeaf : ℕ
  seen : List Txid
  deriving DecidableEq

namespace ManifestInventory

/-- A loop that inserts transactions, and fails at the first that was seen. -/
def insertAll (message : String) : List ChildReference → List Txid → Except Error (List Txid)
  | [], seen => .ok seen
  | reference :: references, seen => do
      ensure (!seen.contains reference.txid) message
      insertAll message references (seen ++ [reference.txid])

/-- `ManifestInventory::new`. -/
def new (rootTxid : Txid) (manifest : RootManifest) : Except Error ManifestInventory := do
  let geometry ← manifest.geometry
  let seen ← insertAll "duplicate or cyclic root reference" manifest.entries [rootTxid]
  .ok { geometry, nextLeaf := 0, seen }

/-- `ManifestInventory::accept_leaf`. -/
def acceptLeaf (inventory : ManifestInventory) (leaf : LeafManifest) :
    Except Error ManifestInventory := do
  leaf.validate
  ensure (leaf.index == inventory.nextLeaf) "leaf order mismatch"
  let entries ← inventory.geometry.leafEntries inventory.nextLeaf
  ensure (leaf.entries.length == entries) "leaf count disagrees with root"
  let seen ← insertAll "duplicate or cyclic data reference" leaf.entries inventory.seen
  .ok { inventory with seen, nextLeaf := inventory.nextLeaf + 1 }

/-- `ManifestInventory::is_complete`. -/
def isComplete (inventory : ManifestInventory) : Bool :=
  inventory.nextLeaf == inventory.geometry.leaves

/-! ## What is accepted -/

/-- The transactions some references name. -/
def txids (references : List ChildReference) : List Txid :=
  references.map ChildReference.txid

variable {message : String} {references : List ChildReference} {seen result : List Txid}

/-- **Inserting** succeeds exactly when nothing is met twice. -/
theorem insertAll_eq_ok (hseen : seen.Nodup) :
    insertAll message references seen = .ok result ↔
      (seen ++ txids references).Nodup ∧ result = seen ++ txids references := by
  induction references generalizing seen with
  | nil =>
      rw [insertAll, txids, List.map_nil, List.append_nil, Except.ok.injEq, eq_comm]
      exact (and_iff_right hseen).symm
  | cons reference references ih =>
      have hsplit : seen ++ txids (reference :: references) =
          (seen ++ [reference.txid]) ++ txids references := by
        rw [txids, List.map_cons, List.append_assoc, List.singleton_append]
        rfl
      rw [insertAll, Except.bind_eq_ok, hsplit]
      constructor
      · rintro ⟨_, hnew, hrest⟩
        have hnot : reference.txid ∉ seen := by simpa using hnew
        have hconcat := List.Nodup.concat hnot hseen
        rw [List.concat_eq_append] at hconcat
        exact (ih hconcat).mp hrest
      · rintro ⟨hnodup, hresult⟩
        have hconcat := (List.nodup_append.mp hnodup).1
        have hnot : reference.txid ∉ seen := fun hmem =>
          (List.nodup_append.mp hconcat).2.2 _ hmem _ List.mem_cons_self rfl
        exact ⟨(), by simpa using hnot, (ih hconcat).mpr ⟨hnodup, hresult⟩⟩

/-- **A new inventory** knows the root and its leaves, all of them different. -/
theorem new_eq_ok {rootTxid : Txid} {manifest : RootManifest} {inventory : ManifestInventory} :
    new rootTxid manifest = .ok inventory ↔ ∃ geometry, manifest.geometry = .ok geometry ∧
      (rootTxid :: txids manifest.entries).Nodup ∧
      inventory = ⟨geometry, 0, rootTxid :: txids manifest.entries⟩ := by
  have hone : [rootTxid].Nodup := List.nodup_singleton rootTxid
  simp only [new, Except.bind_eq_ok, insertAll_eq_ok hone, List.singleton_append]
  constructor
  · rintro ⟨geometry, hgeometry, seen, ⟨hnodup, rfl⟩, hinventory⟩
    exact ⟨geometry, hgeometry, hnodup, (Except.ok.inj hinventory).symm⟩
  · rintro ⟨geometry, hgeometry, hnodup, rfl⟩
    exact ⟨geometry, hgeometry, _, ⟨hnodup, rfl⟩, rfl⟩

/-- **An accepted leaf** is the next one, lists as many references as the geometry says, and names
transactions that were not met. -/
theorem acceptLeaf_eq_ok {inventory next : ManifestInventory} {leaf : LeafManifest}
    (hseen : inventory.seen.Nodup) :
    inventory.acceptLeaf leaf = .ok next ↔ leaf.validate = .ok () ∧
      leaf.index = inventory.nextLeaf ∧
      inventory.geometry.leafEntries inventory.nextLeaf = .ok leaf.entries.length ∧
      (inventory.seen ++ txids leaf.entries).Nodup ∧
      next = ⟨inventory.geometry, inventory.nextLeaf + 1,
        inventory.seen ++ txids leaf.entries⟩ := by
  simp only [acceptLeaf, Except.bind_eq_ok, insertAll_eq_ok hseen, ensure_eq_ok, beq_iff_eq]
  constructor
  · rintro ⟨_, hvalid, _, hindex, entries, hentries, _, hcount, seen, ⟨hnodup, rfl⟩, hnext⟩
    rw [← hcount] at hentries
    exact ⟨hvalid, hindex, hentries, hnodup, (Except.ok.inj hnext).symm⟩
  · rintro ⟨hvalid, hindex, hentries, hnodup, rfl⟩
    exact ⟨(), hvalid, (), hindex, _, hentries, (), rfl, _, ⟨hnodup, rfl⟩, rfl⟩

end ManifestInventory

end Urma
