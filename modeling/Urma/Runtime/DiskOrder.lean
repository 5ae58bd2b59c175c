import Urma.Core.Consistency

/-!
# The order of a publication on disk

`urma_runtime::disk_order`: data parts, then leaves, then one root, and nothing after it.
-/

namespace Urma.Runtime

/-- `disk_order::Order`. -/
structure Order where
  consistency : MultipartConsistency
  leaves : Bool
  root : Bool
  deriving DecidableEq

namespace Order

/-- `Order::new`. -/
def new : Order where
  consistency := .new
  leaves := false
  root := false

variable (sha256 : Bytes → Bytes32)

/-- `Order::append`. -/
def append (order : Order) (bytes : Bytes) (txid : Txid) : Except Error Order := do
  ensure (!order.root) "record follows publication root"
  let kind ← RecordKind.parse bytes
  ensure (!(kind == .dataPart) || !order.leaves) "noncanonical data publication order"
  let consistency ← order.consistency.accept sha256 bytes txid
  .ok {
    consistency
    leaves := order.leaves || kind == .leafManifest
    root := kind == .rootManifest }

/-- `Order::finish`. -/
def finish (order : Order) (count : ℕ) : Except Error Unit := do
  ensure order.root "publication root or geometry missing"
  order.consistency.validateCount count

/-- All the records of a publication, appended one after another, and the count at the end. -/
def publish (records : List (Bytes × Txid)) (count : ℕ) : Except Error Unit := do
  let order ← records.foldlM
    (fun (order : Order) record => order.append sha256 record.1 record.2) Order.new
  order.finish count

end Order

end Urma.Runtime
