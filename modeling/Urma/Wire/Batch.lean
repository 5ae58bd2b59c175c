import Urma.Lib.WorkQueue
import Urma.Wire.Index

/-!
# Streaming a batch

`urma_wire::index::stream_batch`: workers fetch the blocks of a range side by side, and a collector
applies them in order. One step is one step of a worker or of the collector, and any that can take
a step may be next.
-/

namespace Urma.Wire

open Chain Std

/-! ## State -/

/-- `answers.send` takes the position and what the source answered. -/
abbrev Answer (E : Type) := Except E (Block × Bytes32)

/-- Where a worker stands in `fetch_loop`. -/
inductive Fetcher (E : Type) where
  /-- It is about to read `failed`. -/
  | checking
  /-- It read that nothing failed, and is about to draw a position. -/
  | drawing
  | fetching (position height : ℕ)
  /-- The source failed, and `failed` is about to be raised. -/
  | marking (position : ℕ) (cause : E)
  | sending (position : ℕ) (answer : Answer E)
  | stopped

/-- Where the collector stands. -/
inductive Collector (E : Type) where
  | collecting
  /-- It has its result, and the inbox is about to be dropped. -/
  | leaving (result : Except (SyncError E) Unit)
  | finished (result : Except (SyncError E) Unit)

/-- `stream_batch` while it runs. `applied` is what was handed to the index, in this order. -/
structure Stream (E : Type) where
  cursor : ℕ
  failed : Bool
  workers : List (Fetcher E)
  inbox : List (ℕ × Answer E)
  waiting : ExtTreeMap ℕ (Block × Bytes32)
  expected : ℕ
  collector : Collector E
  index : Index
  applied : List (ℕ × Block × Bytes32)

/-- The inbox still takes answers. -/
def Collector.isOpen {E : Type} : Collector E → Bool
  | .finished _ => false
  | _ => true

variable {E : Type}

/-- The start of `stream_batch`, with up to so many workers. -/
def Stream.start (fetchWorkers : ℕ) (heights : List ℕ) (index : Index) : Stream E where
  cursor := 0
  failed := false
  workers := List.replicate (min fetchWorkers heights.length) .checking
  inbox := []
  waiting := ∅
  expected := 0
  collector := .collecting
  index := index
  applied := []

/-- `stream_batch` returns when the collector is done and the scope has joined the workers. -/
def Stream.Returned (state : Stream E) (result : Except (SyncError E) Unit) : Prop :=
  state.collector = .finished result ∧ ∀ worker ∈ state.workers, worker = .stopped

/-! ## Steps -/

variable (crates : WireCrates) (reader : Reader E) (heights : List ℕ)

/-- One step of a worker: what it reads and writes of the shared state, and where it stands next.
The shared state is the counter, the flag and the inbox, of which it sees whether it is open. -/
inductive Fetcher.Step (inboxOpen : Bool) :
    ℕ × Bool × List (ℕ × Answer E) → Fetcher E → ℕ × Bool × List (ℕ × Answer E) → Fetcher E → Prop
  | proceed {cursor : ℕ} {inbox : List (ℕ × Answer E)} :
      Fetcher.Step inboxOpen (cursor, false, inbox) .checking (cursor, false, inbox) .drawing
  | halt {cursor : ℕ} {inbox : List (ℕ × Answer E)} :
      Fetcher.Step inboxOpen (cursor, true, inbox) .checking (cursor, true, inbox) .stopped
  | draw {cursor height : ℕ} {failed : Bool} {inbox : List (ℕ × Answer E)}
      (hheight : heights[cursor]? = some height) :
      Fetcher.Step inboxOpen (cursor, failed, inbox) .drawing
        (cursor + 1, failed, inbox) (.fetching cursor height)
  | exhaust {cursor : ℕ} {failed : Bool} {inbox : List (ℕ × Answer E)}
      (hend : heights[cursor]? = none) :
      Fetcher.Step inboxOpen (cursor, failed, inbox) .drawing (cursor + 1, failed, inbox) .stopped
  | fetch {cursor position height : ℕ} {failed : Bool} {inbox : List (ℕ × Answer E)}
      {pair : Block × Bytes32} (hblock : reader.block height = .ok pair) :
      Fetcher.Step inboxOpen (cursor, failed, inbox) (.fetching position height)
        (cursor, failed, inbox) (.sending position (.ok pair))
  | fail {cursor position height : ℕ} {failed : Bool} {inbox : List (ℕ × Answer E)} {cause : E}
      (hblock : reader.block height = .error cause) :
      Fetcher.Step inboxOpen (cursor, failed, inbox) (.fetching position height)
        (cursor, failed, inbox) (.marking position cause)
  | mark {cursor position : ℕ} {failed : Bool} {inbox : List (ℕ × Answer E)} {cause : E} :
      Fetcher.Step inboxOpen (cursor, failed, inbox) (.marking position cause)
        (cursor, true, inbox) (.sending position (.error cause))
  | send {cursor position : ℕ} {failed : Bool} {inbox : List (ℕ × Answer E)} {answer : Answer E}
      (hopen : inboxOpen = true) :
      Fetcher.Step inboxOpen (cursor, failed, inbox) (.sending position answer)
        (cursor, failed, inbox ++ [(position, answer)]) .checking
  | disconnect {cursor position : ℕ} {failed : Bool} {inbox : List (ℕ × Answer E)}
      {answer : Answer E} (hclosed : inboxOpen = false) :
      Fetcher.Step inboxOpen (cursor, failed, inbox) (.sending position answer)
        (cursor, failed, inbox) .stopped

/-- One step of `stream_batch`. -/
inductive Stream.Step : Stream E → Stream E → Prop
  | worker {state : Stream E} {before after : List (Fetcher E)} {worker worker' : Fetcher E}
      {cursor : ℕ} {failed : Bool} {inbox : List (ℕ × Answer E)}
      (hworkers : state.workers = before ++ worker :: after)
      (hstep : Fetcher.Step reader heights state.collector.isOpen
        (state.cursor, state.failed, state.inbox) worker (cursor, failed, inbox) worker') :
      Stream.Step state
        { state with cursor, failed, inbox, workers := before ++ worker' :: after }
  /-- The inner loop holds the next block and applies it. -/
  | apply {state : Stream E} {height : ℕ} {pair : Block × Bytes32} {index : Index}
      (hcollecting : state.collector = .collecting)
      (hwaiting : state.waiting[state.expected]? = some pair)
      (hheight : heights[state.expected]? = some height)
      (hindex : applyBlock crates reader state.index height pair = .ok index) :
      Stream.Step state
        { state with
          waiting := state.waiting.erase state.expected
          expected := state.expected + 1
          index
          applied := state.applied ++ [(height, pair)] }
  | refuse {state : Stream E} {height : ℕ} {pair : Block × Bytes32} {cause : SyncError E}
      (hcollecting : state.collector = .collecting)
      (hwaiting : state.waiting[state.expected]? = some pair)
      (hheight : heights[state.expected]? = some height)
      (hindex : applyBlock crates reader state.index height pair = .error cause) :
      Stream.Step state
        { state with
          waiting := state.waiting.erase state.expected
          failed := true
          collector := .leaving (.error cause) }
  /-- The height is past the range: the inner loop ends without the block. -/
  | discard {state : Stream E} {pair : Block × Bytes32}
      (hcollecting : state.collector = .collecting)
      (hwaiting : state.waiting[state.expected]? = some pair)
      (hheight : heights[state.expected]? = none) :
      Stream.Step state { state with waiting := state.waiting.erase state.expected }
  | receive {state : Stream E} {position : ℕ} {pair : Block × Bytes32}
      {inbox : List (ℕ × Answer E)}
      (hcollecting : state.collector = .collecting)
      (hwaiting : state.waiting[state.expected]? = none)
      (hinbox : state.inbox = (position, .ok pair) :: inbox) :
      Stream.Step state { state with inbox, waiting := state.waiting.insert position pair }
  | giveUp {state : Stream E} {position : ℕ} {cause : E} {inbox : List (ℕ × Answer E)}
      (hcollecting : state.collector = .collecting)
      (hwaiting : state.waiting[state.expected]? = none)
      (hinbox : state.inbox = (position, .error cause) :: inbox) :
      Stream.Step state { state with inbox, collector := .leaving (.error (.source cause)) }
  /-- Every sender is gone and the inbox is empty. -/
  | drain {state : Stream E}
      (hcollecting : state.collector = .collecting)
      (hwaiting : state.waiting[state.expected]? = none)
      (hinbox : state.inbox = [])
      (hworkers : ∀ worker ∈ state.workers, worker = .stopped) :
      Stream.Step state { state with collector := .leaving (.ok ()) }
  | leave {state : Stream E} {result : Except (SyncError E) Unit}
      (hleaving : state.collector = .leaving result) :
      Stream.Step state { state with inbox := [], collector := .finished result }

/-- The states a batch can be in. -/
def Stream.Reachable (fetchWorkers : ℕ) (index : Index) (state : Stream E) : Prop :=
  Relation.ReflTransGen (Stream.Step crates reader heights)
    (Stream.start fetchWorkers heights index) state

/-- One block after another, as a reader of the code would have it without workers: what the batch
is compared with. -/
def applyHeights : Index → List ℕ → Except (SyncError E) Index
  | index, [] => .ok index
  | index, height :: heights => do
      let pair ← SyncError.ofSource (reader.block height)
      let index ← applyBlock crates reader index height pair
      applyHeights index heights

end Urma.Wire
