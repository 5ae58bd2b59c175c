import Urma.Chain.Block
import Urma.Gateway.Cache
import Urma.Web.Host

/-!
# Fetching publications

`gateway_state::Gateway`: request threads that ask for publications, and one fetcher. A thread that
finds a publication neither in the cache nor in the store launches its fetch and waits for it. Cache
and flights have a lock each; the job queue is a bounded channel. One step is one step of a thread or
of the fetcher, and any that can take a step may be next. Between the send to the queue and the
insert into the flights, the thread holds the lock of the flights.
-/

namespace Urma.Gateway

open Chain

/-! ## State -/

/-- `gateway_state::Key`: a network and the root of a publication. -/
structure Key where
  suffix : Web.Suffix
  root : Txid
  deriving DecidableEq

/-- `gateway_state::Flight`. -/
inductive Flight where
  | queued
  | landed
  | failed (at_ : ℕ) (reason : String)
  deriving DecidableEq

/-- The settings that a fetch reads, and the sizes of the files of a publication. -/
structure Settings (V : Type) where
  cacheBytes : ℕ
  fetchWait : ℕ
  fetchRetry : ℕ
  fetchQueue : ℕ
  fileSizes : V → List ℕ

/-- Where a request thread stands, in `publication` or in `refetch`. -/
inductive Thread (V : Type) where
  | idle
  /-- Before `cached`. -/
  | looking (key : Key)
  /-- In the first `verify`. -/
  | verifying (key : Key)
  /-- Before `launch` of `await_fetch`. -/
  | awaiting (key : Key)
  /-- In `launch`, after `try_send`. `refetch` does not wait for the fetch. -/
  | sent (key : Key) (waits : Bool)
  /-- In `wait_timeout`. -/
  | waiting (key : Key) (started : ℕ)
  /-- In the second `verify`. -/
  | reverifying (key : Key)
  /-- Before `remember`. -/
  | remembering (key : Key) (verified : V)
  /-- Before `forget` of `refetch`. -/
  | forgetting (key : Key)
  /-- Before `launch` of `refetch`. -/
  | relaunching (key : Key)

/-- Where the fetcher stands in `fetch_loop`. -/
inductive Fetcher where
  | receiving
  | fetching (key : Key)
  /-- Before `land`. -/
  | landing (key : Key) (flight : Flight)

/-- What happens, of which only the statements read. -/
inductive Happening (V : Type) where
  /-- `Store::publication` returned a publication. -/
  | verified (key : Key) (verified : V)
  /-- A request returned a publication. -/
  | returned (key : Key) (verified : V)
  /-- A key was sent to the queue. -/
  | queued (key : Key) (time : ℕ)
  /-- A failed fetch landed. -/
  | failed (key : Key) (at_ : ℕ)

/-- The gateway. `lock` is the thread that holds the lock of the flights between two steps. -/
structure State (V : Type) where
  now : ℕ
  cache : Cache Key V
  flights : Key → Option Flight
  queue : List Key
  lock : Option ℕ
  threads : ℕ → Thread V
  fetcher : Fetcher
  log : List (Happening V)

variable {V : Type}

namespace State

/-- A new gateway. -/
def new : State V where
  now := 0
  cache := .new
  flights _ := none
  queue := []
  lock := none
  threads _ := .idle
  fetcher := .receiving
  log := []

/-- A thread goes on. -/
def goes (state : State V) (i : ℕ) (thread : Thread V) : State V :=
  { state with threads := Function.update state.threads i thread }

/-- Something happens. -/
def happens (state : State V) (happening : Happening V) : State V :=
  { state with log := state.log ++ [happening] }

/-- `flights.insert`. -/
def fly (state : State V) (key : Key) (flight : Flight) : State V :=
  { state with flights := Function.update state.flights key (some flight) }

end State

/-! ## Launching -/

/-- What `launch` does before it inserts the flight. -/
inductive Launch where
  /-- The fetch is underway. -/
  | joined
  /-- It failed, not long ago. -/
  | refused (reason : String)
  | full
  | sent
  deriving DecidableEq

/-- The check of the queue: `try_send`. -/
def trySend (settings : Settings V) (queue : List Key) : Launch :=
  if queue.length < settings.fetchQueue then .sent else .full

/-- `launch`, up to `try_send`. -/
def launch (settings : Settings V) (state : State V) (key : Key) : Launch :=
  match state.flights key with
  | some .queued => .joined
  | some (.failed at_ reason) =>
      if state.now - at_ < settings.fetchRetry then .refused reason
      else trySend settings state.queue
  | some .landed | none => trySend settings state.queue

/-- Where a thread goes that waits for a queued fetch since some time: it gives up when it has
waited long enough. -/
def waitFrom (settings : Settings V) (now : ℕ) (key : Key) (started : ℕ) : Thread V :=
  if settings.fetchWait ≤ now - started then .idle else .waiting key started

/-- Where a thread goes when it wakes and holds the lock: the loop of `await_fetch`. -/
def wake (settings : Settings V) (state : State V) (key : Key) (started : ℕ) : Thread V :=
  match state.flights key with
  | none | some (.failed _ _) => .idle
  | some .landed => .reverifying key
  | some .queued => waitFrom settings state.now key started

/-- The threads that launch: from `await_fetch`, or from `refetch`. -/
def Thread.launches (key : Key) (waits : Bool) : Thread V :=
  if waits then .awaiting key else .relaunching key

/-! ## Steps -/

/-- Whose step it is. -/
inductive Label where
  | clock
  | thread (i : ℕ)
  /-- A thread takes the lock in `launch`. -/
  | launch (i : ℕ)
  | fetcher
  deriving DecidableEq

/-- One step. -/
inductive Step (settings : Settings V) : Label → State V → State V → Prop where
  | tick {s} (now : ℕ) (h : s.now ≤ now) : Step settings .clock s { s with now }
  | request {s i} (key : Key) (h : s.threads i = .idle) :
      Step settings (.thread i) s (s.goes i (.looking key))
  | refetch {s i} (key : Key) (h : s.threads i = .idle) :
      Step settings (.thread i) s (s.goes i (.forgetting key))
  | hit {s i key verified} (h : s.threads i = .looking key)
      (hget : s.cache.get key = some verified) :
      Step settings (.thread i) s ((s.goes i .idle).happens (.returned key verified))
  | miss {s i key} (h : s.threads i = .looking key) (hget : s.cache.get key = none) :
      Step settings (.thread i) s (s.goes i (.verifying key))
  | verified {s i key} (verified : V) (h : s.threads i = .verifying key) :
      Step settings (.thread i) s
        ((s.goes i (.remembering key verified)).happens (.verified key verified))
  | unverified {s i key} (h : s.threads i = .verifying key) :
      Step settings (.thread i) s (s.goes i (.awaiting key))
  | remembered {s i key verified cache events} (h : s.threads i = .remembering key verified)
      (hsize : (footprint settings.fileSizes verified).isSome)
      (hput : s.cache.step settings.fileSizes settings.cacheBytes (.remember key verified) =
        .ok (cache, events)) :
      Step settings (.thread i) s
        (({ s with cache }.goes i .idle).happens (.returned key verified))
  | overflowed {s i key verified} (h : s.threads i = .remembering key verified)
      (hsize : footprint settings.fileSizes verified = none) :
      Step settings (.thread i) s (s.goes i .idle)
  | joined {s i key waits} (h : s.threads i = .launches key waits) (hlock : s.lock = none)
      (hlaunch : launch settings s key = .joined) :
      Step settings (.launch i) s
        (s.goes i (if waits then waitFrom settings s.now key s.now else .idle))
  | refused {s i key waits reason} (h : s.threads i = .launches key waits) (hlock : s.lock = none)
      (hlaunch : launch settings s key = .refused reason) :
      Step settings (.launch i) s (s.goes i .idle)
  | full {s i key waits} (h : s.threads i = .launches key waits) (hlock : s.lock = none)
      (hlaunch : launch settings s key = .full) :
      Step settings (.launch i) s (s.goes i .idle)
  | sent {s i key waits} (h : s.threads i = .launches key waits) (hlock : s.lock = none)
      (hlaunch : launch settings s key = .sent) :
      Step settings (.launch i) s
        (({ s with lock := some i, queue := s.queue ++ [key] }.goes i (.sent key waits)).happens
          (.queued key s.now))
  | inserted {s i key waits} (h : s.threads i = .sent key waits) (hlock : s.lock = some i) :
      Step settings (.thread i) s
        (({ s with lock := none }.fly key .queued).goes i
          (if waits then waitFrom settings s.now key s.now else .idle))
  | woke {s i key started} (h : s.threads i = .waiting key started) (hlock : s.lock = none) :
      Step settings (.thread i) s (s.goes i (wake settings s key started))
  | reverified {s i key} (verified : V) (h : s.threads i = .reverifying key) :
      Step settings (.thread i) s
        ((s.goes i (.remembering key verified)).happens (.verified key verified))
  | spoiled {s i key} (h : s.threads i = .reverifying key) :
      Step settings (.thread i) s (s.goes i .idle)
  | forgot {s i key cache} (h : s.threads i = .forgetting key)
      (hforget : s.cache.forget key = .ok cache) :
      Step settings (.thread i) s ({ s with cache }.goes i (.relaunching key))
  | received {s key rest} (h : s.fetcher = .receiving) (hqueue : s.queue = key :: rest) :
      Step settings .fetcher s { s with queue := rest, fetcher := .fetching key }
  | fetched {s key} (h : s.fetcher = .fetching key) :
      Step settings .fetcher s { s with fetcher := .landing key .landed }
  | unfetched {s key} (reason : String) (h : s.fetcher = .fetching key) :
      Step settings .fetcher s { s with fetcher := .landing key (.failed s.now reason) }
  | landed {s key} (h : s.fetcher = .landing key .landed) (hlock : s.lock = none) :
      Step settings .fetcher s ({ s with fetcher := .receiving }.fly key .landed)
  | crashed {s key at_ reason} (h : s.fetcher = .landing key (.failed at_ reason))
      (hlock : s.lock = none) :
      Step settings .fetcher s
        (({ s with fetcher := .receiving }.fly key (.failed at_ reason)).happens (.failed key at_))

/-- The states of a run. -/
inductive Reachable (settings : Settings V) : State V → Prop where
  | new : Reachable settings .new
  | step {s s'} (label : Label) (hreach : Reachable settings s) (h : Step settings label s s') :
      Reachable settings s'

end Urma.Gateway
