import Mathlib.Data.List.Induction
import Mathlib.Data.List.Nodup
import Urma.Gateway.Flights

/-!
# One fetch at a time

What is in the job queue or with the fetcher are the flights that are queued, each of them once. The
only moment at which the two differ is between the two inserts of a launch, when the launching thread
holds the lock of the flights, so that no one sees them differ.
-/

namespace Urma.Gateway

open Chain

section

variable {V : Type} {settings : Settings V} {s s' : State V}

/-! ## The invariants -/

/-- The key that the fetcher has. -/
def Fetcher.key? : Fetcher → Option Key
  | .receiving => none
  | .fetching key | .landing key _ => some key

/-- The keys that are in the job queue or being fetched. -/
def State.inFlight (state : State V) : List Key :=
  state.queue ++ state.fetcher.key?.toList

/-- A thread has sent the key, and has not inserted its flight yet. -/
def State.Launching (state : State V) (key : Key) : Prop :=
  ∃ i waits, state.threads i = .sent key waits

/-- A key is not queued before the retry interval has passed since it failed. -/
def Respects (retry : ℕ) (before after : Happening V) : Prop :=
  ∀ key at_ time, before = .failed key at_ → after = .queued key time → at_ + retry ≤ time

variable (settings s) in
/-- The invariant of the flights. -/
structure Single : Prop where
  distinct : s.inFlight.Nodup
  exact : ∀ key, key ∈ s.inFlight ↔ s.flights key = some .queued ∨ s.Launching key
  holder : ∀ i key waits, s.threads i = .sent key waits → s.lock = some i
  held : ∀ i, s.lock = some i → ∃ key waits, s.threads i = .sent key waits ∧
    s.flights key ≠ some .queued ∧
      ∀ at_, .failed key at_ ∈ s.log → at_ + settings.fetchRetry ≤ s.now
  past : ∀ key at_ reason, s.flights key = some (.failed at_ reason) → at_ ≤ s.now
  landing : ∀ key at_ reason, s.fetcher = .landing key (.failed at_ reason) → at_ ≤ s.now
  /-- A failure is still to be seen, or long ago. -/
  retry : ∀ key at_, .failed key at_ ∈ s.log →
    (∃ later reason, s.flights key = some (.failed later reason) ∧ at_ ≤ later) ∨
      at_ + settings.fetchRetry ≤ s.now
  retried : s.log.Pairwise (Respects settings.fetchRetry)

variable (settings s) in
/-- The invariant of what is returned. -/
structure Backed : Prop where
  books : s.cache.Books settings.cacheBytes
  cached : ∀ key verified, s.cache.get key = some verified → .verified key verified ∈ s.log
  remembering : ∀ i key verified, s.threads i = .remembering key verified →
    .verified key verified ∈ s.log
  returned : ∀ before after key verified, s.log = before ++ .returned key verified :: after →
    .verified key verified ∈ before

theorem single_new : Single settings (State.new : State V) where
  distinct := List.nodup_nil
  exact key := by
    constructor
    · intro h
      cases h
    · rintro (h | ⟨i, waits, h⟩)
      · cases h
      · cases h
  holder _ _ _ h := by cases h
  held _ h := by cases h
  past _ _ _ h := by cases h
  landing _ _ _ h := by cases h
  retry _ _ h := (List.not_mem_nil h).elim
  retried := .nil

theorem backed_new : Backed settings (State.new : State V) where
  books := Cache.books_new
  cached _ _ h := by cases h
  remembering _ _ _ h := by cases h
  returned before after key verified h := by
    have hlength := congrArg List.length h
    rw [List.length_append, List.length_cons] at hlength
    exact absurd hlength (Nat.ne_of_lt (Nat.succ_pos _))

/-! ## Steps that leave the flights alone -/

/-- Something that happens is neither a failure nor a key that is queued. -/
def Happening.Aside : Happening V → Prop
  | .verified _ _ | .returned _ _ => True
  | .queued _ _ | .failed _ _ => False

theorem Single.aside (h : Single settings s) (hqueue : s'.queue = s.queue)
    (hfetcher : s'.fetcher = s.fetcher) (hflights : s'.flights = s.flights)
    (hlock : s'.lock = s.lock) (hnow : s.now ≤ s'.now)
    (hthreads : ∀ i key waits, s'.threads i = .sent key waits ↔ s.threads i = .sent key waits)
    (hlog : ∃ extra : List (Happening V), s'.log = s.log ++ extra ∧ ∀ e ∈ extra, e.Aside) :
    Single settings s' := by
  obtain ⟨extra, hlog, haside⟩ := hlog
  have hfailed : ∀ key at_, Happening.failed key at_ ∈ s'.log → .failed key at_ ∈ s.log := by
    intro key at_ hmem
    rw [hlog] at hmem
    rcases List.mem_append.mp hmem with hmem | hmem
    · exact hmem
    · exact (haside _ hmem).elim
  have hin : s'.inFlight = s.inFlight := by rw [State.inFlight, hqueue, hfetcher]; rfl
  have hlaunching : ∀ key, s'.Launching key ↔ s.Launching key := by
    intro key
    constructor
    · rintro ⟨i, waits, hsent⟩
      exact ⟨i, waits, (hthreads i key waits).mp hsent⟩
    · rintro ⟨i, waits, hsent⟩
      exact ⟨i, waits, (hthreads i key waits).mpr hsent⟩
  exact
    { distinct := by rw [hin]; exact h.distinct
      exact := by
        intro key
        rw [hin, hflights, hlaunching]
        exact h.exact key
      holder := by
        intro i key waits hsent
        rw [hlock]
        exact h.holder i key waits ((hthreads i key waits).mp hsent)
      held := by
        intro i hi
        rw [hlock] at hi
        obtain ⟨key, waits, hsent, hnot, hretry⟩ := h.held i hi
        refine ⟨key, waits, (hthreads i key waits).mpr hsent, by rw [hflights]; exact hnot, ?_⟩
        intro at_ hmem
        exact Nat.le_trans (hretry at_ (hfailed key at_ hmem)) hnow
      past := by
        intro key at_ reason hflight
        rw [hflights] at hflight
        exact Nat.le_trans (h.past key at_ reason hflight) hnow
      landing := by
        intro key at_ reason hfetch
        rw [hfetcher] at hfetch
        exact Nat.le_trans (h.landing key at_ reason hfetch) hnow
      retry := by
        intro key at_ hmem
        rw [hflights]
        exact (h.retry key at_ (hfailed key at_ hmem)).imp_right fun hle => Nat.le_trans hle hnow
      retried := by
        rw [hlog, List.pairwise_append]
        refine ⟨h.retried, ?_, ?_⟩
        · apply List.pairwise_of_forall_mem_list
          rintro _ hmem _ _ key at_ time rfl
          exact (haside _ hmem).elim
        · rintro _ _ _ hmem key at_ time _ rfl
          exact (haside _ hmem).elim }

/-- A thread that is not launching, before and after, leaves the flights alone. -/
theorem goes_sent {i : ℕ} {thread : Thread V} (hbefore : ∀ key waits, s.threads i ≠ .sent key waits)
    (hafter : ∀ key waits, thread ≠ .sent key waits) (j : ℕ) (key : Key) (waits : Bool) :
    (s.goes i thread).threads j = .sent key waits ↔ s.threads j = .sent key waits := by
  show Function.update s.threads i thread j = _ ↔ _
  by_cases hj : j = i
  · rw [hj, Function.update_self]
    exact ⟨fun heq => absurd heq (hafter key waits), fun heq => absurd heq (hbefore key waits)⟩
  · rw [Function.update_of_ne hj]

theorem Single.goes (h : Single settings s) {i : ℕ} {thread : Thread V}
    (hbefore : ∀ key waits, s.threads i ≠ .sent key waits)
    (hafter : ∀ key waits, thread ≠ .sent key waits) : Single settings (s.goes i thread) :=
  h.aside rfl rfl rfl rfl (Nat.le_refl _) (goes_sent hbefore hafter)
    ⟨[], (List.append_nil _).symm, fun _ h => (List.not_mem_nil h).elim⟩

theorem Single.happens (h : Single settings s) {happening : Happening V} (haside : happening.Aside) :
    Single settings (s.happens happening) :=
  h.aside rfl rfl rfl rfl (Nat.le_refl _) (fun _ _ _ => Iff.rfl)
    ⟨[happening], rfl, fun _ hmem => List.mem_singleton.mp hmem ▸ haside⟩

/-! ## Steps of a flight -/

theorem launches_ne (key : Key) (waits : Bool) (other : Key) (waits' : Bool) :
    (Thread.launches key waits : Thread V) ≠ .sent other waits' := by
  cases waits <;> exact nofun

theorem trySend_eq_sent {queue : List Key} (h : trySend settings queue = .sent) :
    queue.length < settings.fetchQueue := by
  rw [trySend] at h
  split at h
  · next hroom => exact hroom
  · cases h

/-- What is sent is not queued, and has not failed for a while. -/
theorem launch_eq_sent (h : Single settings s) {key : Key} (hlaunch : launch settings s key = .sent) :
    s.flights key ≠ some .queued ∧
      ∀ at_, .failed key at_ ∈ s.log → at_ + settings.fetchRetry ≤ s.now := by
  rw [launch] at hlaunch
  have hretry := h.retry key
  cases hflight : s.flights key with
  | none =>
      refine ⟨nofun, ?_⟩
      intro at_ hmem
      rcases hretry at_ hmem with ⟨_, _, hsome, _⟩ | hle
      · rw [hflight] at hsome
        cases hsome
      · exact hle
  | some flight =>
      rw [hflight] at hlaunch
      cases flight with
      | queued => cases hlaunch
      | landed =>
          refine ⟨nofun, ?_⟩
          intro at_ hmem
          rcases hretry at_ hmem with ⟨_, _, hsome, _⟩ | hle
          · rw [hflight] at hsome
            cases hsome
          · exact hle
      | failed last reason =>
          refine ⟨nofun, ?_⟩
          intro at_ hmem
          dsimp only at hlaunch
          split at hlaunch
          · cases hlaunch
          · next hlong =>
            have hpast := h.past key last reason hflight
            rcases hretry at_ hmem with ⟨later, _, hsome, hle⟩ | hle
            · rw [hflight] at hsome
              cases hsome
              omega
            · exact hle

/-- **A key is sent** while nobody has it. -/
theorem Single.sent (h : Single settings s) {i : ℕ} {key : Key} {waits : Bool}
    (hthread : s.threads i = .launches key waits) (hlock : s.lock = none)
    (hlaunch : launch settings s key = .sent) :
    Single settings
      (({ s with lock := some i, queue := s.queue ++ [key] }.goes i (.sent key waits)).happens
        (.queued key s.now)) := by
  obtain ⟨hnot, hretry⟩ := launch_eq_sent h hlaunch
  have hnone : ∀ other, ¬ s.Launching other := by
    rintro other ⟨j, waits', hsent⟩
    have hholds := h.holder j other waits' hsent
    rw [hlock] at hholds
    cases hholds
  have hnew : key ∉ s.inFlight := by
    rw [h.exact key]
    rintro (hqueued | hlaunching)
    · exact hnot hqueued
    · exact hnone key hlaunching
  have hthreads : ∀ j other waits', Function.update s.threads i (.sent key waits) j =
      .sent other waits' → j = i ∧ other = key := by
    intro j other waits' hsent
    by_cases hj : j = i
    · rw [hj, Function.update_self] at hsent
      cases hsent
      exact ⟨hj, rfl⟩
    · rw [Function.update_of_ne hj] at hsent
      exact absurd ⟨j, waits', hsent⟩ (hnone other)
  have hperm : (s.queue ++ [key] ++ s.fetcher.key?.toList).Perm (key :: s.inFlight) := by
    rw [List.append_assoc]
    exact List.perm_middle
  have hlaunching : ∀ other, State.Launching (({ s with lock := some i, queue := s.queue ++ [key] }.goes
      i (.sent key waits)).happens (.queued key s.now)) other ↔ other = key := by
    intro other
    constructor
    · rintro ⟨j, waits', hsent⟩
      exact (hthreads j other waits' hsent).2
    · rintro rfl
      exact ⟨i, waits, Function.update_self _ _ _⟩
  exact
    { distinct := hperm.nodup_iff.mpr (List.nodup_cons.mpr ⟨hnew, h.distinct⟩)
      exact := by
        intro other
        rw [hlaunching]
        show other ∈ s.queue ++ [key] ++ s.fetcher.key?.toList ↔ _
        rw [hperm.mem_iff, List.mem_cons, h.exact, or_comm]
        exact or_congr_left ⟨fun hor => hor.resolve_right (hnone other), .inl⟩
      holder := by
        intro j other waits' hsent
        rw [(hthreads j other waits' hsent).1]
        rfl
      held := by
        intro j hj
        cases hj
        refine ⟨key, waits, Function.update_self _ _ _, hnot, ?_⟩
        intro at_ hmem
        apply hretry
        rcases List.mem_append.mp hmem with hmem | hmem
        · exact hmem
        · cases List.mem_singleton.mp hmem
      past := h.past
      landing := h.landing
      retry := by
        intro other at_ hmem
        apply h.retry
        rcases List.mem_append.mp hmem with hmem | hmem
        · exact hmem
        · cases List.mem_singleton.mp hmem
      retried := by
        show (s.log ++ [Happening.queued key s.now]).Pairwise _
        rw [List.pairwise_append]
        refine ⟨h.retried, List.pairwise_singleton _ _, ?_⟩
        intro before hbefore after hafter other at_ time hfailed hqueued
        rw [List.mem_singleton.mp hafter] at hqueued
        cases hqueued
        rw [hfailed] at hbefore
        exact hretry at_ hbefore }

/-- **The flight of a key that was sent is inserted.** -/
theorem Single.inserted (h : Single settings s) {i : ℕ} {key : Key} {waits : Bool}
    {thread : Thread V} (hthread : s.threads i = .sent key waits)
    (hlock : s.lock = some i) (hafter : ∀ other waits, thread ≠ .sent other waits) :
    Single settings (({ s with lock := none }.fly key .queued).goes i thread) := by
  have honly : ∀ j other waits', s.threads j = .sent other waits' → j = i ∧ other = key := by
    intro j other waits' hsent
    have hholds := h.holder j other waits' hsent
    rw [hlock] at hholds
    cases hholds
    rw [hthread] at hsent
    cases hsent
    exact ⟨rfl, rfl⟩
  have hnone : ∀ j other waits', Function.update s.threads i thread j ≠ .sent other waits' := by
    intro j other waits' hsent
    by_cases hj : j = i
    · rw [hj, Function.update_self] at hsent
      exact hafter other waits' hsent
    · rw [Function.update_of_ne hj] at hsent
      exact hj (honly j other waits' hsent).1
  obtain ⟨_, _, hsame, _, hretry⟩ := h.held i hlock
  rw [hthread] at hsame
  cases hsame
  exact
    { distinct := h.distinct
      exact := by
        intro other
        show other ∈ s.inFlight ↔ Function.update s.flights key (some .queued) other = _ ∨ _
        rw [h.exact]
        constructor
        · rintro (hqueued | ⟨j, waits', hsent⟩)
          · left
            by_cases heq : other = key
            · rw [heq, Function.update_self]
            · rw [Function.update_of_ne heq]
              exact hqueued
          · left
            rw [(honly j other waits' hsent).2, Function.update_self]
        · rintro (hqueued | ⟨j, waits', hsent⟩)
          · by_cases heq : other = key
            · exact .inr (heq ▸ ⟨i, waits, hthread⟩)
            · rw [Function.update_of_ne heq] at hqueued
              exact .inl hqueued
          · exact absurd hsent (hnone j other waits')
      holder := fun j other waits' hsent => absurd hsent (hnone j other waits')
      held := fun _ hheld => nomatch hheld
      past := by
        intro other at_ reason hflight
        by_cases heq : other = key
        · rw [heq] at hflight
          change Function.update s.flights key (some .queued) key = _ at hflight
          rw [Function.update_self] at hflight
          cases hflight
        · change Function.update s.flights key (some .queued) other = _ at hflight
          rw [Function.update_of_ne heq] at hflight
          exact h.past other at_ reason hflight
      landing := h.landing
      retry := by
        intro other at_ hmem
        by_cases heq : other = key
        · rw [heq] at hmem
          exact .inr (hretry at_ hmem)
        · show (∃ later reason, Function.update s.flights key (some .queued) other = _ ∧ _) ∨ _
          rw [Function.update_of_ne heq]
          exact h.retry other at_ hmem
      retried := h.retried }

/-- The fetcher goes on with the same keys in flight. -/
theorem Single.fetcher (h : Single settings s) {queue : List Key} {fetcher : Fetcher}
    (hperm : (queue ++ fetcher.key?.toList).Perm s.inFlight)
    (hlanding : ∀ key at_ reason, fetcher = .landing key (.failed at_ reason) → at_ ≤ s.now) :
    Single settings { s with queue, fetcher } where
  distinct := hperm.nodup_iff.mpr h.distinct
  exact key := by
    rw [← show s.Launching key ↔ State.Launching { s with queue, fetcher } key from Iff.rfl,
      ← h.exact key]
    exact hperm.mem_iff
  holder := h.holder
  held := h.held
  past := h.past
  landing := hlanding
  retry := h.retry
  retried := h.retried

/-- **A fetch lands.** -/
theorem Single.land (h : Single settings s) {key : Key} {flight : Flight}
    (hfetcher : s.fetcher = .landing key flight) (hlock : s.lock = none)
    (hflight : flight ≠ .queued) {extra : List (Happening V)}
    (hextra : (∃ at_ reason, flight = .failed at_ reason ∧ extra = [.failed key at_]) ∨ extra = []) :
    Single settings
      { ({ s with fetcher := .receiving }.fly key flight) with log := s.log ++ extra } := by
  have hnone : ∀ other, ¬ s.Launching other := by
    rintro other ⟨j, waits', hsent⟩
    have hholds := h.holder j other waits' hsent
    rw [hlock] at hholds
    cases hholds
  have hin : s.inFlight = s.queue ++ [key] := by rw [State.inFlight, hfetcher]; rfl
  have hdistinct := h.distinct
  rw [hin, List.nodup_append] at hdistinct
  have hnot : key ∉ s.queue := fun hmem =>
    hdistinct.2.2 key hmem key (List.mem_singleton_self key) rfl
  have hqueued : s.flights key = some .queued := by
    apply ((h.exact key).mp _).resolve_right (hnone key)
    rw [hin]
    exact List.mem_append_right _ (List.mem_singleton_self key)
  have hold : ∀ at_, .failed key at_ ∈ s.log → at_ + settings.fetchRetry ≤ s.now := by
    intro at_ hmem
    rcases h.retry key at_ hmem with ⟨_, _, hsome, _⟩ | hle
    · rw [hqueued] at hsome
      cases hsome
    · exact hle
  exact
    { distinct := by
        show (s.queue ++ []).Nodup
        rw [List.append_nil]
        exact hdistinct.1
      exact := by
        intro other
        show other ∈ s.queue ++ [] ↔ Function.update s.flights key (some flight) other = _ ∨
          s.Launching other
        rw [List.append_nil]
        by_cases heq : other = key
        · rw [heq, Function.update_self]
          constructor
          · exact fun hmem => absurd hmem hnot
          · rintro (hsome | hlaunching)
            · exact absurd (Option.some.inj hsome) hflight
            · exact absurd hlaunching (hnone key)
        · rw [Function.update_of_ne heq, ← h.exact, hin, List.mem_append, List.mem_singleton]
          exact ⟨.inl, fun hor => hor.resolve_right heq⟩
      holder := h.holder
      held := by
        intro i hi
        change s.lock = some i at hi
        rw [hlock] at hi
        cases hi
      past := by
        intro other at_ reason hsome
        change Function.update s.flights key (some flight) other = _ at hsome
        by_cases heq : other = key
        · rw [heq, Function.update_self] at hsome
          exact h.landing key at_ reason (by rw [hfetcher, Option.some.inj hsome])
        · rw [Function.update_of_ne heq] at hsome
          exact h.past other at_ reason hsome
      landing := fun _ _ _ hfetch => nomatch hfetch
      retry := by
        intro other at_ hmem
        change Happening.failed other at_ ∈ s.log ++ extra at hmem
        show (∃ later reason, Function.update s.flights key (some flight) other = _ ∧ _) ∨ _
        by_cases heq : other = key
        · rw [heq] at hmem ⊢
          rw [Function.update_self]
          rcases List.mem_append.mp hmem with hmem | hmem
          · exact .inr (hold at_ hmem)
          · rcases hextra with ⟨last, reason, rfl, rfl⟩ | rfl
            · cases List.mem_singleton.mp hmem
              exact .inl ⟨at_, reason, rfl, Nat.le_refl _⟩
            · cases hmem
        · rw [Function.update_of_ne heq]
          apply h.retry
          rcases List.mem_append.mp hmem with hmem | hmem
          · exact hmem
          · rcases hextra with ⟨_, _, _, rfl⟩ | rfl
            · cases List.mem_singleton.mp hmem
              exact absurd rfl heq
            · cases hmem
      retried := by
        show (s.log ++ extra).Pairwise _
        rw [List.pairwise_append]
        rcases hextra with ⟨_, _, _, rfl⟩ | rfl
        · refine ⟨h.retried, List.pairwise_singleton _ _, ?_⟩
          intro before _ after hafter other at_ time _ hnext
          rw [List.mem_singleton.mp hafter] at hnext
          cases hnext
        · exact ⟨h.retried, .nil, fun _ _ _ hafter => (List.not_mem_nil hafter).elim⟩ }

/-! ## What is returned -/

/-- Everything that a cache holds has been verified. -/
def Cached (log : List (Happening V)) (cache : Cache Key V) : Prop :=
  ∀ key verified, cache.get key = some verified → .verified key verified ∈ log

/-- A log after which more has happened. -/
theorem returned_append {log : List (Happening V)} {happening : Happening V}
    (h : ∀ before after key verified, log = before ++ .returned key verified :: after →
      .verified key verified ∈ before)
    (hlast : ∀ key verified, happening = .returned key verified → .verified key verified ∈ log)
    (before after : List (Happening V)) (key : Key) (verified : V)
    (hsplit : log ++ [happening] = before ++ .returned key verified :: after) :
    .verified key verified ∈ before := by
  cases after using List.reverseRecOn with
  | nil =>
      obtain ⟨hlog, hhappening⟩ := List.append_inj' hsplit rfl
      rw [← hlog]
      exact hlast key verified (List.singleton_inj.mp hhappening)
  | append_singleton after last =>
      rw [← List.cons_append, ← List.append_assoc] at hsplit
      exact h before after key verified (List.append_inj' hsplit rfl).1

/-- The lock, the flights, the queue, the fetcher and the clock change. -/
theorem Backed.same (h : Backed settings s) (hcache : s'.cache = s.cache) (hlog : s'.log = s.log)
    (hthreads : s'.threads = s.threads) : Backed settings s' where
  books := hcache ▸ h.books
  cached := by
    rw [hcache, hlog]
    exact h.cached
  remembering := by
    rw [hthreads, hlog]
    exact h.remembering
  returned := by
    rw [hlog]
    exact h.returned

/-- A thread goes on. -/
theorem Backed.goes (h : Backed settings s) {i : ℕ} {thread : Thread V}
    (hafter : ∀ key verified, thread = .remembering key verified →
      .verified key verified ∈ s.log) : Backed settings (s.goes i thread) where
  books := h.books
  cached := h.cached
  remembering j key verified hthread := by
    change Function.update s.threads i thread j = _ at hthread
    by_cases hj : j = i
    · rw [hj, Function.update_self] at hthread
      exact hafter key verified hthread
    · rw [Function.update_of_ne hj] at hthread
      exact h.remembering j key verified hthread
  returned := h.returned

/-- Something more happens. -/
theorem Backed.happens (h : Backed settings s) {happening : Happening V}
    (hlast : ∀ key verified, happening = .returned key verified →
      .verified key verified ∈ s.log) : Backed settings (s.happens happening) where
  books := h.books
  cached key verified hget := List.mem_append_left _ (h.cached key verified hget)
  remembering i key verified hthread :=
    List.mem_append_left _ (h.remembering i key verified hthread)
  returned := returned_append h.returned hlast

/-- A publication is verified, and the thread will remember it. -/
theorem Backed.verify (h : Backed settings s) (i : ℕ) (key : Key) (verified : V) :
    Backed settings ((s.goes i (.remembering key verified)).happens (.verified key verified)) := by
  have hhappened : Backed settings (s.happens (.verified key verified)) := h.happens nofun
  refine Backed.goes hhappened ?_
  intro other held heq
  cases heq
  exact List.mem_append_right _ (List.mem_singleton_self _)

/-- The cache changes. -/
theorem Backed.cache (h : Backed settings s) {cache : Cache Key V}
    (hbooks : cache.Books settings.cacheBytes) (hcached : Cached s.log cache) :
    Backed settings { s with cache } where
  books := hbooks
  cached := hcached
  remembering := h.remembering
  returned := h.returned

/-- **What is remembered** has been verified. -/
theorem Backed.put (h : Backed settings s) {key : Key} {verified : V} {cache : Cache Key V}
    {events : List (Event Key V)} (hverified : .verified key verified ∈ s.log)
    (hput : s.cache.step settings.fileSizes settings.cacheBytes (.remember key verified) =
      .ok (cache, events)) : Backed settings { s with cache } := by
  rw [Cache.step] at hput
  split at hput
  · cases hput
    exact h
  · next size _ =>
    split at hput
    · next hsize =>
      rcases h.books.put hsize key verified with ⟨cache', evicted, hok, hbooks, _, _, hentries⟩ |
        ⟨herror, _⟩
      · rw [hok] at hput
        cases hput
        apply h.cache hbooks
        intro other held hget
        rw [Cache.get, hentries] at hget
        split at hget
        · next heq =>
          cases hget
          exact heq ▸ hverified
        · split at hget
          · cases hget
          · exact h.cached other held hget
      · rw [herror] at hput
        cases hput
    · cases hput
      exact h

/-- What is left when a key is forgotten. -/
theorem Backed.forget (h : Backed settings s) {key : Key} {cache : Cache Key V}
    (hforget : s.cache.forget key = .ok cache) : Backed settings { s with cache } := by
  obtain ⟨cache', hok, hbooks, _, hentries, _⟩ := h.books.forget key
  rw [hforget] at hok
  cases hok
  apply h.cache hbooks
  intro other held hget
  rw [Cache.get, hentries] at hget
  by_cases heq : other = key
  · rw [heq, Function.update_self] at hget
    cases hget
  · rw [Function.update_of_ne heq] at hget
    exact h.cached other held hget

/-! ## One step -/

theorem waitFrom_cases (settings : Settings V) (now : ℕ) (key : Key) (started : ℕ) :
    waitFrom settings now key started = .idle ∨
      waitFrom settings now key started = .waiting key started := by
  rw [waitFrom]
  split
  · exact .inl rfl
  · exact .inr rfl

theorem wake_cases (settings : Settings V) (s : State V) (key : Key) (started : ℕ) :
    wake settings s key started = .idle ∨ wake settings s key started = .reverifying key ∨
      wake settings s key started = .waiting key started := by
  rw [wake]
  split
  · exact .inl rfl
  · exact .inl rfl
  · exact .inr (.inl rfl)
  · exact (waitFrom_cases settings s.now key started).imp_right .inr

/-- A thread after its launch neither launches nor remembers. -/
theorem launched_cases (settings : Settings V) (now : ℕ) (key : Key) (waits : Bool) :
    (if waits then waitFrom settings now key now else .idle) = .idle ∨
      (if waits then waitFrom settings now key now else .idle) = .waiting key now := by
  cases waits with
  | false => exact .inl rfl
  | true => exact waitFrom_cases settings now key now

/-- **One step** keeps the invariant of the flights. -/
theorem Single.step {label : Label} (h : Single settings s) (hstep : Step settings label s s') :
    Single settings s' := by
  cases hstep with
  | tick now hnow =>
      exact h.aside rfl rfl rfl rfl hnow (fun _ _ _ => Iff.rfl)
        ⟨[], (List.append_nil _).symm, fun _ hmem => (List.not_mem_nil hmem).elim⟩
  | request key hi => exact h.goes (by rw [hi]; exact nofun) (by exact nofun)
  | refetch key hi => exact h.goes (by rw [hi]; exact nofun) (by exact nofun)
  | hit hi => exact Single.happens (h.goes (by rw [hi]; exact nofun) (by exact nofun)) (by trivial)
  | miss hi => exact h.goes (by rw [hi]; exact nofun) (by exact nofun)
  | verified verified hi => exact Single.happens (h.goes (by rw [hi]; exact nofun) (by exact nofun)) (by trivial)
  | unverified hi => exact h.goes (by rw [hi]; exact nofun) (by exact nofun)
  | remembered hi =>
      refine Single.happens ?_ (by trivial)
      exact h.aside rfl rfl rfl rfl (Nat.le_refl _) (goes_sent (by rw [hi]; exact nofun) (by exact nofun))
        ⟨[], (List.append_nil _).symm, fun _ hmem => (List.not_mem_nil hmem).elim⟩
  | overflowed hi => exact h.goes (by rw [hi]; exact nofun) (by exact nofun)
  | @joined _ i key waits hi =>
      apply h.goes (by rw [hi]; exact launches_ne key waits)
      rcases launched_cases settings s.now key waits with hnext | hnext <;>
      · rw [hnext]
        exact nofun
  | refused hi => exact h.goes (by rw [hi]; exact launches_ne _ _) (by exact nofun)
  | full hi => exact h.goes (by rw [hi]; exact launches_ne _ _) (by exact nofun)
  | sent hi hlock hlaunch => exact h.sent hi hlock hlaunch
  | @inserted _ i key waits hi hlock =>
      apply h.inserted hi hlock
      rcases launched_cases settings s.now key waits with hnext | hnext <;>
      · rw [hnext]
        exact nofun
  | @woke _ i key started hi =>
      refine h.goes (by rw [hi]; exact nofun) ?_
      rcases wake_cases settings s key started with hnext | hnext | hnext <;>
      · rw [hnext]
        exact nofun
  | reverified verified hi => exact Single.happens (h.goes (by rw [hi]; exact nofun) (by exact nofun)) (by trivial)
  | spoiled hi => exact h.goes (by rw [hi]; exact nofun) (by exact nofun)
  | forgot hi =>
      exact h.aside rfl rfl rfl rfl (Nat.le_refl _) (goes_sent (by rw [hi]; exact nofun) (by exact nofun))
        ⟨[], (List.append_nil _).symm, fun _ hmem => (List.not_mem_nil hmem).elim⟩
  | @received _ key rest hreceiving hqueue =>
      apply h.fetcher _ (by exact nofun)
      rw [State.inFlight, hqueue, hreceiving]
      show (rest ++ [key]).Perm (key :: rest ++ [])
      rw [List.append_nil]
      exact List.perm_append_singleton key rest
  | fetched hfetching =>
      apply h.fetcher _ (by exact nofun)
      rw [State.inFlight, hfetching]
      exact List.Perm.refl _
  | unfetched reason hfetching =>
      apply h.fetcher
      · rw [State.inFlight, hfetching]
        exact List.Perm.refl _
      · intro key at_ reason heq
        cases heq
        exact Nat.le_refl _
  | landed hlanding hlock =>
      have hland := h.land hlanding hlock nofun (.inr rfl)
      rwa [List.append_nil] at hland
  | crashed hlanding hlock => exact h.land hlanding hlock nofun (.inl ⟨_, _, rfl, rfl⟩)

/-- **One step** keeps the invariant of what is returned. -/
theorem Backed.step {label : Label} (h : Backed settings s) (hstep : Step settings label s s') :
    Backed settings s' := by
  cases hstep with
  | tick now hnow => exact h.same rfl rfl rfl
  | request key hi => exact Backed.goes h (by exact nofun)
  | refetch key hi => exact Backed.goes h (by exact nofun)
  | @hit _ i key verified hi hget =>
      refine Backed.happens (Backed.goes h (by exact nofun)) ?_
      intro other held heq
      cases heq
      exact h.cached key verified hget
  | miss hi => exact Backed.goes h (by exact nofun)
  | @verified _ i key verified hi => exact h.verify i key verified
  | unverified hi => exact Backed.goes h (by exact nofun)
  | @remembered _ i key verified cache events hi hsize hput =>
      have hverified := h.remembering i key verified hi
      refine Backed.happens (Backed.goes (h.put hverified hput) (by exact nofun)) ?_
      intro other held heq
      cases heq
      exact hverified
  | overflowed hi => exact Backed.goes h (by exact nofun)
  | @joined _ i key waits hi =>
      refine Backed.goes h ?_
      rcases launched_cases settings s.now key waits with hnext | hnext <;>
      · rw [hnext]
        exact nofun
  | refused hi => exact Backed.goes h (by exact nofun)
  | full hi => exact Backed.goes h (by exact nofun)
  | sent hi hlock hlaunch =>
      refine Backed.happens (Backed.goes ?_ ?_) ?_
      · exact h.same rfl rfl rfl
      · exact nofun
      · exact nofun
  | @inserted _ i key waits hi hlock =>
      have hsame : Backed settings ({ s with lock := none }.fly key .queued) := h.same rfl rfl rfl
      refine hsame.goes ?_
      rcases launched_cases settings s.now key waits with hnext | hnext <;>
      · rw [hnext]
        exact nofun
  | @woke _ i key started hi =>
      refine Backed.goes h ?_
      rcases wake_cases settings s key started with hnext | hnext | hnext <;>
      · rw [hnext]
        exact nofun
  | @reverified _ i key verified hi => exact h.verify i key verified
  | spoiled hi => exact Backed.goes h (by exact nofun)
  | forgot hi hforget => exact Backed.goes (h.forget hforget) (by exact nofun)
  | received hreceiving hqueue => exact h.same rfl rfl rfl
  | fetched hfetching => exact h.same rfl rfl rfl
  | unfetched reason hfetching => exact h.same rfl rfl rfl
  | landed hlanding hlock => exact h.same rfl rfl rfl
  | crashed hlanding hlock =>
      refine Backed.happens ?_ ?_
      · exact h.same rfl rfl rfl
      · exact nofun

/-! ## Runs -/

/-- **Every run** keeps the invariants. -/
theorem Reachable.invariants (h : Reachable settings s) : Single settings s ∧ Backed settings s := by
  induction h with
  | new => exact ⟨single_new, backed_new⟩
  | step label hreach hstep ih => exact ⟨ih.1.step hstep, ih.2.step hstep⟩

/-- A launch that finds the queue full changes neither the flights nor the queue. -/
theorem Step.launch_full {i : ℕ} (hfull : settings.fetchQueue ≤ s.queue.length)
    (hstep : Step settings (.launch i) s s') :
    s'.flights = s.flights ∧ s'.queue = s.queue ∧ s'.lock = none := by
  cases hstep with
  | joined hi hlock => exact ⟨rfl, rfl, hlock⟩
  | refused hi hlock => exact ⟨rfl, rfl, hlock⟩
  | full hi hlock => exact ⟨rfl, rfl, hlock⟩
  | sent hi hlock hlaunch =>
      -- only a queue with room is sent to
      have hroom : s.queue.length < settings.fetchQueue := by
        rw [launch] at hlaunch
        split at hlaunch
        · cases hlaunch
        · split at hlaunch
          · cases hlaunch
          · exact trySend_eq_sent hlaunch
        · exact trySend_eq_sent hlaunch
        · exact trySend_eq_sent hlaunch
      exact absurd hfull (Nat.not_le_of_lt hroom)

variable (settings s) in
/-- What the fetches of a gateway keep. Who takes the lock of the flights finds in them what is in
flight; while a launch holds it, the key that it has just sent is the only other one. -/
structure SingleFlight : Prop where
  distinct : s.inFlight.Nodup
  queued : s.lock = none → ∀ key, key ∈ s.inFlight ↔ s.flights key = some .queued
  launching : ∀ i, s.lock = some i → ∃ key waits, s.threads i = .sent key waits ∧
    s.flights key ≠ some .queued ∧
      ∀ other, other ∈ s.inFlight ↔ s.flights other = some .queued ∨ other = key
  retried : s.log.Pairwise (Respects settings.fetchRetry)
  full : ∀ i s', settings.fetchQueue ≤ s.queue.length → Step settings (.launch i) s s' →
    s'.flights = s.flights ∧ s'.queue = s.queue ∧ s'.lock = none
  returned : ∀ before after key verified, s.log = before ++ .returned key verified :: after →
    .verified key verified ∈ before

/-- **Fetches are single-flight** in every run of requests, refetches and the fetcher. -/
theorem fetches_are_single_flight (settings : Settings V) {s : State V}
    (h : Reachable settings s) : SingleFlight settings s := by
  obtain ⟨hsingle, hbacked⟩ := h.invariants
  exact
    { distinct := hsingle.distinct
      queued := by
        intro hlock key
        rw [hsingle.exact key]
        constructor
        · rintro (hqueued | ⟨i, waits, hsent⟩)
          · exact hqueued
          · have hholds := hsingle.holder i key waits hsent
            rw [hlock] at hholds
            cases hholds
        · exact .inl
      launching := by
        intro i hlock
        obtain ⟨key, waits, hsent, hnot, _⟩ := hsingle.held i hlock
        refine ⟨key, waits, hsent, hnot, ?_⟩
        intro other
        rw [hsingle.exact other]
        constructor
        · rintro (hqueued | ⟨j, waits', hother⟩)
          · exact .inl hqueued
          · -- who launches holds the lock
            have hholds := hsingle.holder j other waits' hother
            rw [hlock] at hholds
            cases hholds
            rw [hsent] at hother
            cases hother
            exact .inr rfl
        · rintro (hqueued | rfl)
          · exact .inl hqueued
          · exact .inr ⟨i, waits, hsent⟩
      retried := hsingle.retried
      full := fun _ _ hfull hstep => hstep.launch_full hfull
      returned := hbacked.returned }

end

namespace Sample

def settings : Settings Unit where
  cacheBytes := 10
  fetchWait := 5
  fetchRetry := 60
  fetchQueue := 1
  fileSizes _ := [3]

def key : Key where
  suffix := .btc
  root := ⟨.replicate 32 7⟩

end Sample

/-- A request whose fetch is underway while another one joins it. -/
theorem fetches_are_single_flight_sample :
    ∃ s, s.inFlight = [Sample.key] ∧ s.threads 1 = .waiting Sample.key 0 ∧
      SingleFlight Sample.settings s := by
  have hnew : Reachable Sample.settings .new := .new
  have hrun := hnew
    |>.step _ (.request (i := 0) Sample.key rfl)
    |>.step _ (.miss (i := 0) rfl rfl)
    |>.step _ (.unverified (i := 0) rfl)
    |>.step _ (@Step.sent _ Sample.settings _ 0 Sample.key true rfl rfl rfl)
    |>.step _ (.received rfl rfl)
    |>.step _ (.inserted (i := 0) rfl rfl)
    |>.step _ (.request (i := 1) Sample.key rfl)
    |>.step _ (.miss (i := 1) rfl rfl)
    |>.step _ (.unverified (i := 1) rfl)
    |>.step _ (@Step.joined _ Sample.settings _ 1 Sample.key true rfl rfl rfl)
  exact ⟨_, rfl, rfl, fetches_are_single_flight _ hrun⟩

end Urma.Gateway
