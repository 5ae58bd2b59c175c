import Mathlib.Data.List.Sort
import Urma.Git.ScanPool

/-!
# A scan side by side is the scan in order

While nothing has failed, what the scanners hold, what the channel carries and what was received
make up the objects drawn so far, and the findings counted so far are theirs. So a scan that ends
without an error has scanned every object once, and its report, sorted by index, is the one the
objects give one after another. Conversely, where the scan in order finds no fault, no scanner does.
-/

namespace Urma.Git

open Lib.WorkQueue

variable {repository : Repository} {limit : ℕ}

/-! ## One after another -/

theorem countFindings_eq_ok {count total : ℕ} {findings : List Finding} :
    countFindings limit count findings = .ok total ↔
      (findings.length = 0 ∨ count + findings.length ≤ limit) ∧
        total = count + findings.length := by
  induction findings generalizing count with
  | nil => simp [countFindings, eq_comm]
  | cons finding findings ih =>
      rw [countFindings, List.length_cons]
      split
      · next hlimit =>
          constructor
          · nofun
          · rintro ⟨h, _⟩
            omega
      · next hlimit =>
          rw [ih]
          omega

theorem addBytes_eq_ok {bytes more total : ℕ} :
    addBytes bytes more = .ok total ↔ bytes + more ≤ u64Max ∧ total = bytes + more := by
  rw [addBytes]
  split
  · next sum hsum =>
      obtain ⟨hle, rfl⟩ := checkedAdd_eq_some.mp hsum
      simp [hle, eq_comm]
  · next hnone =>
      constructor
      · nofun
      · rintro ⟨hle, _⟩
        rw [checkedAdd_eq_some.mpr ⟨hle, rfl⟩] at hnone
        cases hnone

/-- How many findings the scan of an object makes. -/
def Repository.findingCount (repository : Repository) (object : Object) : ℕ :=
  (repository.scanOf object).1.length

/-- The report of an object, when its scan does not fail. -/
def Repository.partOf (repository : Repository) (object : Object) : ScanReport :=
  match (repository.scanOf object).2 with
  | .ok part => part
  | .error _ => ⟨"", "", false, 0, 0, []⟩

/-- The scan of an object does not fail. -/
def Repository.Scans (repository : Repository) (object : Object) : Prop :=
  (repository.scanOf object).2 = .ok (repository.partOf object)

theorem Repository.scans_of_eq_ok {object : Object} {part : ScanReport}
    (h : (repository.scanOf object).2 = .ok part) :
    repository.Scans object ∧ repository.partOf object = part := by
  have hpart : repository.partOf object = part := by rw [partOf, h]
  exact ⟨by rw [Scans, h, hpart], hpart⟩

/-- The part of an object is of that object, with the findings of its scan. -/
theorem Repository.Scans.part {object : Object} (h : repository.Scans object) :
    (repository.partOf object).objects = 1 ∧
      (repository.partOf object).findings = (repository.scanOf object).1 := by
  obtain ⟨hobjects, hfindings, _⟩ := scanObject_eq_ok
    (show repository.scanOf object = ((repository.scanOf object).1, .ok _) from
      Prod.ext rfl h)
  exact ⟨hobjects, hfindings⟩

/-- The report that all parts give, in the order of the objects. -/
def Repository.total (repository : Repository) (objects : List Object) (report : ScanReport) :
    ScanReport :=
  { report with
    objects := report.objects + objects.length
    bytes := report.bytes + (objects.map fun object => (repository.partOf object).bytes).sum
    findings := report.findings ++ objects.flatMap fun object =>
      (repository.partOf object).findings }

/-- Every object scans, the findings stay within the limit and the bytes can be counted. -/
structure Repository.Passes (repository : Repository) (limit : ℕ) (objects : List Object)
    (report : ScanReport) (count : ℕ) : Prop where
  scans : ∀ object ∈ objects, repository.Scans object
  findings : (objects.map repository.findingCount).sum = 0 ∨
    count + (objects.map repository.findingCount).sum ≤ limit
  bytes : objects = [] ∨
    report.bytes + (objects.map fun object => (repository.partOf object).bytes).sum ≤ u64Max

theorem scanNext_eq_ok {object : Object} {state final : ScanReport × ℕ} :
    scanNext repository limit state object = .ok final ↔
      repository.Passes limit [object] state.1 state.2 ∧
        final = (repository.total [object] state.1, state.2 + repository.findingCount object) := by
  simp only [scanNext, Except.bind_eq_ok, countFindings_eq_ok, addBytes_eq_ok, Except.ok.injEq]
  constructor
  · rintro ⟨count, ⟨hfindings, rfl⟩, part, hpart, bytes, ⟨hbytes, rfl⟩, rfl⟩
    obtain ⟨hscans, rfl⟩ := Repository.scans_of_eq_ok hpart
    refine ⟨⟨?_, ?_, Or.inr ?_⟩, ?_⟩
    · simpa using hscans
    · simpa [Repository.findingCount] using hfindings
    · simpa using hbytes
    · simp [Repository.total, Repository.findingCount, hscans.part.1]
  · rintro ⟨⟨hscans, hfindings, hbytes⟩, rfl⟩
    have hscans := hscans object List.mem_cons_self
    refine ⟨_, ⟨?_, rfl⟩, _, hscans, _, ⟨?_, rfl⟩, ?_⟩
    · simpa [Repository.findingCount] using hfindings
    · simpa using hbytes
    · simp [Repository.total, Repository.findingCount, hscans.part.1]

theorem Repository.total_cons (object : Object) (objects : List Object) (report : ScanReport) :
    repository.total (object :: objects) report =
      repository.total objects (repository.total [object] report) := by
  simp only [total, List.length_cons, List.length_nil, List.map_cons, List.map_nil, List.sum_cons,
    List.sum_nil, List.flatMap_cons, List.flatMap_nil, List.append_nil, List.append_assoc,
    Nat.add_zero, ScanReport.mk.injEq, true_and, and_true]
  omega

/-- Objects pass when the first does, and the others do after it. -/
theorem Repository.passes_cons {object : Object} {objects : List Object} {report : ScanReport}
    {count : ℕ} :
    repository.Passes limit (object :: objects) report count ↔
      repository.Passes limit [object] report count ∧
        repository.Passes limit objects (repository.total [object] report)
          (count + repository.findingCount object) := by
  have hbytes : (repository.total [object] report).bytes =
      report.bytes + (repository.partOf object).bytes := by
    simp [total]
  constructor
  · rintro ⟨hscans, hfindings, hfits⟩
    simp only [List.map_cons, List.sum_cons, reduceCtorEq, false_or] at hfindings hfits
    refine ⟨⟨?_, ?_, Or.inr ?_⟩, ⟨fun other hother => hscans other (List.mem_cons_of_mem _ hother),
      ?_, Or.inr ?_⟩⟩
    · rintro other (_ | ⟨_, ⟨⟩⟩)
      exact hscans object List.mem_cons_self
    · simp only [List.map_cons, List.map_nil, List.sum_cons, List.sum_nil]
      omega
    · simp only [List.map_cons, List.map_nil, List.sum_cons, List.sum_nil]
      omega
    · omega
    · omega
  · rintro ⟨⟨hscans, hfindings, hfits⟩, hscans', hfindings', hfits'⟩
    simp only [List.map_cons, List.map_nil, List.sum_cons, List.sum_nil, reduceCtorEq,
      false_or] at hfindings hfits
    refine ⟨?_, ?_, Or.inr ?_⟩
    · intro other hother
      rcases List.mem_cons.mp hother with rfl | hother
      · exact hscans _ List.mem_cons_self
      · exact hscans' other hother
    · simp only [List.map_cons, List.sum_cons]
      omega
    · simp only [List.map_cons, List.sum_cons]
      rcases hfits' with rfl | hfits'
      · simpa using hfits
      · omega

/-- **The scan in order** succeeds exactly when every object scans within the limits, and then it
gives the parts in the order of the objects. -/
theorem foldlM_scanNext_eq_ok {objects : List Object} {state final : ScanReport × ℕ} :
    objects.foldlM (scanNext repository limit) state = .ok final ↔
      repository.Passes limit objects state.1 state.2 ∧
        final = (repository.total objects state.1,
          state.2 + (objects.map repository.findingCount).sum) := by
  induction objects generalizing state with
  | nil =>
      constructor
      · intro h
        cases h
        exact ⟨⟨nofun, Or.inl rfl, Or.inl rfl⟩, by simp [Repository.total]⟩
      · rintro ⟨_, rfl⟩
        simp only [Repository.total, List.length_nil, List.map_nil, List.sum_nil,
          List.flatMap_nil, List.append_nil, Nat.add_zero]
        rfl
  | cons object objects ih =>
      rw [List.foldlM_cons, Except.bind_eq_ok, Repository.passes_cons,
        Repository.total_cons object objects, List.map_cons, List.sum_cons, ← Nat.add_assoc]
      simp only [ih, scanNext_eq_ok]
      constructor
      · rintro ⟨middle, ⟨hfirst, rfl⟩, hrest, hfinal⟩
        exact ⟨⟨hfirst, hrest⟩, hfinal⟩
      · rintro ⟨⟨hfirst, hrest⟩, hfinal⟩
        exact ⟨_, ⟨hfirst, rfl⟩, hrest, hfinal⟩

/-! ## Where an object is -/

/-- The object at an index was scanned, with this report. -/
def Repository.Scanned (repository : Repository) (index : ℕ) (part : ScanReport) : Prop :=
  ∃ object, repository.objects[index]? = some object ∧ (repository.scanOf object).2 = .ok part

/-- How many findings the object at an index has. -/
def Repository.findingsAt (repository : Repository) (index : ℕ) : ℕ :=
  match repository.objects[index]? with
  | some object => repository.findingCount object
  | none => 0

namespace Scanner

/-- What a scanner holds weighs. -/
def held (weight : ℕ → ℕ) : Scanner → ℕ
  | scanning index _ _ | sending index _ => weight index
  | _ => 0

/-- How many findings a scanner has to count. -/
def pending : Scanner → ℕ
  | scanning _ pending _ => pending.length
  | _ => 0

/-- A scanner on which something failed, until it is reported. -/
def Failing : Scanner → Prop
  | aborting _ | cancelling _ | reporting _ => True
  | _ => False

/-- A scanner that has left its loop. -/
def Leaving : Scanner → Prop
  | finishing | stopped => True
  | _ => False

/-- What a scanner holds is of the object at its index. -/
def Sound (repository : Repository) : Scanner → Prop
  | scanning index _ outcome =>
      ∃ object, repository.objects[index]? = some object ∧
        outcome = (repository.scanOf object).2
  | sending index part => repository.Scanned index part
  | _ => True

/-- How much a scanner may still do before it draws again. -/
def weight : Scanner → ℕ
  | stopped => 0
  | reporting _ => 3
  | cancelling _ => 4
  | aborting _ | finishing => 5
  | drawing => 7
  | checking => 8
  | starting => 9
  | sending _ _ => 11
  | scanning _ pending _ => 12 + pending.length

end Scanner

/-- What a message weighs. -/
def Message.held (weight : ℕ → ℕ) : Message → ℕ
  | .ok (index, _) => weight index
  | .error _ => 0

/-! ## One step of a scanner -/

section Scanner

variable {capacity number : ℕ} {shared shared' : Shared} {scanner scanner' : Scanner}

/-- What a failing scanner does leaves a failure behind. -/
theorem Scanner.Step.failing
    (h : Scanner.Step repository limit capacity number shared scanner shared' scanner')
    (hfailing : scanner.Failing) :
    scanner'.Failing ∨ ∃ cause, (.error cause : Message) ∈ shared'.channel := by
  cases h with
  | abort => exact Or.inl trivial
  | abortFailed => exact Or.inl trivial
  | cancel => exact Or.inl trivial
  | @report cause hroom => exact Or.inr ⟨cause, List.mem_append_right _ List.mem_cons_self⟩
  | _ => exact False.elim hfailing

/-- The channel keeps its messages, and gets those of objects that were scanned. -/
theorem Scanner.Step.channel
    (h : Scanner.Step repository limit capacity number shared scanner shared' scanner')
    (hsound : scanner.Sound repository) :
    (∀ message ∈ shared.channel, message ∈ shared'.channel) ∧
      ∀ index part, (.ok (index, part) : Message) ∈ shared'.channel →
        (.ok (index, part) : Message) ∈ shared.channel ∨ repository.Scanned index part := by
  cases h with
  | send hroom =>
      refine ⟨fun message hmem => List.mem_append_left _ hmem, fun index part hmem => ?_⟩
      rcases List.mem_append.mp hmem with hmem | hmem
      · exact Or.inl hmem
      · cases List.mem_singleton.mp hmem
        exact Or.inr hsound
  | report hroom =>
      refine ⟨fun message hmem => List.mem_append_left _ hmem, fun index part hmem => ?_⟩
      rcases List.mem_append.mp hmem with hmem | hmem
      · exact Or.inl hmem
      · cases List.mem_singleton.mp hmem
  | _ => exact ⟨fun _ => id, fun _ _ => Or.inl⟩

theorem Scanner.Step.sound
    (h : Scanner.Step repository limit capacity number shared scanner shared' scanner')
    (hsound : scanner.Sound repository) : scanner'.Sound repository := by
  cases h with
  | draw hobject => exact ⟨_, hobject, rfl⟩
  | count hlimit => exact hsound
  | scanned =>
      obtain ⟨object, hobject, houtcome⟩ := hsound
      exact ⟨object, hobject, houtcome.symm⟩
  | _ => trivial

/-- A scanner that does not fail moves what it holds, and may draw one index more. -/
theorem Scanner.Step.moves
    (h : Scanner.Step repository limit capacity number shared scanner shared' scanner')
    (hquiet : ¬ scanner'.Failing) :
    (shared'.next = shared.next ∧ ∀ weight,
        scanner'.held weight + (shared'.channel.map (Message.held weight)).sum =
          scanner.held weight + (shared.channel.map (Message.held weight)).sum) ∨
      (shared'.next = shared.next + 1 ∧ shared.next < repository.objects.length ∧ ∀ weight,
        scanner'.held weight + (shared'.channel.map (Message.held weight)).sum =
          scanner.held weight + (shared.channel.map (Message.held weight)).sum +
            weight shared.next) ∨
      (shared'.next = shared.next + 1 ∧ repository.objects.length ≤ shared.next ∧ ∀ weight,
        scanner'.held weight + (shared'.channel.map (Message.held weight)).sum =
          scanner.held weight + (shared.channel.map (Message.held weight)).sum) := by
  cases h with
  | draw hobject =>
      obtain ⟨hlt, _⟩ := List.getElem?_eq_some_iff.mp hobject
      refine Or.inr (Or.inl ⟨rfl, hlt, fun weight => ?_⟩)
      simp only [held]
      omega
  | exhaust hend =>
      exact Or.inr (Or.inr ⟨rfl, List.getElem?_eq_none_iff.mp hend, fun _ => rfl⟩)
  | send hroom =>
      refine Or.inl ⟨rfl, fun weight => ?_⟩
      simp only [held, List.map_append, List.map_cons, List.map_nil, List.sum_append,
        List.sum_cons, List.sum_nil, Message.held]
      omega
  | report hroom =>
      refine Or.inl ⟨rfl, fun weight => ?_⟩
      simp only [held, List.map_append, List.map_cons, List.map_nil, List.sum_append,
        List.sum_cons, List.sum_nil, Message.held]
      omega
  | overrun hlimit => exact absurd trivial hquiet
  | scanFailed => exact absurd trivial hquiet
  | _ => exact Or.inl ⟨rfl, fun _ => rfl⟩

/-- A scanner that does not fail counts what it has to count. -/
theorem Scanner.Step.counts
    (h : Scanner.Step repository limit capacity number shared scanner shared' scanner')
    (hquiet : ¬ scanner'.Failing) :
    shared'.count + scanner'.pending +
        undrawn repository.objects.length shared'.next repository.findingsAt =
      shared.count + scanner.pending +
        undrawn repository.objects.length shared.next repository.findingsAt ∧
      (shared'.count = shared.count ∨ shared.count ≤ shared'.count ∧ shared'.count ≤ limit) := by
  cases h with
  | draw hobject =>
      obtain ⟨hlt, _⟩ := List.getElem?_eq_some_iff.mp hobject
      refine ⟨?_, Or.inl rfl⟩
      rw [undrawn_draw hlt, Repository.findingsAt, hobject]
      simp only [pending, Repository.findingCount]
      omega
  | exhaust hend =>
      have hlast := List.getElem?_eq_none_iff.mp hend
      refine ⟨?_, Or.inl rfl⟩
      rw [undrawn_past hlast, undrawn_past (Nat.le_succ_of_le hlast)]
      rfl
  | count hlimit =>
      refine ⟨?_, Or.inr ⟨Nat.le_succ _, hlimit⟩⟩
      simp only [pending, List.length_cons]
      omega
  | overrun hlimit => exact absurd trivial hquiet
  | _ => exact ⟨rfl, Or.inl rfl⟩

/-- Without a failure no scanner raises the flag, and none leaves before the last object. -/
theorem Scanner.Step.leaves
    (h : Scanner.Step repository limit capacity number shared scanner shared' scanner')
    (hquiet : ¬ scanner'.Failing) (hbefore : ¬ scanner.Failing) (hflag : shared.cancelled = false) :
    shared'.cancelled = false ∧ shared.next ≤ shared'.next ∧
      (scanner'.Leaving → scanner.Leaving ∨ repository.objects.length ≤ shared'.next) := by
  cases h with
  | halt hraised => rw [hflag] at hraised; cases hraised
  | draw hobject => exact ⟨hflag, Nat.le_succ _, False.elim⟩
  | exhaust hend =>
      have hlast := List.getElem?_eq_none_iff.mp hend
      exact ⟨hflag, Nat.le_succ _, fun _ => Or.inr (Nat.le_succ_of_le hlast)⟩
  | finish hfinish => exact ⟨hflag, le_rfl, Or.inl⟩
  | cancel => exact absurd trivial hquiet
  | report hroom => exact absurd trivial hbefore
  | _ => exact ⟨hflag, le_rfl, False.elim⟩

/-- A scanner that takes a step has less to do. -/
theorem Scanner.Step.remaining
    (h : Scanner.Step repository limit capacity number shared scanner shared' scanner') :
    undrawn repository.objects.length shared'.next (fun index => repository.findingsAt index + 6) +
        scanner'.weight + 2 * shared'.channel.length <
      undrawn repository.objects.length shared.next (fun index => repository.findingsAt index + 6) +
        scanner.weight + 2 * shared.channel.length := by
  cases h with
  | draw hobject =>
      obtain ⟨hlt, _⟩ := List.getElem?_eq_some_iff.mp hobject
      rw [undrawn_draw hlt, Repository.findingsAt, hobject]
      simp only [weight, Repository.findingCount]
      omega
  | exhaust hend =>
      have hlast := List.getElem?_eq_none_iff.mp hend
      rw [undrawn_past hlast, undrawn_past (Nat.le_succ_of_le hlast)]
      simp only [weight]
      omega
  | send hroom =>
      simp only [weight, List.length_append, List.length_cons, List.length_nil]
      omega
  | report hroom =>
      simp only [weight, List.length_append, List.length_cons, List.length_nil]
      omega
  | _ => simp only [weight, List.length_cons]; omega

/-- A scanner that has not stopped can go on while there is room in the channel. -/
theorem Scanner.exists_step (hscanner : scanner ≠ .stopped)
    (hroom : shared.channel.length < capacity) :
    ∃ shared' scanner',
      Scanner.Step repository limit capacity number shared scanner shared' scanner' := by
  cases scanner with
  | starting =>
      cases hstart : repository.start number with
      | ok done => exact ⟨_, _, .start hstart⟩
      | error cause => exact ⟨_, _, .startFailed hstart⟩
  | checking =>
      cases hflag : shared.cancelled with
      | false => exact ⟨_, _, .proceed hflag⟩
      | true => exact ⟨_, _, .halt hflag⟩
  | drawing =>
      cases hobject : repository.objects[shared.next]? with
      | none => exact ⟨_, _, .exhaust hobject⟩
      | some object => exact ⟨_, _, .draw hobject⟩
  | scanning index pending outcome =>
      cases pending with
      | cons finding pending =>
          by_cases hlimit : shared.count < limit
          · exact ⟨_, _, .count hlimit⟩
          · exact ⟨_, _, .overrun (Nat.le_of_not_lt hlimit)⟩
      | nil =>
          cases outcome with
          | ok part => exact ⟨_, _, .scanned⟩
          | error cause => exact ⟨_, _, .scanFailed⟩
  | sending index part => exact ⟨_, _, .send hroom⟩
  | finishing =>
      cases hfinish : repository.finish number with
      | ok done => exact ⟨_, _, .finish hfinish⟩
      | error cause => exact ⟨_, _, .finishFailed hfinish⟩
  | aborting cause =>
      cases habort : repository.abort number with
      | ok done => exact ⟨_, _, .abort habort⟩
      | error worse => exact ⟨_, _, .abortFailed habort⟩
  | cancelling cause => exact ⟨_, _, .cancel⟩
  | reporting cause => exact ⟨_, _, .report hroom⟩
  | stopped => exact absurd rfl hscanner

end Scanner

/-! ## The invariant -/

namespace Pool

/-- Nothing has failed. -/
structure Quiet (pool : Pool) : Prop where
  scanners : ∀ scanner ∈ pool.scanners, ¬ scanner.Failing
  channel : ∀ cause, (.error cause : Message) ∉ pool.shared.channel
  errors : pool.errors = []

/-- What the scanners hold, the channel carries and the receiver has weighs. -/
def held (pool : Pool) (weight : ℕ → ℕ) : ℕ :=
  (pool.scanners.map (Scanner.held weight)).sum +
    (pool.shared.channel.map (Message.held weight)).sum +
    (pool.received.map fun item => weight item.1).sum

/-- What holds of a pool in which nothing has failed. -/
structure Sound (repository : Repository) (limit : ℕ) (report : ScanReport) (count : ℕ)
    (pool : Pool) : Prop where
  scanners : ∀ scanner ∈ pool.scanners, scanner.Sound repository
  channel : ∀ index part, (.ok (index, part) : Message) ∈ pool.shared.channel →
    repository.Scanned index part
  received : ∀ item ∈ pool.received, repository.Scanned item.1 item.2
  conserved : Conserved repository.objects.length pool.shared.next pool.held
  counted : pool.shared.count + (pool.scanners.map Scanner.pending).sum +
      undrawn repository.objects.length pool.shared.next repository.findingsAt =
    count + undrawn repository.objects.length 0 repository.findingsAt
  limit : pool.shared.count = count ∨ count ≤ pool.shared.count ∧ pool.shared.count ≤ limit
  report : pool.report = { report with
    objects := report.objects + pool.received.length
    bytes := report.bytes + (pool.received.map fun item => item.2.bytes).sum }
  bytes : pool.received = [] ∨ pool.report.bytes ≤ u64Max
  results : pool.results =
    (pool.received.map fun item => (item.1, item.2.findings)).filter fun item => item.2 ≠ []
  cancelled : pool.shared.cancelled = false
  leaving : ∀ scanner ∈ pool.scanners, scanner.Leaving →
    repository.objects.length ≤ pool.shared.next

variable {report : ScanReport} {count capacity : ℕ} {pool next : Pool}

theorem Quiet.start (scanners : ℕ) (report : ScanReport) (count : ℕ) :
    (Pool.start scanners report count).Quiet where
  scanners := by
    intro scanner hscanner
    cases List.eq_of_mem_replicate hscanner
    exact id
  channel := by nofun
  errors := rfl

theorem Sound.start (scanners : ℕ) (report : ScanReport) (count : ℕ) :
    (Pool.start scanners report count).Sound repository limit report count where
  scanners := by
    intro scanner hscanner
    cases List.eq_of_mem_replicate hscanner
    trivial
  channel := by nofun
  received := by nofun
  conserved := by
    refine (Conserved.start _).move fun weight => ?_
    simp [held, Pool.start, Scanner.held]
  counted := by simp [Pool.start, Scanner.pending]
  limit := Or.inl rfl
  report := rfl
  bytes := Or.inl rfl
  results := rfl
  cancelled := rfl
  leaving := by
    intro scanner hscanner hleaving
    cases List.eq_of_mem_replicate hscanner
    exact False.elim hleaving

/-- **A failure stays**: a pool in which nothing has failed was always such. -/
theorem Quiet.of_step (hstep : Pool.Step repository limit capacity pool next)
    (hquiet : next.Quiet) : pool.Quiet := by
  cases hstep with
  | @scanner before after scanner scanner' shared hscanners hstep =>
      obtain ⟨hnone, hchannel, herrors⟩ := hquiet
      have hbefore : ¬ scanner.Failing := by
        intro hfailing
        rcases hstep.failing hfailing with hstill | ⟨cause, hsent⟩
        · exact hnone scanner' (by simp) hstill
        · exact hchannel cause hsent
      refine ⟨fun other hother => ?_, fun cause hcause => ?_, herrors⟩
      · rw [hscanners] at hother
        rcases List.mem_append.mp hother with hother | hother
        · exact hnone other (List.mem_append_left _ hother)
        · rcases List.mem_cons.mp hother with rfl | hother
          · exact hbefore
          · exact hnone other (List.mem_append_right _ (List.mem_cons_of_mem _ hother))
      · cases hstep with
        | send hroom => exact hchannel cause (List.mem_append_left _ hcause)
        | report hroom => exact hchannel cause (List.mem_append_left _ hcause)
        | _ => exact hchannel cause hcause
  | @receive index bytes part channel hchannel hbytes =>
      refine ⟨hquiet.scanners, fun cause hcause => ?_, hquiet.errors⟩
      rw [hchannel] at hcause
      rcases List.mem_cons.mp hcause with hcause | hcause
      · cases hcause
      · exact hquiet.channel cause hcause
  | overflow hchannel hbytes =>
      have herrors := hquiet.errors
      simp at herrors
  | receiveFailure hchannel =>
      have herrors := hquiet.errors
      simp at herrors
  | conclude hchannel hscanners hresult =>
      exact ⟨hquiet.scanners, hquiet.channel, hquiet.errors⟩

/-- A step of a scanner keeps the invariant. -/
theorem Sound.scanner (h : pool.Sound repository limit report count) (hbefore : pool.Quiet)
    {before after : List Scanner} {scanner scanner' : Scanner} {shared : Shared} {number : ℕ}
    (hscanners : pool.scanners = before ++ scanner :: after)
    (hstep : Scanner.Step repository limit capacity number pool.shared scanner shared scanner')
    (hquiet : ¬ scanner'.Failing) :
    Sound repository limit report count
      { pool with shared, scanners := before ++ scanner' :: after } := by
  have hmem : scanner ∈ pool.scanners := by rw [hscanners]; simp
  have hold : ∀ other ∈ before ++ scanner' :: after, other = scanner' ∨ other ∈ pool.scanners := by
    intro other hother
    rw [hscanners]
    rcases List.mem_append.mp hother with hother | hother
    · exact Or.inr (List.mem_append_left _ hother)
    · rcases List.mem_cons.mp hother with hother | hother
      · exact Or.inl hother
      · exact Or.inr (List.mem_append_right _ (List.mem_cons_of_mem _ hother))
  obtain ⟨_, hsent⟩ := hstep.channel (h.scanners _ hmem)
  obtain ⟨hcancelled, hnext, hleaves⟩ :=
    hstep.leaves hquiet (hbefore.scanners _ hmem) h.cancelled
  obtain ⟨hcounts, hlimit⟩ := hstep.counts hquiet
  exact {
    scanners := by
      intro other hother
      rcases hold other hother with rfl | hother
      · exact hstep.sound (h.scanners _ hmem)
      · exact h.scanners _ hother
    channel := by
      intro index part hpart
      rcases hsent index part hpart with hpart | hscanned
      · exact h.channel _ _ hpart
      · exact hscanned
    received := h.received
    conserved := by
      have hconserved := h.conserved
      rcases hstep.moves hquiet with
        ⟨hsame, hmoves⟩ | ⟨hsucc, hlt, hmoves⟩ | ⟨hsucc, hend, hmoves⟩
      · show Conserved _ shared.next _
        rw [hsame]
        refine hconserved.move fun weight => ?_
        have := hmoves weight
        simp only [held, hscanners, List.map_append, List.map_cons, List.sum_append,
          List.sum_cons]
        omega
      · show Conserved _ shared.next _
        rw [hsucc]
        refine hconserved.draw hlt fun weight => ?_
        have := hmoves weight
        simp only [held, hscanners, List.map_append, List.map_cons, List.sum_append,
          List.sum_cons]
        omega
      · show Conserved _ shared.next _
        rw [hsucc]
        refine hconserved.past hend fun weight => ?_
        have := hmoves weight
        simp only [held, hscanners, List.map_append, List.map_cons, List.sum_append,
          List.sum_cons]
        omega
    counted := by
      have := h.counted
      simp only [hscanners, List.map_append, List.map_cons, List.sum_append,
        List.sum_cons] at this ⊢
      omega
    limit := by
      have := h.limit
      show shared.count = count ∨ count ≤ shared.count ∧ shared.count ≤ limit
      omega
    report := h.report
    bytes := h.bytes
    results := h.results
    cancelled := hcancelled
    leaving := by
      intro other hother hleaving
      show repository.objects.length ≤ shared.next
      rcases hold other hother with rfl | hother
      · rcases hleaves hleaving with hleaving | hend
        · exact (h.leaving _ hmem hleaving).trans hnext
        · exact hend
      · exact (h.leaving _ hother hleaving).trans hnext }

/-- **A step after which nothing has failed keeps the invariant.** -/
theorem Sound.step (hstep : Pool.Step repository limit capacity pool next)
    (h : pool.Sound repository limit report count) (hquiet : next.Quiet) :
    next.Sound repository limit report count := by
  have hbefore := Quiet.of_step hstep hquiet
  cases hstep with
  | scanner hscanners hstep =>
      exact h.scanner hbefore hscanners hstep (hquiet.scanners _ (by simp))
  | @receive index bytes part channel hchannel hbytes =>
      obtain ⟨hle, rfl⟩ := checkedAdd_eq_some.mp hbytes
      have hscanned : repository.Scanned index part :=
        h.channel _ _ (by rw [hchannel]; exact List.mem_cons_self)
      have hpart : part.objects = 1 := by
        obtain ⟨object, _, hok⟩ := hscanned
        obtain ⟨hscans, rfl⟩ := Repository.scans_of_eq_ok hok
        exact hscans.part.1
      have hreport := h.report
      exact { h with
        channel := by
          intro other otherPart hother
          exact h.channel _ _ (by rw [hchannel]; exact List.mem_cons_of_mem _ hother)
        received := by
          intro item hitem
          rcases List.mem_append.mp hitem with hitem | hitem
          · exact h.received _ hitem
          · cases List.mem_singleton.mp hitem
            exact hscanned
        conserved := by
          refine h.conserved.move fun weight => ?_
          simp only [held, hchannel, List.map_append, List.map_cons, List.map_nil,
            List.sum_append, List.sum_cons, List.sum_nil, Message.held]
          omega
        report := by
          simp only [hreport, hpart, List.length_append, List.length_cons, List.length_nil,
            List.map_append, List.map_cons, List.map_nil, List.sum_append, List.sum_cons,
            List.sum_nil, ScanReport.mk.injEq, true_and, and_true]
          omega
        bytes := Or.inr hle
        results := by
          simp only [List.map_append, List.map_cons, List.map_nil, List.filter_append, ← h.results]
          by_cases hnone : part.findings = []
          · simp [hnone]
          · simp [hnone] }
  | overflow hchannel hbytes =>
      have herrors := hquiet.errors
      simp at herrors
  | receiveFailure hchannel =>
      have herrors := hquiet.errors
      simp at herrors
  | conclude hchannel hscanners hresult => exact { h with }

/-- **The invariant of every run**: it holds as long as nothing has failed. -/
theorem sound_of_reachable {scanners : ℕ}
    (hreach : Pool.Reachable repository limit scanners report count pool) (hquiet : pool.Quiet) :
    pool.Sound repository limit report count := by
  induction hreach with
  | refl => exact Sound.start scanners report count
  | tail _ hlast ih => exact Sound.step hlast (ih (Quiet.of_step hlast hquiet)) hquiet

/-! ## The end of a scan -/

/-- A result is given once, when every scanner is gone and the channel is empty. -/
def Settled (repository : Repository) (pool : Pool) : Prop :=
  ∀ result, pool.result = some result →
    pool.shared.channel = [] ∧ (∀ scanner ∈ pool.scanners, scanner = .stopped) ∧
      result = pool.outcome repository.objects.length

theorem Settled.step (hstep : Pool.Step repository limit capacity pool next)
    (h : pool.Settled repository) : next.Settled repository := by
  intro result hresult
  cases hstep with
  | @scanner before after scanner scanner' shared hscanners hstep =>
      obtain ⟨_, hstopped, _⟩ := h result hresult
      have hscanner := hstopped scanner (by rw [hscanners]; simp)
      rw [hscanner] at hstep
      cases hstep
  | receive hchannel hbytes =>
      obtain ⟨hempty, _, _⟩ := h result hresult
      rw [hchannel] at hempty
      cases hempty
  | overflow hchannel hbytes =>
      obtain ⟨hempty, _, _⟩ := h result hresult
      rw [hchannel] at hempty
      cases hempty
  | receiveFailure hchannel =>
      obtain ⟨hempty, _, _⟩ := h result hresult
      rw [hchannel] at hempty
      cases hempty
  | conclude hchannel hscanners _ =>
      cases hresult
      exact ⟨hchannel, hscanners, rfl⟩

/-- The number of scanners stays. -/
theorem length_of_reachable {scanners : ℕ}
    (hreach : Pool.Reachable repository limit scanners report count pool) :
    pool.scanners.length = scanners := by
  induction hreach with
  | refl => rw [Pool.start, List.length_replicate]
  | tail _ hlast ih =>
      cases hlast with
      | scanner hscanners hstep =>
          rw [hscanners] at ih
          simpa using ih
      | _ => exact ih

/-- What was received of an index. -/
def partAt (repository : Repository) (index : ℕ) : ScanReport :=
  match repository.objects[index]? with
  | some object => repository.partOf object
  | none => ⟨"", "", false, 0, 0, []⟩

theorem map_partAt {α : Type} (read : ScanReport → α) :
    (List.range repository.objects.length).map (fun index => read (partAt repository index)) =
      repository.objects.map fun object => read (repository.partOf object) := by
  refine List.ext_getElem (by simp) fun index hleft hright => ?_
  have hlt : index < repository.objects.length := by simpa using hleft
  simp [partAt, hlt]

theorem map_findingsAt :
    (List.range repository.objects.length).map repository.findingsAt =
      repository.objects.map repository.findingCount := by
  refine List.ext_getElem (by simp) fun index hleft hright => ?_
  have hlt : index < repository.objects.length := by simpa using hleft
  simp [Repository.findingsAt, hlt]

/-- What was received is of the index it came with. -/
theorem Sound.received_eq (h : pool.Sound repository limit report count) :
    pool.received =
      (pool.received.map Prod.fst).map fun index => (index, partAt repository index) := by
  rw [List.map_map]
  refine (List.map_id _).symm.trans (List.map_congr_left fun item hitem => ?_)
  obtain ⟨object, hobject, hok⟩ := h.received item hitem
  have hpart := (Repository.scans_of_eq_ok hok).2
  simp only [id, Function.comp, partAt, hobject, hpart]

variable {α : Type}

/-- Findings sorted by index are those of the objects in order: the indexes that were left out have
none. -/
theorem flatMap_mergeSort_results {findings : ℕ → List α} {indexes : List ℕ} {total : ℕ}
    (hperm : indexes.Perm (List.range total)) :
    ((((indexes.map fun index => (index, findings index)).filter fun item => item.2 ≠ []).mergeSort
      fun a b => a.1 ≤ b.1).flatMap Prod.snd) = (List.range total).flatMap findings := by
  have hsorted : (((List.range total).map fun index => (index, findings index)).filter
      fun item => item.2 ≠ []).Pairwise fun a b => decide (a.1 ≤ b.1) = true := by
    refine List.Pairwise.filter _ (List.pairwise_map.mpr ?_)
    refine List.pairwise_lt_range.imp fun hlt => ?_
    simpa using Nat.le_of_lt hlt
  have hsame : (((indexes.map fun index => (index, findings index)).filter
      fun item => item.2 ≠ []).mergeSort fun a b => a.1 ≤ b.1) =
        ((List.range total).map fun index => (index, findings index)).filter
          fun item => item.2 ≠ [] := by
    refine List.Perm.eq_of_pairwise ?_ (List.pairwise_mergeSort ?_ ?_ _) hsorted
      ((List.mergeSort_perm _ _).trans ((hperm.map _).filter _))
    · intro a b ha hb hab hba
      rw [List.mem_mergeSort, List.mem_filter, List.mem_map] at ha
      rw [List.mem_filter, List.mem_map] at hb
      obtain ⟨⟨index, _, rfl⟩, _⟩ := ha
      obtain ⟨⟨other, _, rfl⟩, _⟩ := hb
      simp only [decide_eq_true_eq] at hab hba
      rw [le_antisymm hab hba]
    · intro a b c hab hbc
      simp only [decide_eq_true_eq] at hab hbc ⊢
      omega
    · intro a b
      simp only [Bool.or_eq_true, decide_eq_true_eq]
      omega
  rw [hsame]
  induction List.range total with
  | nil => rfl
  | cons index rest ih =>
      rw [List.map_cons, List.filter_cons, List.flatMap_cons]
      split
      · rw [List.flatMap_cons, ih]
      · next hnone =>
          simp only [ne_eq, decide_not, Bool.not_eq_true', decide_eq_false_iff_not, not_not] at hnone
          rw [hnone, List.nil_append, ih]

/-- Every object was received once when every scanner is gone and the channel is empty. -/
theorem Sound.perm (h : pool.Sound repository limit report count)
    (hstopped : ∀ scanner ∈ pool.scanners, scanner = .stopped)
    (hempty : pool.shared.channel = []) (hsome : pool.scanners ≠ []) :
    repository.objects.length ≤ pool.shared.next ∧
      (pool.received.map Prod.fst).Perm (List.range repository.objects.length) := by
  obtain ⟨scanner, hscanner⟩ := List.exists_mem_of_ne_nil _ hsome
  have hend : repository.objects.length ≤ pool.shared.next :=
    h.leaving scanner hscanner (by rw [hstopped scanner hscanner]; trivial)
  refine ⟨hend, Conserved.perm (h.conserved.move fun weight => ?_) hend⟩
  have hidle : (pool.scanners.map (Scanner.held weight)).sum = 0 := by
    refine List.sum_eq_zero_iff_forall_eq_nat.mpr fun held hheld => ?_
    obtain ⟨scanner, hscanner, rfl⟩ := List.mem_map.mp hheld
    rw [hstopped scanner hscanner]
    rfl
  simp only [held, hidle, hempty, List.map_nil, List.sum_nil, Nat.zero_add, List.map_map]
  rfl

/-- **A scan that ends without a failure** is one the scan in order passes, with its report. -/
theorem Sound.passes (h : pool.Sound repository limit report count)
    (hstopped : ∀ scanner ∈ pool.scanners, scanner = .stopped)
    (hempty : pool.shared.channel = []) (hsome : pool.scanners ≠ [])
    (hobjects : report.objects = 0) :
    repository.Passes limit repository.objects report count ∧
      finishReport pool.report repository.objects.length pool.results =
        .ok (repository.total repository.objects report) := by
  obtain ⟨hend, hperm⟩ := h.perm hstopped hempty hsome
  have hsum : ∀ read : ScanReport → ℕ, (pool.received.map fun item => read item.2).sum =
      (repository.objects.map fun object => read (repository.partOf object)).sum := by
    intro read
    rw [h.received_eq, List.map_map, ← map_partAt]
    exact (hperm.map _).sum_nat
  have hlength : pool.received.length = repository.objects.length := by
    have := hperm.length_eq
    rwa [List.length_map, List.length_range] at this
  have hbytes := h.bytes
  rw [h.report] at hbytes
  refine ⟨⟨?_, ?_, ?_⟩, ?_⟩
  · intro object hobject
    obtain ⟨index, hlt, hget⟩ := List.getElem_of_mem hobject
    have hmem : index ∈ pool.received.map Prod.fst :=
      hperm.mem_iff.mpr (List.mem_range.mpr hlt)
    obtain ⟨item, hitem, rfl⟩ := List.mem_map.mp hmem
    obtain ⟨other, hother, hok⟩ := h.received item hitem
    rw [List.getElem?_eq_getElem hlt, hget] at hother
    cases hother
    exact (Repository.scans_of_eq_ok hok).1
  · have hcounted := h.counted
    have hpending : (pool.scanners.map Scanner.pending).sum = 0 := by
      refine List.sum_eq_zero_iff_forall_eq_nat.mpr fun held hheld => ?_
      obtain ⟨scanner, hscanner, rfl⟩ := List.mem_map.mp hheld
      rw [hstopped scanner hscanner]
      rfl
    rw [hpending, undrawn_past hend, undrawn_zero, map_findingsAt] at hcounted
    have := h.limit
    omega
  · rw [hsum] at hbytes
    rcases hbytes with hnone | hbytes
    · rw [hnone, List.length_nil] at hlength
      exact Or.inl (List.length_eq_zero_iff.mp hlength.symm)
    · exact Or.inr hbytes
  · have hresults : pool.results = ((pool.received.map Prod.fst).map fun index =>
        (index, (partAt repository index).findings)).filter fun item => item.2 ≠ [] := by
      rw [h.results]
      congr 1
      conv_lhs => rw [h.received_eq]
      rw [List.map_map]
      rfl
    rw [finishReport, h.report, hlength, if_neg (by simp [hobjects]), hresults,
      flatMap_mergeSort_results hperm, hsum, List.flatMap_def,
      map_partAt ScanReport.findings, ← List.flatMap_def]
    rfl

/-! ## Without a fault -/

/-- The bytes of what is under way fit with those that were received. -/
theorem Sound.fits (h : pool.Sound repository limit report count)
    (hpasses : repository.Passes limit repository.objects report count) {index : ℕ}
    {part : ScanReport} {channel : List Message}
    (hchannel : pool.shared.channel = .ok (index, part) :: channel) :
    pool.report.bytes + part.bytes ≤ u64Max := by
  obtain ⟨object, hobject, hok⟩ := h.channel index part (by
    rw [hchannel]
    exact List.mem_cons_self)
  have hpart : (partAt repository index).bytes = part.bytes := by
    rw [partAt, hobject]
    simp only [(Repository.scans_of_eq_ok hok).2]
  have hreceived : (pool.received.map fun item => (partAt repository item.1).bytes).sum =
      (pool.received.map fun item => item.2.bytes).sum := by
    conv_rhs => rw [h.received_eq]
    rw [List.map_map, List.map_map]
    rfl
  have hconserved := h.conserved fun index => (partAt repository index).bytes
  rw [map_partAt ScanReport.bytes, held, hreceived, hchannel, List.map_cons, List.sum_cons,
    Message.held, hpart] at hconserved
  rw [h.report]
  rcases hpasses.bytes with hnone | hbytes
  · rw [hnone] at hobject
    cases hobject
  · show report.bytes + _ + part.bytes ≤ u64Max
    omega

/-- **Where the scan in order passes, nothing fails.** -/
theorem Sound.quiet_of_step (hstep : Pool.Step repository limit capacity pool next)
    (h : pool.Sound repository limit report count) (hquiet : pool.Quiet)
    (hpasses : repository.Passes limit repository.objects report count)
    (hclean : ∀ number, repository.start number = .ok () ∧ repository.finish number = .ok ()) :
    next.Quiet := by
  cases hstep with
  | @scanner before after scanner scanner' shared hscanners hstep =>
      have hmem : scanner ∈ pool.scanners := by rw [hscanners]; simp
      have hbefore := hquiet.scanners _ hmem
      have hsound := h.scanners _ hmem
      have hothers : ∀ other ∈ before ++ scanner' :: after,
          other = scanner' ∨ ¬ other.Failing := by
        intro other hother
        rcases List.mem_append.mp hother with hother | hother
        · exact Or.inr (hquiet.scanners _ (by rw [hscanners]; exact List.mem_append_left _ hother))
        · rcases List.mem_cons.mp hother with hother | hother
          · exact Or.inl hother
          · exact Or.inr (hquiet.scanners _ (by
              rw [hscanners]
              exact List.mem_append_right _ (List.mem_cons_of_mem _ hother)))
      have hlocal : ¬ scanner'.Failing ∧
          ∀ cause, (.error cause : Message) ∈ shared.channel →
            (.error cause : Message) ∈ pool.shared.channel := by
        cases hstep with
        | startFailed hstart => rw [(hclean _).1] at hstart; cases hstart
        | finishFailed hfinish => rw [(hclean _).2] at hfinish; cases hfinish
        | overrun hlimit =>
            have hcounted := h.counted
            simp only [hscanners, List.map_append, List.map_cons, List.sum_append, List.sum_cons,
              Scanner.pending, List.length_cons, undrawn_zero, map_findingsAt] at hcounted
            have := hpasses.findings
            have := h.limit
            omega
        | scanFailed =>
            obtain ⟨object, hobject, houtcome⟩ := hsound
            rw [hpasses.scans object (List.mem_of_getElem? hobject)] at houtcome
            cases houtcome
        | abort => exact absurd trivial hbefore
        | abortFailed => exact absurd trivial hbefore
        | cancel => exact absurd trivial hbefore
        | report hroom => exact absurd trivial hbefore
        | send hroom =>
            refine ⟨id, fun cause hcause => ?_⟩
            rcases List.mem_append.mp hcause with hcause | hcause
            · exact hcause
            · cases List.mem_singleton.mp hcause
        | _ => exact ⟨id, fun _ => id⟩
      refine ⟨fun other hother => ?_, fun cause hcause => ?_, hquiet.errors⟩
      · rcases hothers other hother with rfl | hother
        · exact hlocal.1
        · exact hother
      · exact hquiet.channel cause (hlocal.2 cause hcause)
  | receive hchannel hbytes =>
      refine ⟨hquiet.scanners, fun cause hcause => ?_, hquiet.errors⟩
      exact hquiet.channel cause (by rw [hchannel]; exact List.mem_cons_of_mem _ hcause)
  | @overflow index part channel hchannel hbytes =>
      rw [checkedAdd_eq_some.mpr ⟨h.fits hpasses hchannel, rfl⟩] at hbytes
      cases hbytes
  | receiveFailure hchannel =>
      exact absurd (by rw [hchannel]; exact List.mem_cons_self) (hquiet.channel _)
  | conclude hchannel hscanners hresult =>
      exact ⟨hquiet.scanners, hquiet.channel, hquiet.errors⟩

/-- Where the scan in order passes, every run is quiet. -/
theorem quiet_of_reachable {scanners : ℕ}
    (hreach : Pool.Reachable repository limit scanners report count pool)
    (hpasses : repository.Passes limit repository.objects report count)
    (hclean : ∀ number, repository.start number = .ok () ∧ repository.finish number = .ok ()) :
    pool.Quiet := by
  induction hreach with
  | refl => exact Quiet.start scanners report count
  | tail hrun hlast ih =>
      exact (sound_of_reachable hrun ih).quiet_of_step hlast ih hpasses hclean

/-! ## Ending -/

/-- How much a pool may still do. -/
def remaining (repository : Repository) (pool : Pool) : ℕ :=
  undrawn repository.objects.length pool.shared.next
      (fun index => repository.findingsAt index + 6) +
    (pool.scanners.map Scanner.weight).sum + 2 * pool.shared.channel.length +
    if pool.result = none then 1 else 0

/-- **A scan that goes on has less to do.** -/
theorem Step.remaining_lt (hstep : Pool.Step repository limit capacity pool next) :
    next.remaining repository < pool.remaining repository := by
  cases hstep with
  | scanner hscanners hstep =>
      have := hstep.remaining
      simp only [remaining, hscanners, List.map_append, List.map_cons, List.sum_append,
        List.sum_cons]
      omega
  | receive hchannel hbytes =>
      simp only [remaining, hchannel, List.length_cons]
      omega
  | overflow hchannel hbytes =>
      simp only [remaining, hchannel, List.length_cons]
      omega
  | receiveFailure hchannel =>
      simp only [remaining, hchannel, List.length_cons]
      omega
  | conclude hchannel hscanners hresult =>
      simp only [remaining, hresult, if_true, reduceCtorEq, if_false]
      omega

/-- **A scan that has no result can go on.** -/
theorem exists_step (hcapacity : 0 < capacity) (hresult : pool.result = none) :
    ∃ next, Pool.Step repository limit capacity pool next := by
  match hchannel : pool.shared.channel with
  | .ok (index, part) :: channel =>
      cases hbytes : checkedAdd pool.report.bytes part.bytes with
      | some bytes => exact ⟨_, .receive hchannel hbytes⟩
      | none => exact ⟨_, .overflow hchannel hbytes⟩
  | .error cause :: channel => exact ⟨_, .receiveFailure hchannel⟩
  | [] =>
      by_cases hscanners : ∀ scanner ∈ pool.scanners, scanner = .stopped
      · exact ⟨_, .conclude hchannel hscanners hresult⟩
      · simp only [not_forall] at hscanners
        obtain ⟨scanner, hscanner, hgoing⟩ := hscanners
        obtain ⟨before, after, hsplit⟩ := List.append_of_mem hscanner
        obtain ⟨_, _, hstep⟩ : ∃ shared' scanner', Scanner.Step repository limit capacity
            before.length pool.shared scanner shared' scanner' :=
          Scanner.exists_step hgoing (by rw [hchannel]; exact hcapacity)
        exact ⟨_, .scanner hsplit hstep⟩

end Pool

/-- The report that is given to the pool has counted no objects. -/
theorem startReview_objects {repositoryName : String} {branch : Bytes} {report : ScanReport}
    {count : ℕ} (h : startReview repository limit repositoryName branch = .ok (report, count)) :
    report.objects = 0 := by
  simp only [startReview, Except.bind_eq_ok] at h
  obtain ⟨_, _, _, _, _, _, _, _, hreport⟩ := h
  cases hreport
  rfl

/-- **A scan side by side is the scan in order.** With any number of scanners, however they and the
receiver take turns: a result that is not an error is the one the scan in order gives, with the same
count, bytes and findings, and every object was received once; and as long as the Git processes
start and end well, there is such a result whenever the scan in order succeeds. A scan without a
result can always go on, and no run is longer than what remained at its start. -/
theorem scan_pool_exact {scanners : ℕ} (hscanners : 0 < scanners) {report : ScanReport}
    (hreport : report.objects = 0) {count : ℕ} {pool : Pool}
    (hreach : Pool.Reachable repository limit scanners report count pool) :
    (∀ result, pool.result = some result →
      (∀ final, result = .ok final →
        (∃ total, scanInOrder repository limit report count = .ok (final, total)) ∧
          (pool.received.map Prod.fst).Perm (List.range repository.objects.length)) ∧
      ((∀ number, repository.start number = .ok () ∧ repository.finish number = .ok ()) →
        ∀ final, result = .ok final ↔
          ∃ total, scanInOrder repository limit report count = .ok (final, total))) ∧
      (pool.result = none → ∃ next, Pool.Step repository limit scanners pool next) ∧
      ∀ steps last, Steps (Pool.Step repository limit scanners) steps pool last →
        steps ≤ pool.remaining repository := by
  have hsettled : pool.Settled repository :=
    invariant_of_reachable (by nofun) (fun _ _ h hstep => h.step hstep) hreach
  have hsome : pool.scanners ≠ [] := by
    intro hnil
    have := Pool.length_of_reachable hreach
    rw [hnil, List.length_nil] at this
    omega
  have hfinal : ∀ {result : Except GitError ScanReport}, pool.result = some result →
      pool.Quiet → (pool.received.map Prod.fst).Perm (List.range repository.objects.length) ∧
        repository.Passes limit repository.objects report count ∧
          result = .ok (repository.total repository.objects report) := by
    intro result hresult hquiet
    obtain ⟨hempty, hstopped, rfl⟩ := hsettled result hresult
    have hsound := Pool.sound_of_reachable hreach hquiet
    obtain ⟨hpasses, hfinish⟩ := hsound.passes hstopped hempty hsome hreport
    refine ⟨(hsound.perm hstopped hempty hsome).2, hpasses, ?_⟩
    rw [Pool.outcome, hquiet.errors, hfinish]
  refine ⟨fun result hresult => ?_, Pool.exists_step hscanners, fun steps last hsteps => ?_⟩
  · have hok : ∀ final, result = .ok final →
        (∃ total, scanInOrder repository limit report count = .ok (final, total)) ∧
          (pool.received.map Prod.fst).Perm (List.range repository.objects.length) := by
      intro final hfinalEq
      obtain ⟨hempty, hstopped, houtcome⟩ := hsettled result hresult
      have hquiet : pool.Quiet := by
        refine ⟨fun scanner hscanner => ?_, fun cause hcause => ?_, ?_⟩
        · rw [hstopped scanner hscanner]
          exact id
        · rw [hempty] at hcause
          cases hcause
        · rw [houtcome, Pool.outcome] at hfinalEq
          split at hfinalEq
          · cases hfinalEq
          · next herrors => exact herrors
      obtain ⟨hperm, hpasses, htotal⟩ := hfinal hresult hquiet
      rw [hfinalEq] at htotal
      cases htotal
      exact ⟨⟨_, foldlM_scanNext_eq_ok.mpr ⟨hpasses, rfl⟩⟩, hperm⟩
    refine ⟨hok, fun hclean final => ⟨fun h => (hok final h).1, ?_⟩⟩
    rintro ⟨total, htotal⟩
    obtain ⟨hpasses, heq⟩ := foldlM_scanNext_eq_ok.mp htotal
    have hquiet := Pool.quiet_of_reachable hreach hpasses hclean
    obtain ⟨_, _, hresultEq⟩ := hfinal hresult hquiet
    rw [hresultEq, Except.ok.injEq]
    exact (congrArg Prod.fst heq).symm
  · have := Steps.length_le
      (@Pool.Step.remaining_lt repository limit scanners) hsteps
    omega

/-! ## A repository with one object -/

namespace Sample

/-- A blob that holds an access key. -/
def keyBlob : Object :=
  ⟨"0a2b5c", "blob", 20⟩

def keyContent : Bytes :=
  [65, 75, 73, 65] ++ List.replicate 16 66

/-- The rule for access keys, as far as it decides on this content. -/
def keyRule : Rule where
  name := "aws-access-key"
  findIter window := if window.take 4 = [65, 75, 73, 65] then [0] else []

def keyRepository (sha256 : Bytes → Bytes32) : Repository where
  sha256 := sha256
  rules := [keyRule]
  objects := [keyBlob]
  reply object :=
    { line := .ok s!"{object.oid} {object.kind} {object.size}\n".toUTF8.toList
      content := keyContent ++ [10]
      broken := none
      delimiter := .ok 10 }
  start _ := .ok ()
  finish _ := .ok ()
  abort _ := .ok ()

variable {sha256 : Bytes → Bytes32}

/-- The finding in the blob, and the report it makes. -/
def keyFinding (sha256 : Bytes → Bytes32) : Finding :=
  findingAt sha256 "0a2b5c" "aws-access-key" 0

def keyPart (sha256 : Bytes → Bytes32) : ScanReport :=
  ⟨"", "", true, 1, 20, [keyFinding sha256]⟩

theorem scanOf_keyBlob :
    (keyRepository sha256).scanOf keyBlob = ([keyFinding sha256], .ok (keyPart sha256)) := by
  have hline : checkHeader keyBlob
      s!"{keyBlob.oid} {keyBlob.kind} {keyBlob.size}\n".toUTF8.toList = .ok () := by
    rw [checkHeader, beq_self_eq_true]
    rfl
  have hcontent : checkContent keyBlob keyContent none = .ok () := by decide +kernel
  have hread : scanReader sha256 "0a2b5c" [keyRule] keyContent none 0 =
      ([keyFinding sha256], .ok 20) := rfl
  have hchecked : ((do
      let line ← ((keyRepository sha256).reply keyBlob).line
      checkHeader keyBlob line
      checkContent keyBlob keyContent none) : Except GitError Unit) = .ok () := by
    show (checkHeader keyBlob s!"{keyBlob.oid} {keyBlob.kind} {keyBlob.size}\n".toUTF8.toList >>=
      fun _ => checkContent keyBlob keyContent none) = _
    rw [hline, hcontent]
    rfl
  rw [Repository.scanOf, scanObject]
  have hpart : ((keyRepository sha256).reply keyBlob).content.take keyBlob.size = keyContent := rfl
  have hwhole : (if ((keyRepository sha256).reply keyBlob).content.length < keyBlob.size then
      ((keyRepository sha256).reply keyBlob).broken else none) = none := rfl
  have hrules : (keyRepository sha256).rules = [keyRule] := rfl
  dsimp only
  rw [hpart, hwhole, hrules, hchecked,
    show scanReader (keyRepository sha256).sha256 keyBlob.oid [keyRule] keyContent none 0 = _ from
      hread]
  rfl

/-- The report before the pool. -/
def emptyReport : ScanReport :=
  ⟨"notes", "urma-git-patterns-v2", false, 0, 10, []⟩

variable {pool : Pool} {scanner scanner' : Scanner} {shared : Shared}

/-- A step of the only scanner. -/
theorem step_alone (hscanners : pool.scanners = [scanner])
    (hstep : Scanner.Step (keyRepository sha256) scanFindingsLimit 1 0 pool.shared scanner shared
      scanner') :
    Pool.Step (keyRepository sha256) scanFindingsLimit 1 pool
      { pool with shared, scanners := [scanner'] } :=
  @Pool.Step.scanner (keyRepository sha256) scanFindingsLimit 1 pool [] [] scanner scanner' shared
    hscanners hstep

/-- The scan of the repository ends without an error. -/
theorem keyRepository_scanned :
    ∃ pool final, Pool.Reachable (keyRepository sha256) scanFindingsLimit 1 emptyReport 0 pool ∧
      pool.result = some (.ok final) := by
  have hdraw : Scanner.Step (keyRepository sha256) scanFindingsLimit 1 0 ⟨0, false, 0, []⟩ .drawing
      ⟨1, false, 0, []⟩ (.scanning 0 [keyFinding sha256] (.ok (keyPart sha256))) := by
    have := @Scanner.Step.draw (keyRepository sha256) scanFindingsLimit 1 0 ⟨0, false, 0, []⟩
      keyBlob rfl
    rwa [scanOf_keyBlob] at this
  have hlimit : 0 < scanFindingsLimit := by decide
  refine ⟨_, _, .tail (.tail (.tail (.tail (.tail (.tail (.tail (.tail (.tail (.tail (.tail .refl
    (step_alone rfl (.start rfl))) (step_alone rfl (.proceed rfl))) (step_alone rfl hdraw))
    (step_alone rfl (.count hlimit))) (step_alone rfl .scanned))
    (step_alone rfl (.send Nat.one_pos))) (.receive rfl rfl)) (step_alone rfl (.proceed rfl)))
    (step_alone rfl (.exhaust rfl))) (step_alone rfl (.finish rfl))) (.conclude rfl ?_ rfl), rfl⟩
  rintro scanner (_ | ⟨_, ⟨⟩⟩)
  rfl

end Sample

theorem scan_pool_exact_key :
    ∃ final total, scanInOrder (Sample.keyRepository Lib.Sha256.hash) scanFindingsLimit
      Sample.emptyReport 0 = .ok (final, total) := by
  obtain ⟨pool, final, hreach, hresult⟩ := Sample.keyRepository_scanned
  obtain ⟨total, htotal⟩ :=
    (((scan_pool_exact (by decide) rfl hreach).1 _ hresult).1 final rfl).1
  exact ⟨final, total, htotal⟩

end Urma.Git
