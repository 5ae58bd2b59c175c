import Urma.Core.EnvelopeExact
import Urma.Wire.Batch

/-!
# A batch is applied in order

Whatever the workers and the collector do next, each drawn position is in one place: in the hands
of a worker, in the inbox, in the reorder buffer, or applied. So the index always holds a prefix of
the range, applied in order, and a batch that ends without an error has applied all of it.
-/

namespace Urma.Wire

open Chain Std Lib.WorkQueue

variable {E : Type} {crates : WireCrates} {reader : Reader E} {heights : List ℕ}

/-! ## One after another -/

/-- A range is applied part by part. -/
theorem applyHeights_append {index : Index} {first last : List ℕ} :
    applyHeights crates reader index (first ++ last) =
      (applyHeights crates reader index first).bind fun middle =>
        applyHeights crates reader middle last := by
  induction first generalizing index with
  | nil => rfl
  | cons height first ih =>
      simp only [List.cons_append, applyHeights, bind]
      cases SyncError.ofSource (reader.block height) with
      | error cause => rfl
      | ok pair =>
          simp only [Except.bind]
          cases applyBlock crates reader index height pair with
          | error cause => rfl
          | ok middle => exact ih

theorem applyHeights_cons_eq_ok {index final : Index} {height : ℕ} {heights : List ℕ} :
    applyHeights crates reader index (height :: heights) = .ok final ↔
      ∃ pair middle, reader.block height = .ok pair ∧
        applyBlock crates reader index height pair = .ok middle ∧
          applyHeights crates reader middle heights = .ok final := by
  simp only [applyHeights, Except.bind_eq_ok, SyncError.ofSource_eq_ok]
  constructor
  · rintro ⟨pair, hpair, middle, hmiddle, hfinal⟩
    exact ⟨pair, middle, hpair, hmiddle, hfinal⟩
  · rintro ⟨pair, middle, hpair, hmiddle, hfinal⟩
    exact ⟨pair, hpair, middle, hmiddle, hfinal⟩

/-- A range that is applied was answered. -/
theorem applyHeights_answered {index final : Index}
    (h : applyHeights crates reader index heights = .ok final) {height : ℕ}
    (hheight : height ∈ heights) : ∃ pair, reader.block height = .ok pair := by
  induction heights generalizing index with
  | nil => cases hheight
  | cons first heights ih =>
      obtain ⟨pair, middle, hpair, _, hrest⟩ := applyHeights_cons_eq_ok.mp h
      rcases List.mem_cons.mp hheight with rfl | hheight
      · exact ⟨pair, hpair⟩
      · exact ih hrest hheight

/-! ## Where a position is -/

namespace Fetcher

/-- How often a worker has a position in its hands. -/
def holds (position : ℕ) : Fetcher E → ℕ
  | fetching held _ | marking held _ | sending held _ => if position = held then 1 else 0
  | _ => 0

/-- How much a worker may still do before it draws again. -/
def weight : Fetcher E → ℕ
  | stopped => 0
  | drawing => 1
  | checking => 2
  | sending _ _ => 5
  | marking _ _ => 6
  | fetching _ _ => 7

end Fetcher

/-- The source answered so at the height of a position. -/
def Answered (reader : Reader E) (heights : List ℕ) (position : ℕ) (answer : Answer E) : Prop :=
  ∃ height, heights[position]? = some height ∧ reader.block height = answer

/-- What a worker holds is what the source answered. -/
def Fetcher.Truthful (reader : Reader E) (heights : List ℕ) : Fetcher E → Prop
  | fetching position height => heights[position]? = some height
  | marking position cause => Answered reader heights position (.error cause)
  | sending position answer => Answered reader heights position answer
  | _ => True

/-- A worker that is about to report a failure. -/
def Fetcher.Reports : Fetcher E → Prop
  | sending _ (.error _) => True
  | _ => False

namespace Stream

/-- How often a position is anywhere. -/
def tally (state : Stream E) (position : ℕ) : ℕ :=
  (state.workers.map (Fetcher.holds position)).sum +
    (state.inbox.map Prod.fst).count position +
    (if (state.waiting[position]?).isSome then 1 else 0) +
    if position < state.expected then 1 else 0

/-- How much a batch may still do. -/
def remaining (heights : List ℕ) (state : Stream E) : ℕ :=
  7 * (heights.length - state.cursor) + (state.workers.map Fetcher.weight).sum +
    2 * state.inbox.length + state.waiting.size +
    match state.collector with
    | .collecting => 2
    | .leaving _ => 1
    | .finished _ => 0

end Stream

/-! ## One step of a worker -/

section Worker

variable {inboxOpen failed failed' : Bool} {cursor cursor' : ℕ} {inbox inbox' : List (ℕ × Answer E)}
  {worker worker' : Fetcher E}

/-- A worker moves what it holds, and may draw one position more. -/
theorem Fetcher.Step.moves (hopen : inboxOpen = true)
    (h : Fetcher.Step reader heights inboxOpen (cursor, failed, inbox) worker
      (cursor', failed', inbox') worker') :
    (cursor' = cursor ∧ ∀ position,
        worker'.holds position + (inbox'.map Prod.fst).count position =
          worker.holds position + (inbox.map Prod.fst).count position) ∨
      (cursor' = cursor + 1 ∧ cursor < heights.length ∧ ∀ position,
        worker'.holds position + (inbox'.map Prod.fst).count position =
          worker.holds position + (inbox.map Prod.fst).count position +
            if position = cursor then 1 else 0) ∨
      (cursor' = cursor + 1 ∧ heights.length ≤ cursor ∧ ∀ position,
        worker'.holds position + (inbox'.map Prod.fst).count position =
          worker.holds position + (inbox.map Prod.fst).count position) := by
  cases h with
  | proceed => exact Or.inl ⟨rfl, fun _ => rfl⟩
  | halt => exact Or.inl ⟨rfl, fun _ => rfl⟩
  | draw hheight =>
      obtain ⟨hlt, _⟩ := List.getElem?_eq_some_iff.mp hheight
      refine Or.inr (Or.inl ⟨rfl, hlt, fun position => ?_⟩)
      simp only [holds]
      omega
  | exhaust hend =>
      exact Or.inr (Or.inr ⟨rfl, List.getElem?_eq_none_iff.mp hend, fun _ => rfl⟩)
  | fetch hblock => exact Or.inl ⟨rfl, fun _ => rfl⟩
  | fail hblock => exact Or.inl ⟨rfl, fun _ => rfl⟩
  | mark => exact Or.inl ⟨rfl, fun _ => rfl⟩
  | send hsend =>
      refine Or.inl ⟨rfl, fun position => ?_⟩
      simp only [holds, List.map_append, List.map_cons, List.map_nil, List.count_append,
        List.count_singleton, beq_iff_eq, eq_comm (a := position)]
      omega
  | disconnect hclosed => rw [hopen] at hclosed; cases hclosed

/-- A worker keeps to what the source answered. -/
theorem Fetcher.Step.truthful (hworker : worker.Truthful reader heights)
    (h : Fetcher.Step reader heights inboxOpen (cursor, failed, inbox) worker
      (cursor', failed', inbox') worker') :
    worker'.Truthful reader heights ∧ ∀ position answer, (position, answer) ∈ inbox' →
      (position, answer) ∈ inbox ∨ Answered reader heights position answer := by
  have hsame : ∀ (inbox : List (ℕ × Answer E)) position answer, (position, answer) ∈ inbox →
      (position, answer) ∈ inbox ∨ Answered reader heights position answer :=
    fun _ _ _ hmem => Or.inl hmem
  cases h with
  | proceed => exact ⟨trivial, hsame _⟩
  | halt => exact ⟨trivial, hsame _⟩
  | draw hheight => exact ⟨hheight, hsame _⟩
  | exhaust hend => exact ⟨trivial, hsame _⟩
  | fetch hblock => exact ⟨⟨_, hworker, hblock⟩, hsame _⟩
  | fail hblock => exact ⟨⟨_, hworker, hblock⟩, hsame _⟩
  | mark => exact ⟨hworker, hsame _⟩
  | send hsend =>
      refine ⟨trivial, fun position answer hmem => ?_⟩
      rcases List.mem_append.mp hmem with hmem | hmem
      · exact Or.inl hmem
      · cases List.mem_singleton.mp hmem
        exact Or.inr hworker
  | disconnect hclosed => exact ⟨trivial, hsame _⟩

/-- A failure that was raised is reported, and stays in the inbox once it is there. -/
theorem Fetcher.Step.reports (hopen : inboxOpen = true)
    (h : Fetcher.Step reader heights inboxOpen (cursor, failed, inbox) worker
      (cursor', failed', inbox') worker') :
    (failed' = true → failed = true ∨ worker'.Reports) ∧
      (worker.Reports → worker'.Reports ∨ ∃ position cause, (position, .error cause) ∈ inbox') ∧
      (∀ message ∈ inbox, message ∈ inbox') := by
  cases h with
  | proceed => exact ⟨Or.inl, False.elim, fun _ => id⟩
  | halt => exact ⟨Or.inl, False.elim, fun _ => id⟩
  | draw hheight => exact ⟨Or.inl, False.elim, fun _ => id⟩
  | exhaust hend => exact ⟨Or.inl, False.elim, fun _ => id⟩
  | fetch hblock => exact ⟨Or.inl, False.elim, fun _ => id⟩
  | fail hblock => exact ⟨Or.inl, False.elim, fun _ => id⟩
  | mark => exact ⟨fun _ => Or.inr trivial, False.elim, fun _ => id⟩
  | @send _ position _ _ answer hsend =>
      refine ⟨Or.inl, fun hreports => ?_, fun message hmem => List.mem_append_left _ hmem⟩
      cases answer with
      | ok pair => exact False.elim hreports
      | error cause =>
          exact Or.inr ⟨position, cause, List.mem_append_right _ List.mem_cons_self⟩
  | disconnect hclosed => rw [hopen] at hclosed; cases hclosed

/-- A worker stops when the range is drawn or something failed. -/
theorem Fetcher.Step.stops (hopen : inboxOpen = true)
    (h : Fetcher.Step reader heights inboxOpen (cursor, failed, inbox) worker
      (cursor', failed', inbox') worker') :
    cursor ≤ cursor' ∧ (failed = true → failed' = true) ∧
      (worker' = .stopped → heights.length ≤ cursor' ∨ failed' = true) := by
  cases h with
  | proceed => exact ⟨le_rfl, id, by nofun⟩
  | halt => exact ⟨le_rfl, id, fun _ => Or.inr rfl⟩
  | draw hheight => exact ⟨Nat.le_succ _, id, by nofun⟩
  | exhaust hend =>
      have := List.getElem?_eq_none_iff.mp hend
      exact ⟨Nat.le_succ _, id, fun _ => Or.inl (by omega)⟩
  | fetch hblock => exact ⟨le_rfl, id, by nofun⟩
  | fail hblock => exact ⟨le_rfl, id, by nofun⟩
  | mark => exact ⟨le_rfl, fun _ => rfl, by nofun⟩
  | send hsend => exact ⟨le_rfl, id, by nofun⟩
  | disconnect hclosed => rw [hopen] at hclosed; cases hclosed

/-- A worker that does not stand still has less to do. -/
theorem Fetcher.Step.remaining
    (h : Fetcher.Step reader heights inboxOpen (cursor, failed, inbox) worker
      (cursor', failed', inbox') worker') :
    7 * (heights.length - cursor') + worker'.weight + 2 * inbox'.length <
      7 * (heights.length - cursor) + worker.weight + 2 * inbox.length := by
  cases h with
  | draw hheight =>
      obtain ⟨hlt, _⟩ := List.getElem?_eq_some_iff.mp hheight
      simp only [weight]
      omega
  | exhaust hend =>
      have := List.getElem?_eq_none_iff.mp hend
      simp only [weight]
      omega
  | send hsend =>
      simp only [weight, List.length_append, List.length_cons, List.length_nil]
      omega
  | _ => simp only [weight]; omega

/-- A worker that has not stopped can go on, whatever the others do. -/
theorem Fetcher.exists_step (hworker : worker ≠ .stopped) :
    ∃ cursor' failed' inbox' worker', Fetcher.Step reader heights inboxOpen
      (cursor, failed, inbox) worker (cursor', failed', inbox') worker' := by
  cases worker with
  | checking =>
      cases failed with
      | false => exact ⟨_, _, _, _, .proceed⟩
      | true => exact ⟨_, _, _, _, .halt⟩
  | drawing =>
      cases hheight : heights[cursor]? with
      | none => exact ⟨_, _, _, _, .exhaust hheight⟩
      | some height => exact ⟨_, _, _, _, .draw hheight⟩
  | fetching position height =>
      cases hblock : reader.block height with
      | error cause => exact ⟨_, _, _, _, .fail hblock⟩
      | ok pair => exact ⟨_, _, _, _, .fetch hblock⟩
  | marking position cause => exact ⟨_, _, _, _, .mark⟩
  | sending position answer =>
      cases inboxOpen with
      | false => exact ⟨_, _, _, _, .disconnect rfl⟩
      | true => exact ⟨_, _, _, _, .send rfl⟩
  | stopped => exact absurd rfl hworker

end Worker

/-! ## The invariant -/

namespace Stream

/-- What the collector's result says: everything was applied, or the range cannot be. -/
def Justified (crates : WireCrates) (reader : Reader E) (heights : List ℕ) (index : Index)
    (state : Stream E) : Except (SyncError E) Unit → Prop
  | .ok () => state.expected = heights.length
  | .error _ => ∀ final, applyHeights crates reader index heights ≠ .ok final

/-- What holds of a batch after every step. While the collector collects, every drawn position is
in one place, a failure that was raised is on its way, and a worker stops only at the end of the
range or after a failure. -/
structure Ordered (crates : WireCrates) (reader : Reader E) (heights : List ℕ) (index : Index)
    (state : Stream E) : Prop where
  workers : ∀ worker ∈ state.workers, worker.Truthful reader heights
  inbox : ∀ position answer, (position, answer) ∈ state.inbox →
    Answered reader heights position answer
  waiting : ∀ position pair, state.waiting[position]? = some pair →
    Answered reader heights position (.ok pair)
  expected : state.expected ≤ heights.length
  handed : state.applied.map Prod.fst = heights.take state.expected
  answered : ∀ item ∈ state.applied, reader.block item.1 = .ok item.2
  current : applyHeights crates reader index (heights.take state.expected) = .ok state.index
  ledger : state.collector = .collecting → Ledger heights.length state.cursor state.tally
  failed : state.collector = .collecting → state.failed = true →
    (∃ worker ∈ state.workers, worker.Reports) ∨
      ∃ position cause, (position, .error cause) ∈ state.inbox
  stopped : state.collector = .collecting → .stopped ∈ state.workers →
    heights.length ≤ state.cursor ∨ state.failed = true
  employed : heights = [] ∨ state.workers ≠ []
  result : ∀ result, state.collector = .leaving result ∨ state.collector = .finished result →
    Justified crates reader heights index state result

variable {index : Index} {state next : Stream E}

theorem Ordered.start {fetchWorkers : ℕ} (hworkers : 0 < fetchWorkers) :
    Ordered crates reader heights index (Stream.start fetchWorkers heights index) where
  workers := by
    intro worker hworker
    cases List.eq_of_mem_replicate hworker
    trivial
  inbox := by nofun
  waiting := by
    intro position pair h
    rw [Stream.start, ExtTreeMap.getElem?_empty] at h
    cases h
  expected := Nat.zero_le _
  handed := rfl
  answered := by nofun
  current := rfl
  ledger := by
    intro _
    refine (Ledger.start heights.length).move fun position => ?_
    simp [tally, Stream.start, Fetcher.holds]
  failed := by nofun
  stopped := by
    intro _ hworker
    cases List.eq_of_mem_replicate hworker
  employed := by
    cases heights with
    | nil => exact Or.inl rfl
    | cons height heights =>
        refine Or.inr fun hnil => ?_
        have hlength := congrArg List.length hnil
        rw [Stream.start, List.length_replicate, List.length_cons, List.length_nil] at hlength
        omega
  result := by
    intro result h
    rcases h with h | h <;> cases h

/-- A step of a worker keeps everything. -/
theorem Ordered.worker (h : Ordered crates reader heights index state)
    {before after : List (Fetcher E)} {worker worker' : Fetcher E} {cursor : ℕ} {failed : Bool}
    {inbox : List (ℕ × Answer E)} (hworkers : state.workers = before ++ worker :: after)
    (hstep : Fetcher.Step reader heights state.collector.isOpen
      (state.cursor, state.failed, state.inbox) worker (cursor, failed, inbox) worker') :
    Ordered crates reader heights index
      { state with cursor, failed, inbox, workers := before ++ worker' :: after } := by
  have hmem : worker ∈ state.workers := by rw [hworkers]; simp
  have hold : ∀ other ∈ before ++ worker' :: after, other = worker' ∨ other ∈ state.workers := by
    intro other hother
    rw [hworkers]
    rcases List.mem_append.mp hother with hother | hother
    · exact Or.inr (List.mem_append_left _ hother)
    · rcases List.mem_cons.mp hother with hother | hother
      · exact Or.inl hother
      · exact Or.inr (List.mem_append_right _ (List.mem_cons_of_mem _ hother))
  have hkeep : ∀ other ∈ state.workers, other = worker ∨ other ∈ before ++ worker' :: after := by
    intro other hother
    rw [hworkers] at hother
    rcases List.mem_append.mp hother with hother | hother
    · exact Or.inr (List.mem_append_left _ hother)
    · rcases List.mem_cons.mp hother with hother | hother
      · exact Or.inl hother
      · exact Or.inr (List.mem_append_right _ (List.mem_cons_of_mem _ hother))
  have hnew : worker' ∈ before ++ worker' :: after := by simp
  obtain ⟨htruthful, hinbox⟩ := hstep.truthful (h.workers _ hmem)
  have hisOpen : state.collector = .collecting → state.collector.isOpen = true := by
    intro hcollecting
    rw [hcollecting]
    rfl
  exact {
    workers := by
      intro other hother
      rcases hold other hother with rfl | hother
      · exact htruthful
      · exact h.workers _ hother
    inbox := by
      intro position answer hanswer
      rcases hinbox position answer hanswer with hanswer | hanswer
      · exact h.inbox _ _ hanswer
      · exact hanswer
    waiting := h.waiting
    expected := h.expected
    handed := h.handed
    answered := h.answered
    current := h.current
    ledger := by
      intro hcollecting
      have hledger := h.ledger hcollecting
      rcases hstep.moves (hisOpen hcollecting) with
        ⟨hcursor, hsame⟩ | ⟨hcursor, hlt, hdraw⟩ | ⟨hcursor, hend, hsame⟩
      · cases hcursor
        refine hledger.move fun position => ?_
        have := hsame position
        simp only [tally, hworkers, List.map_append, List.map_cons, List.sum_append,
          List.sum_cons]
        omega
      · cases hcursor
        refine hledger.draw hlt fun position => ?_
        have := hdraw position
        simp only [tally, hworkers, List.map_append, List.map_cons, List.sum_append,
          List.sum_cons]
        omega
      · cases hcursor
        refine hledger.past hend fun position => ?_
        have := hsame position
        simp only [tally, hworkers, List.map_append, List.map_cons, List.sum_append,
          List.sum_cons]
        omega
    failed := by
      intro hcollecting hfailed
      obtain ⟨hraised, hreports, hstays⟩ := hstep.reports (hisOpen hcollecting)
      have hcarry : worker'.Reports ∨ (∃ position cause, (position, .error cause) ∈ inbox) →
          (∃ other ∈ before ++ worker' :: after, other.Reports) ∨
            ∃ position cause, (position, .error cause) ∈ inbox :=
        Or.imp_left fun hnow => ⟨worker', hnew, hnow⟩
      rcases hraised hfailed with hbefore | hnow
      · rcases h.failed hcollecting hbefore with ⟨other, hother, hnow⟩ | ⟨position, cause, hsent⟩
        · rcases hkeep other hother with rfl | hother
          · exact hcarry (hreports hnow)
          · exact Or.inl ⟨other, hother, hnow⟩
        · exact Or.inr ⟨position, cause, hstays _ hsent⟩
      · exact hcarry (Or.inl hnow)
    stopped := by
      intro hcollecting hstopped
      obtain ⟨hcursor, hfailed, hstops⟩ := hstep.stops (hisOpen hcollecting)
      rcases hold _ hstopped with hstopped | hstopped
      · exact hstops hstopped.symm
      · rcases h.stopped hcollecting hstopped with hend | hbefore
        · exact Or.inl (hend.trans hcursor)
        · exact Or.inr (hfailed hbefore)
    employed := Or.inr (by simp)
    result := h.result }

/-- The next position is only ever in the buffer or still to come. -/
theorem Ordered.tally_expected (h : Ordered crates reader heights index state)
    (hcollecting : state.collector = .collecting)
    (hexpected : state.expected < heights.length) (hend : heights.length ≤ state.cursor) :
    state.tally state.expected = 1 :=
  (h.ledger hcollecting).eq_one hend hexpected

/-- The index holds one block more. -/
theorem Ordered.apply (h : Ordered crates reader heights index state)
    {height : ℕ} {pair : Block × Bytes32} {index' : Index}
    (hcollecting : state.collector = .collecting)
    (hwaiting : state.waiting[state.expected]? = some pair)
    (hheight : heights[state.expected]? = some height)
    (hindex : applyBlock crates reader state.index height pair = .ok index') :
    Ordered crates reader heights index
      { state with
        waiting := state.waiting.erase state.expected
        expected := state.expected + 1
        index := index'
        applied := state.applied ++ [(height, pair)] } := by
  obtain ⟨hlt, hget⟩ := List.getElem?_eq_some_iff.mp hheight
  obtain ⟨height', hheight', hblock⟩ := h.waiting _ _ hwaiting
  rw [hheight] at hheight'
  cases hheight'
  have htake : heights.take (state.expected + 1) = heights.take state.expected ++ [height] := by
    rw [List.take_add_one, hheight, Option.toList_some]
  exact {
    workers := h.workers
    inbox := h.inbox
    waiting := by
      intro position other hother
      simp only [ExtTreeMap.getElem?_erase] at hother
      split at hother
      · cases hother
      · exact h.waiting _ _ hother
    expected := hlt
    handed := by rw [List.map_append, h.handed, htake, List.map_cons, List.map_nil]
    answered := by
      intro item hitem
      rcases List.mem_append.mp hitem with hitem | hitem
      · exact h.answered _ hitem
      · cases List.mem_singleton.mp hitem
        exact hblock
    current := by
      simp only [htake, applyHeights_append, h.current, Except.bind]
      exact applyHeights_cons_eq_ok.mpr ⟨pair, index', hblock, hindex, rfl⟩
    ledger := by
      intro _
      refine (h.ledger hcollecting).move fun position => ?_
      simp only [tally, ExtTreeMap.getElem?_erase, Nat.compare_eq_eq]
      by_cases hposition : position = state.expected
      · rw [hposition, hwaiting]
        simp
      · have hne : ¬ state.expected = position := fun heq => hposition heq.symm
        have hlater : position < state.expected + 1 ↔ position < state.expected := by omega
        simp only [hne, if_false, hlater]
    failed := h.failed
    stopped := h.stopped
    employed := h.employed
    result := by
      intro result hresult
      simp only [hcollecting] at hresult
      rcases hresult with hresult | hresult <;> cases hresult }

/-- A block that is refused is one the range cannot be applied past. -/
theorem Ordered.refused (h : Ordered crates reader heights index state)
    {height : ℕ} {pair : Block × Bytes32} {cause : SyncError E}
    (hwaiting : state.waiting[state.expected]? = some pair)
    (hheight : heights[state.expected]? = some height)
    (hindex : applyBlock crates reader state.index height pair = .error cause) (final : Index) :
    applyHeights crates reader index heights ≠ .ok final := by
  obtain ⟨height', hheight', hblock⟩ := h.waiting _ _ hwaiting
  rw [hheight] at hheight'
  cases hheight'
  obtain ⟨hlt, hget⟩ := List.getElem?_eq_some_iff.mp hheight
  have hsplit : heights =
      heights.take state.expected ++ height :: heights.drop (state.expected + 1) := by
    rw [← hget, ← List.drop_eq_getElem_cons hlt, List.take_append_drop]
  rw [hsplit, applyHeights_append, h.current]
  intro hfinal
  obtain ⟨pair', middle, hpair', hmiddle, _⟩ := applyHeights_cons_eq_ok.mp hfinal
  rw [hblock] at hpair'
  cases hpair'
  rw [hindex] at hmiddle
  cases hmiddle

/-- When every worker has stopped and nothing is under way, everything was applied. -/
theorem Ordered.drained (h : Ordered crates reader heights index state)
    (hcollecting : state.collector = .collecting)
    (hwaiting : state.waiting[state.expected]? = none) (hinbox : state.inbox = [])
    (hworkers : ∀ worker ∈ state.workers, worker = .stopped) :
    state.expected = heights.length := by
  have hidle : (state.workers.map (Fetcher.holds state.expected)).sum = 0 := by
    refine List.sum_eq_zero_iff_forall_eq_nat.mpr fun held hheld => ?_
    obtain ⟨worker, hworker, rfl⟩ := List.mem_map.mp hheld
    rw [hworkers worker hworker]
    rfl
  have hnone : state.tally state.expected = 0 := by
    simp [tally, hidle, hinbox, hwaiting]
  have hquiet : state.failed ≠ true := by
    intro hfailed
    rcases h.failed hcollecting hfailed with ⟨worker, hworker, hreports⟩ | ⟨_, _, hsent⟩
    · rw [hworkers worker hworker] at hreports
      exact hreports
    · rw [hinbox] at hsent
      cases hsent
  have hexpected := h.expected
  rcases h.employed with hnil | hemployed
  · rw [hnil, List.length_nil] at hexpected ⊢
    omega
  · obtain ⟨worker, hworker⟩ := List.exists_mem_of_ne_nil _ hemployed
    have hstopped := hworkers worker hworker ▸ hworker
    rcases h.stopped hcollecting hstopped with hend | hfailed
    · by_contra hshort
      have := h.tally_expected hcollecting (by omega) hend
      omega
    · exact absurd hfailed hquiet

/-- **Every step keeps the order.** -/
theorem Ordered.step (h : Ordered crates reader heights index state)
    (hstep : Stream.Step crates reader heights state next) :
    Ordered crates reader heights index next := by
  cases hstep with
  | worker hworkers hstep => exact h.worker hworkers hstep
  | apply hcollecting hwaiting hheight hindex =>
      exact h.apply hcollecting hwaiting hheight hindex
  | refuse hcollecting hwaiting hheight hindex =>
      have hrefused := h.refused hwaiting hheight hindex
      exact { h with
        waiting := by
          intro position other hother
          simp only [ExtTreeMap.getElem?_erase] at hother
          split at hother
          · cases hother
          · exact h.waiting _ _ hother
        ledger := by nofun
        failed := by nofun
        stopped := by nofun
        result := by
          intro result hresult
          rcases hresult with hresult | hresult
          · cases hresult
            exact hrefused
          · cases hresult }
  | discard hcollecting hwaiting hheight =>
      -- what waits was drawn, and what was drawn is in the range
      have hexpected := List.getElem?_eq_none_iff.mp hheight
      have htally : 0 < state.tally state.expected := by simp [tally, hwaiting]
      have := ((h.ledger hcollecting).lt_of_pos htally).2
      omega
  | @receive position pair inbox hcollecting hwaiting hinbox =>
      have hnew : Answered reader heights position (.ok pair) :=
        h.inbox _ _ (by rw [hinbox]; exact List.mem_cons_self)
      have hledger := h.ledger hcollecting
      have hfree : state.waiting[position]? = none := by
        by_contra hsome
        have := hledger.le_one position
        simp only [tally, hinbox, List.map_cons, List.count_cons_self,
          Option.isSome_iff_ne_none.mpr hsome, if_true] at this
        omega
      exact { h with
        inbox := by
          intro other answer hother
          exact h.inbox _ _ (by rw [hinbox]; exact List.mem_cons_of_mem _ hother)
        waiting := by
          intro other answer hother
          simp only [ExtTreeMap.getElem?_insert, Nat.compare_eq_eq] at hother
          split at hother
          · next heq =>
              cases hother
              exact heq ▸ hnew
          · exact h.waiting _ _ hother
        ledger := by
          intro _
          refine hledger.move fun other => ?_
          simp only [tally, ExtTreeMap.getElem?_insert, Nat.compare_eq_eq, hinbox, List.map_cons,
            List.count_cons, beq_iff_eq]
          by_cases heq : position = other
          · rw [if_pos heq, if_pos heq, ← heq, hfree]
            simp
            omega
          · rw [if_neg heq, if_neg heq]
            omega
        failed := by
          intro _ hfailed
          rcases h.failed hcollecting hfailed with hreports | ⟨other, cause, hsent⟩
          · exact Or.inl hreports
          · rw [hinbox] at hsent
            rcases List.mem_cons.mp hsent with hsent | hsent
            · cases hsent
            · exact Or.inr ⟨other, cause, hsent⟩
        result := by
          intro result hresult
          simp only [hcollecting] at hresult
          rcases hresult with hresult | hresult <;> cases hresult }
  | @giveUp position cause inbox hcollecting hwaiting hinbox =>
      obtain ⟨height, hheight, hblock⟩ : Answered reader heights position (.error cause) :=
        h.inbox _ _ (by rw [hinbox]; exact List.mem_cons_self)
      have hmem : height ∈ heights := List.mem_of_getElem? hheight
      exact { h with
        inbox := by
          intro other answer hother
          exact h.inbox _ _ (by rw [hinbox]; exact List.mem_cons_of_mem _ hother)
        ledger := by nofun
        failed := by nofun
        stopped := by nofun
        result := by
          intro result hresult
          rcases hresult with hresult | hresult
          · cases hresult
            intro final hfinal
            obtain ⟨pair, hpair⟩ := applyHeights_answered hfinal hmem
            rw [hblock] at hpair
            cases hpair
          · cases hresult }
  | drain hcollecting hwaiting hinbox hworkers =>
      have hdrained := h.drained hcollecting hwaiting hinbox hworkers
      exact { h with
        ledger := by nofun
        failed := by nofun
        stopped := by nofun
        result := by
          intro result hresult
          rcases hresult with hresult | hresult
          · cases hresult
            exact hdrained
          · cases hresult }
  | leave hleaving =>
      exact { h with
        inbox := by nofun
        ledger := by nofun
        failed := by nofun
        stopped := by nofun
        result := by
          intro result hresult
          rcases hresult with hresult | hresult
          · cases hresult
          · cases hresult
            exact h.result _ (Or.inl hleaving) }

/-- Every reachable state is ordered. -/
theorem Ordered.of_reachable {fetchWorkers : ℕ} (hworkers : 0 < fetchWorkers)
    (hreach : Stream.Reachable crates reader heights fetchWorkers index state) :
    Ordered crates reader heights index state :=
  invariant_of_reachable (Ordered.start hworkers) (fun _ _ h hstep => h.step hstep) hreach

/-! ## Ending -/

/-- **A batch that goes on has less to do.** -/
theorem Step.remaining_lt (hstep : Stream.Step crates reader heights state next) :
    next.remaining heights < state.remaining heights := by
  have herase : ∀ {pair : Block × Bytes32}, state.waiting[state.expected]? = some pair →
      (state.waiting.erase state.expected).size < state.waiting.size := by
    intro pair hwaiting
    have hmem : state.expected ∈ state.waiting := by
      rw [ExtTreeMap.mem_iff_isSome_getElem?, hwaiting]
      rfl
    have hpos : state.waiting.size ≠ 0 := by
      intro hzero
      rw [ExtTreeMap.eq_empty_iff_size_eq_zero.mpr hzero] at hmem
      exact ExtTreeMap.not_mem_empty hmem
    rw [ExtTreeMap.size_erase, if_pos (ExtTreeMap.mem_iff_contains.mp hmem)]
    omega
  cases hstep with
  | worker hworkers hstep =>
      have := hstep.remaining
      simp only [remaining, hworkers, List.map_append, List.map_cons, List.sum_append,
        List.sum_cons]
      omega
  | apply hcollecting hwaiting hheight hindex =>
      have := herase hwaiting
      simp only [remaining]
      omega
  | refuse hcollecting hwaiting hheight hindex =>
      have := herase hwaiting
      simp only [remaining, hcollecting]
      omega
  | discard hcollecting hwaiting hheight =>
      have := herase hwaiting
      simp only [remaining]
      omega
  | @receive position pair inbox hcollecting hwaiting hinbox =>
      have : (state.waiting.insert position pair).size ≤ state.waiting.size + 1 :=
        ExtTreeMap.size_insert_le
      simp only [remaining, hinbox, List.length_cons]
      omega
  | giveUp hcollecting hwaiting hinbox =>
      simp only [remaining, hinbox, hcollecting, List.length_cons]
      omega
  | drain hcollecting hwaiting hinbox hworkers =>
      simp only [remaining, hcollecting]
      omega
  | leave hleaving =>
      simp only [remaining, hleaving, List.length_nil]
      omega

/-- **A batch that has not returned can go on.** -/
theorem exists_step (hreturned : ∀ result, ¬ state.Returned result) :
    ∃ next, Stream.Step crates reader heights state next := by
  by_cases hworkers : ∀ worker ∈ state.workers, worker = .stopped
  · cases hcollector : state.collector with
    | collecting =>
        cases hwaiting : state.waiting[state.expected]? with
        | some pair =>
            cases hheight : heights[state.expected]? with
            | none => exact ⟨_, .discard hcollector hwaiting hheight⟩
            | some height =>
                cases hindex : applyBlock crates reader state.index height pair with
                | ok index => exact ⟨_, .apply hcollector hwaiting hheight hindex⟩
                | error cause => exact ⟨_, .refuse hcollector hwaiting hheight hindex⟩
        | none =>
            match hinbox : state.inbox with
            | [] => exact ⟨_, .drain hcollector hwaiting hinbox hworkers⟩
            | (position, .ok pair) :: inbox => exact ⟨_, .receive hcollector hwaiting hinbox⟩
            | (position, .error cause) :: inbox => exact ⟨_, .giveUp hcollector hwaiting hinbox⟩
    | leaving result => exact ⟨_, .leave hcollector⟩
    | finished result => exact absurd ⟨hcollector, hworkers⟩ (hreturned result)
  · simp only [not_forall] at hworkers
    obtain ⟨worker, hworker, hgoing⟩ := hworkers
    obtain ⟨before, after, hsplit⟩ := List.append_of_mem hworker
    obtain ⟨_, _, _, _, hstep⟩ : ∃ cursor failed inbox worker', Fetcher.Step reader heights
        state.collector.isOpen (state.cursor, state.failed, state.inbox) worker
          (cursor, failed, inbox) worker' :=
      Fetcher.exists_step hgoing
    exact ⟨_, .worker hsplit hstep⟩

/-- From every state there is a way on to the end. -/
theorem exists_returned (state : Stream E) :
    ∃ last result, Relation.ReflTransGen (Stream.Step crates reader heights) state last ∧
      last.Returned result := by
  induction hremaining : state.remaining heights using Nat.strong_induction_on
    generalizing state with
  | _ bound ih =>
      by_cases hreturned : ∃ result, state.Returned result
      · obtain ⟨result, hreturned⟩ := hreturned
        exact ⟨state, result, .refl, hreturned⟩
      · obtain ⟨next, hstep⟩ := exists_step (not_exists.mp hreturned)
        obtain ⟨last, result, hrun, hlast⟩ :=
          ih _ (hremaining ▸ hstep.remaining_lt) next rfl
        exact ⟨last, result, .head hstep hrun, hlast⟩

end Stream

/-! ## The batch -/

/-- What was handed to the index, block after block. -/
theorem foldlM_applied {index final : Index} {applied : List (ℕ × Block × Bytes32)}
    (hanswered : ∀ item ∈ applied, reader.block item.1 = .ok item.2)
    (h : applyHeights crates reader index (applied.map Prod.fst) = .ok final) :
    applied.foldlM (fun index item => applyBlock crates reader index item.1 item.2) index =
      .ok final := by
  induction applied generalizing index with
  | nil => exact h
  | cons item applied ih =>
      obtain ⟨pair, middle, hpair, hmiddle, hrest⟩ := applyHeights_cons_eq_ok.mp h
      rw [hanswered item List.mem_cons_self] at hpair
      cases hpair
      rw [List.foldlM_cons, hmiddle]
      exact ih (fun other hother => hanswered other (List.mem_cons_of_mem _ hother)) hrest

/-- **A batch is applied in order, without a gap.** After every step, however the workers and the
collector take turns, what was handed to the index is a prefix of the range in ascending order,
each block as the source answered it, and the index is the one that prefix gives when it is applied
block after block. The batch ends without an error if and only if all of the range can be applied
so, and then all of it was; it always goes on until it returns, and no run is longer than what
remained at its start. -/
theorem stream_batch_ordered {fetchWorkers : ℕ} (hworkers : 0 < fetchWorkers) (start count : ℕ)
    (index : Index) {state : Stream E}
    (hreach : Stream.Reachable crates reader (List.range' start count) fetchWorkers index state) :
    (∃ handed ≤ count, state.applied.map Prod.fst = List.range' start handed ∧
      (∀ item ∈ state.applied, reader.block item.1 = .ok item.2) ∧
      state.applied.foldlM
        (fun index item => applyBlock crates reader index item.1 item.2) index =
          .ok state.index) ∧
      (∀ result, state.Returned result →
        (result = .ok () ↔
          ∃ final, applyHeights crates reader index (List.range' start count) = .ok final) ∧
        (result = .ok () → state.applied.map Prod.fst = List.range' start count)) ∧
      ((∀ result, ¬ state.Returned result) →
        ∃ next, Stream.Step crates reader (List.range' start count) state next) ∧
      ∀ steps last, Steps (Stream.Step crates reader (List.range' start count)) steps state last →
        steps ≤ state.remaining (List.range' start count) := by
  have h := Stream.Ordered.of_reachable hworkers hreach
  have hexpected := h.expected
  rw [List.length_range'] at hexpected
  have htake : (List.range' start count).take state.expected =
      List.range' start state.expected := by
    rw [List.take_range'_of_length_ge hexpected]
  refine ⟨⟨state.expected, hexpected, ?_, h.answered, ?_⟩, ?_, Stream.exists_step, ?_⟩
  · rw [h.handed, htake]
  · exact foldlM_applied h.answered (h.handed ▸ h.current)
  · rintro result ⟨hfinished, _⟩
    have hjustified := h.result result (Or.inr hfinished)
    cases result with
    | ok done =>
        have hall : state.expected = count := by
          rw [show state.expected = _ from hjustified, List.length_range']
        refine ⟨⟨fun _ => ⟨state.index, ?_⟩, fun _ => rfl⟩, fun _ => ?_⟩
        · rw [← h.current, htake, hall]
        · rw [h.handed, htake, hall]
    | error cause =>
        refine ⟨⟨nofun, ?_⟩, nofun⟩
        rintro ⟨final, hfinal⟩
        exact absurd hfinal (hjustified final)
  · intro steps last hsteps
    have := Steps.length_le
      (@Stream.Step.remaining_lt E crates reader (List.range' start count)) hsteps
    omega

/-! ## Two batches of one block -/

namespace Sample

/-- Crates with the hash of the chain. -/
def wireCrates : WireCrates where
  sha256 bytes := ConsensusCrate.standard.sha256d bytes
  reveal :=
    { script := Envelope.Sample.library
      consensus := ConsensusCrate.standard
      isP2wpkh := fun script => script.length == 22 && script.take 2 == [0, 20]
      isP2tr := fun script => script.length == 34 && script.take 2 == [81, 32]
      verifyTaprootCommitment := fun _ _ _ => true
      signatureFromSlice := .ok
      signatureHash := fun _ _ _ => .ok zeroHash
      verifySchnorr := fun _ _ _ => .ok () }
  displayHash hash := Web.hexEncode hash.toList.reverse
  displayTxid txid := Web.hexEncode txid.bytes.toList.reverse
  displayKey key := Web.hexEncode key.serialize.toList

/-- A block without transactions, on top of the block of hash zero. -/
def tipBlock : Block :=
  ⟨⟨2, zeroHash, zeroHash, 0, 0, 0⟩, []⟩

def tipPair : Block × Bytes32 :=
  (tipBlock, ConsensusCrate.standard.blockHash tipBlock.header)

/-- A source that serves this block at every height. -/
def wireReader : Reader String where
  genesis := .ok zeroHash
  tipHeight := .ok 1
  blockHash _ := .ok tipPair.2
  block _ := .ok tipPair
  transaction _ _ _ := .error "unknown transaction"
  confirmHash _ := .ok tipPair.2

/-- An index whose last checkpoint has this hash. -/
def indexAt (hash : String) : Index where
  format := indexFormat
  genesis := Web.hexEncode zeroHash.toList.reverse
  start := 0
  blocks := [⟨0, hash⟩]
  entries := []

variable {state : Stream String} {worker worker' : Fetcher String} {cursor : ℕ} {failed : Bool}
  {inbox : List (ℕ × Answer String)}

/-- A step of the only worker. -/
theorem step_alone (hworkers : state.workers = [worker])
    (hstep : Fetcher.Step wireReader [1] state.collector.isOpen
      (state.cursor, state.failed, state.inbox) worker (cursor, failed, inbox) worker') :
    Stream.Step wireCrates wireReader [1] state
      { state with cursor, failed, inbox, workers := [worker'] } :=
  @Stream.Step.worker String wireCrates wireReader [1] state [] [] worker worker' cursor failed
    inbox hworkers hstep

/-- The batch once its only worker has fetched the block and stopped, and the block waits. -/
def fetched (index : Index) : Stream String where
  cursor := 2
  failed := false
  workers := [.stopped]
  inbox := []
  waiting := (∅ : ExtTreeMap ℕ (Block × Bytes32)).insert 0 tipPair
  expected := 0
  collector := .collecting
  index := index
  applied := []

theorem fetched_reachable (index : Index) :
    Stream.Reachable wireCrates wireReader [1] 1 index (fetched index) := by
  exact .tail (.tail (.tail (.tail (.tail (.tail (.tail .refl
    (step_alone rfl .proceed)) (step_alone rfl (.draw rfl))) (step_alone rfl (.fetch rfl)))
    (step_alone rfl (.send rfl))) (step_alone rfl .proceed)) (step_alone rfl (.exhaust rfl)))
    (.receive rfl ExtTreeMap.getElem?_empty rfl)

/-- The hash the block links to, and another one. -/
def linkedHash : String := Web.hexEncode zeroHash.toList.reverse
def orphanHash : String := Web.hexEncode (List.replicate 32 1)

theorem applyBlock_linked :
    applyBlock wireCrates wireReader (indexAt linkedHash) 1 tipPair =
      .ok ((indexAt linkedHash).extend 1 (wireCrates.displayHash tipPair.2) []) :=
  applyBlock_eq_ok.mpr ⟨rfl, by rintro previous ⟨⟩; rfl, [], rfl, rfl⟩

theorem applyBlock_orphan :
    applyBlock wireCrates wireReader (indexAt orphanHash) 1 tipPair =
      .error (.wire (.invalid "source reorg during index; retry")) := by
  have hlink : (wireCrates.displayHash tipPair.1.header.prevBlockhash == orphanHash) = false := by
    decide
  have hhash : (wireCrates.reveal.consensus.blockHash tipPair.1.header == tipPair.2) = true :=
    beq_self_eq_true _
  have hlast : (indexAt orphanHash).blocks.getLast? = some ⟨0, orphanHash⟩ := rfl
  rw [applyBlock, hhash, hlast, Option.all_some, hlink]
  rfl

/-- The block is applied, and the batch returns. -/
theorem returned_linked :
    ∃ state,
      Stream.Reachable wireCrates wireReader (List.range' 1 1) 1 (indexAt linkedHash) state ∧
        state.Returned (.ok ()) := by
  refine ⟨_, .tail (.tail (.tail (fetched_reachable (indexAt linkedHash))
    (.apply rfl ExtTreeMap.getElem?_insert_self rfl applyBlock_linked))
    (.drain rfl ?_ rfl ?_)) (.leave rfl), rfl, ?_⟩
  · show (((∅ : ExtTreeMap ℕ (Block × Bytes32)).insert 0 tipPair).erase 0)[1]? = none
    simp
  · rintro worker (_ | ⟨_, ⟨⟩⟩)
    rfl
  · rintro worker (_ | ⟨_, ⟨⟩⟩)
    rfl

/-- The block is refused, and nothing was handed to the index. -/
theorem returned_orphan :
    ∃ state,
      Stream.Reachable wireCrates wireReader (List.range' 1 1) 1 (indexAt orphanHash) state ∧
        state.Returned (.error (.wire (.invalid "source reorg during index; retry"))) ∧
          state.applied = [] := by
  refine ⟨_, .tail (.tail (fetched_reachable (indexAt orphanHash))
    (.refuse rfl ExtTreeMap.getElem?_insert_self rfl applyBlock_orphan)) (.leave rfl),
    ⟨rfl, ?_⟩, rfl⟩
  rintro worker (_ | ⟨_, ⟨⟩⟩)
  rfl

end Sample

theorem stream_batch_ordered_linked :
    ∃ state : Stream String,
      state.Returned (.ok ()) ∧ state.applied.map Prod.fst = List.range' 1 1 := by
  obtain ⟨state, hreach, hreturned⟩ := Sample.returned_linked
  obtain ⟨_, hresult, _⟩ := stream_batch_ordered (by decide) 1 1 _ hreach
  exact ⟨state, hreturned, (hresult _ hreturned).2 rfl⟩

/-- That no worker fails does not mean that the whole range is applied: a block that does not link
to the last checkpoint ends the batch. -/
theorem not_stream_batch_whole :
    ¬ ∀ (crates : WireCrates) (reader : Reader String) (fetchWorkers start count : ℕ)
      (index : Index) (state : Stream String) (result : Except (SyncError String) Unit),
      0 < fetchWorkers →
        Stream.Reachable crates reader (List.range' start count) fetchWorkers index state →
          state.Returned result →
            (∀ height ∈ List.range' start count, ∃ pair, reader.block height = .ok pair) →
              state.applied.map Prod.fst = List.range' start count := by
  intro h
  obtain ⟨state, hreach, hreturned, happlied⟩ := Sample.returned_orphan
  have := h _ _ 1 1 1 _ state _ (by decide) hreach hreturned fun _ _ => ⟨_, rfl⟩
  rw [happlied] at this
  cases this

end Urma.Wire
