import Mathlib.Data.List.Dedup
import Mathlib.Data.List.TakeWhile
import Urma.Lib.JsonText
import Urma.Runtime.DiskJournal

/-!
# What a torn line does to the log

A line that is broken off at the end of the log is not read. It stays there, however, and the next
line is written behind it: the two are one line then, which is no JSON, and the log is not read any
more.
-/

namespace Urma.Runtime.DiskJournal

open Lib

section

variable {crates : Crates}

/-! ## Lines -/

theorem takeWhile_body {body rest : Bytes} (hbody : (0x0a : UInt8) ∉ body) :
    (body ++ 0x0a :: rest).takeWhile (· != 0x0a) = body ∧
      (body ++ 0x0a :: rest).dropWhile (· != 0x0a) = 0x0a :: rest := by
  have hpass : ∀ byte ∈ body, (byte != 0x0a) = true := by
    intro byte hmem
    rw [bne_iff_ne]
    rintro rfl
    exact hbody hmem
  rw [List.takeWhile_append_of_pos hpass, List.dropWhile_append_of_pos hpass]
  simp

/-- A line within the capacity is read as it is. -/
theorem readUntil_line {body rest : Bytes} (hbody : (0x0a : UInt8) ∉ body)
    (hlength : body.length < fileLimit) : readUntil (body ++ 0x0a :: rest) = body ++ [0x0a] := by
  obtain ⟨room, hroom⟩ : ∃ room, fileLimit - body.length = room + 1 :=
    Nat.exists_eq_add_one.mpr (Nat.sub_pos_of_lt hlength)
  obtain ⟨htake, hdrop⟩ := @takeWhile_body body (rest.take room) hbody
  rw [readUntil, List.take_append, List.take_of_length_le (Nat.le_of_lt hlength), hroom,
    List.take_succ_cons, htake, hdrop]
  rfl

/-- Bytes without an end of line are read up to the capacity. -/
theorem readUntil_take {bytes : Bytes} (h : (0x0a : UInt8) ∉ bytes.take fileLimit) :
    readUntil bytes = bytes.take fileLimit := by
  have hpass : ∀ byte ∈ bytes.take fileLimit, (byte != 0x0a) = true := by
    intro byte hmem
    rw [bne_iff_ne]
    rintro rfl
    exact h hmem
  rw [readUntil]
  simp only [List.takeWhile_eq_self_iff.mpr hpass, List.dropWhile_eq_nil_iff.mpr hpass,
    List.take_nil, List.append_nil]

variable {id : String} {history : History}

theorem readObservations_nil : readObservations crates id history [] = .ok history := by
  rw [readObservations]
  rfl

/-- A line within the capacity is read, and then what follows. -/
theorem readObservations_line {body rest : Bytes} (hbody : (0x0a : UInt8) ∉ body)
    (hlength : (body ++ [0x0a]).length < fileLimit) :
    readObservations crates id history (body ++ 0x0a :: rest) =
      readLine crates id history (body ++ [0x0a]) >>= fun history =>
        readObservations crates id history rest := by
  have hread : readUntil (body ++ 0x0a :: rest) = body ++ [0x0a] := by
    apply readUntil_line hbody
    rw [List.length_append] at hlength
    exact Nat.lt_of_succ_lt hlength
  have hdrop : (body ++ 0x0a :: rest).drop (body ++ [0x0a]).length = rest := by
    rw [List.append_cons body 0x0a rest]
    exact List.drop_left
  rw [readObservations]
  simp only [hread, hdrop]
  rw [dif_neg (by simp), decide_eq_true hlength, ensureService, if_pos rfl, Except.ok_bind,
    if_neg (by simp)]

/-- A line that reaches the capacity is refused. -/
theorem readObservations_long {body rest : Bytes} (hbody : (0x0a : UInt8) ∉ body)
    (hlength : fileLimit ≤ (body ++ [0x0a]).length) :
    readObservations crates id history (body ++ 0x0a :: rest) =
      .error (.message "observation exceeds journal capacity") := by
  have hread : (readUntil (body ++ 0x0a :: rest)).length = fileLimit := by
    rw [List.length_append, List.length_singleton] at hlength
    rcases Nat.lt_or_ge body.length fileLimit with hlt | hge
    · rw [readUntil_line hbody hlt, List.length_append, List.length_singleton]
      omega
    · have htake : (body ++ 0x0a :: rest).take fileLimit = body.take fileLimit :=
        List.take_append_of_le_length hge
      rw [readUntil_take, htake, List.length_take, Nat.min_eq_left hge]
      rw [htake]
      exact fun hmem => hbody (List.mem_of_mem_take hmem)
  rw [readObservations]
  simp only [hread]
  rfl

/-- What is broken off at the end is not read, unless it reaches the capacity. -/
theorem readObservations_rest {rest : Bytes} (hrest : (0x0a : UInt8) ∉ rest) :
    readObservations crates id history rest =
      if rest.length < fileLimit then .ok history
      else .error (.message "observation exceeds journal capacity") := by
  have hread : readUntil rest = rest.take fileLimit :=
    readUntil_take fun hmem => hrest (List.mem_of_mem_take hmem)
  have hlast : (rest.take fileLimit).getLast? ≠ some 0x0a := fun hlast =>
    hrest (List.mem_of_mem_take (List.mem_of_getLast? hlast))
  rw [readObservations]
  simp only [hread, List.length_take]
  split
  · next hzero =>
    rw [if_pos]
    rw [fileLimit] at hzero ⊢
    omega
  · by_cases hlength : rest.length < fileLimit
    · rw [if_pos hlength, Nat.min_eq_right (Nat.le_of_lt hlength), decide_eq_true hlength,
        ensureService, if_pos rfl, Except.ok_bind]
    · rw [if_neg hlength, Nat.min_eq_left (Nat.le_of_not_lt hlength)]
      rfl

/-! ## Calls -/

variable (crates) in
/-- What a call has written. -/
def Call.bytes (call : Call) : Bytes :=
  (line crates call.event).take call.written

variable (crates) in
/-- A call that has written its whole line. -/
def Call.isComplete (call : Call) : Bool :=
  (line crates call.event).length ≤ call.written

variable (crates) in
/-- A call that has written a part of its line. -/
def Call.isTorn (call : Call) : Bool :=
  0 < call.written && call.written < (line crates call.event).length

variable (crates) in
/-- The rows of the observations that were completely written. -/
def rowsOf (calls : List Call) : List TransactionStatus :=
  (calls.filter (·.isComplete crates)).flatMap fun call => call.event.report.transactions

variable (crates) in
/-- What the other calls have written. -/
def restOf (calls : List Call) : Bytes :=
  (calls.filter fun call => !call.isComplete crates).flatMap (·.bytes crates)

variable (crates) in
/-- The calls after which the log can be read. -/
structure Readable (history : History) (calls : List Call) : Prop where
  /-- No line is completed after one that was torn. -/
  apart : calls.Pairwise fun before after =>
    before.isTorn crates = true → after.isComplete crates = false
  lines : ∀ call ∈ calls, call.isComplete crates = true →
    (line crates call.event).length < fileLimit
  rest : (restOf crates calls).length < fileLimit
  count : (∃ call ∈ calls, call.isComplete crates = true) →
    (insertRows history (rowsOf crates calls)).size ≤ DiskPlan.maxRecords * 2

/-- `serde_json` reads the line of an event back: an object on one line. -/
structure Crates.Serializes (crates : Crates) (event : Event) : Prop where
  object : JsonText.IsObject (crates.toVec event)
  oneLine : (0x0a : UInt8) ∉ crates.toVec event
  reads : ∃ value, crates.fromSlice (line crates event) = .ok value ∧
    crates.report value = .ok event.report

/-- `serde_json` accepts no text that leaves a bracket or a string open, or goes on after the value. -/
def Crates.Strict (crates : Crates) : Prop :=
  ∀ bytes value, crates.fromSlice bytes = .ok value → JsonText.Whole bytes

variable {call : Call} {calls : List Call}

theorem Call.bytes_complete (h : call.isComplete crates = true) :
    call.bytes crates = crates.toVec call.event ++ [0x0a] :=
  List.take_of_length_le (of_decide_eq_true h)

/-- What a torn call has written is a part of its object. -/
theorem Call.bytes_torn (h : call.isComplete crates = false) :
    call.bytes crates = (crates.toVec call.event).take call.written := by
  have hlt : call.written < (line crates call.event).length :=
    Nat.lt_of_not_le (of_decide_eq_false h)
  rw [line, List.length_append, List.length_singleton] at hlt
  exact List.take_append_of_le_length (Nat.le_of_lt_succ hlt)

theorem Call.notMem_bytes (hserial : crates.Serializes call.event)
    (h : call.isComplete crates = false) : (0x0a : UInt8) ∉ call.bytes crates := by
  rw [bytes_torn h]
  exact fun hmem => hserial.oneLine (List.mem_of_mem_take hmem)

/-- Without a complete call there is no end of line. -/
theorem notMem_flatMap (hserial : ∀ call ∈ calls, crates.Serializes call.event)
    (h : ∀ call ∈ calls, call.isComplete crates = false) :
    (0x0a : UInt8) ∉ calls.flatMap (·.bytes crates) := by
  intro hmem
  obtain ⟨call, hcall, hbyte⟩ := List.mem_flatMap.mp hmem
  exact call.notMem_bytes (hserial call hcall) (h call hcall) hbyte

theorem readLine_event {event : Event} (hserial : crates.Serializes event)
    (hplan : event.report.planId = id) :
    readLine crates id history (line crates event) =
      if (insertRows history event.report.transactions).size ≤ DiskPlan.maxRecords * 2 then
        .ok (insertRows history event.report.transactions)
      else .error (.message "observation transaction capacity exceeded") := by
  obtain ⟨value, hvalue, hreport⟩ := hserial.reads
  simp only [readLine, hvalue, hreport, hplan, beq_self_eq_true, Except.ok_bind, ensureService,
    if_true, decide_eq_true_eq]
  split <;> rfl

theorem insertRows_append (rows more : List TransactionStatus) :
    insertRows history (rows ++ more) = insertRows (insertRows history rows) more :=
  List.foldl_append

theorem size_le_insertRows (rows : List TransactionStatus) :
    history.size ≤ (insertRows history rows).size := by
  induction rows generalizing history with
  | nil => exact Nat.le_refl _
  | cons row rows ih => exact Nat.le_trans Std.ExtTreeMap.size_le_size_insert ih

/-- A torn line and the object after it are no line of the log. -/
theorem readObservations_torn (hstrict : crates.Strict) {torn rest : Bytes} {event : Event}
    {seen : History} (hserial : crates.Serializes event) (hopens : ∃ more, torn = 0x7b :: more)
    (htorn : (0x0a : UInt8) ∉ torn) :
    readObservations crates id history (torn ++ (crates.toVec event ++ 0x0a :: rest)) ≠
      .ok seen := by
  have hbody : (0x0a : UInt8) ∉ torn ++ crates.toVec event := by
    rw [List.mem_append, not_or]
    exact ⟨htorn, hserial.oneLine⟩
  intro h
  rw [← List.append_assoc] at h
  rcases Nat.lt_or_ge (torn ++ crates.toVec event ++ [0x0a]).length fileLimit with hlt | hge
  · rw [readObservations_line hbody hlt] at h
    obtain ⟨_, hline, _⟩ := Except.bind_eq_ok.mp h
    simp only [readLine, Except.bind_eq_ok] at hline
    obtain ⟨value, hvalue, _⟩ := hline
    rw [List.append_assoc] at hvalue
    exact JsonText.not_whole_append hserial.object hopens (hstrict _ _ hvalue)
  · rw [readObservations_long hbody hge] at h
    cases h

/-! ## Reading the log back -/

section Cases

variable (crates)

theorem rowsOf_complete (h : call.isComplete crates = true) :
    rowsOf crates (call :: calls) = call.event.report.transactions ++ rowsOf crates calls := by
  rw [rowsOf, List.filter_cons_of_pos h]
  rfl

theorem rowsOf_torn (h : call.isComplete crates = false) :
    rowsOf crates (call :: calls) = rowsOf crates calls := by
  rw [rowsOf, List.filter_cons_of_neg (by rw [h]; exact Bool.false_ne_true)]
  rfl

theorem restOf_complete (h : call.isComplete crates = true) :
    restOf crates (call :: calls) = restOf crates calls := by
  rw [restOf, List.filter_cons_of_neg (by rw [h]; exact Bool.false_ne_true)]
  rfl

theorem restOf_torn (h : call.isComplete crates = false) :
    restOf crates (call :: calls) = call.bytes crates ++ restOf crates calls := by
  rw [restOf, List.filter_cons_of_pos (by rw [h]; rfl)]
  rfl

/-- Without a complete call, the rest is all that was written. -/
theorem restOf_eq (h : ∀ call ∈ calls, call.isComplete crates = false) :
    restOf crates calls = calls.flatMap (·.bytes crates) := by
  rw [restOf, List.filter_eq_self.mpr]
  intro call hcall
  rw [h call hcall]
  rfl

theorem rowsOf_eq (h : ∀ call ∈ calls, call.isComplete crates = false) :
    rowsOf crates calls = [] := by
  rw [rowsOf, List.filter_eq_nil_iff.mpr]
  · rfl
  · intro call hcall
    rw [h call hcall]
    exact Bool.false_ne_true

end Cases

theorem Call.not_torn (h : call.isComplete crates = true) : call.isTorn crates = false := by
  rw [isTorn, Bool.and_eq_false_iff]
  exact .inr (decide_eq_false (Nat.not_lt.mpr (of_decide_eq_true h)))

/-- **A complete call**: its line is read, and the log can be read if what follows can. -/
theorem readable_complete (h : call.isComplete crates = true) :
    Readable crates history (call :: calls) ↔ (line crates call.event).length < fileLimit ∧
      (insertRows history call.event.report.transactions).size ≤ DiskPlan.maxRecords * 2 ∧
      Readable crates (insertRows history call.event.report.transactions) calls := by
  constructor
  · intro hread
    have hcount := hread.count ⟨call, List.mem_cons_self, h⟩
    rw [rowsOf_complete crates h, insertRows_append] at hcount
    refine ⟨hread.lines call List.mem_cons_self h,
      Nat.le_trans (size_le_insertRows _) hcount, ?_⟩
    exact
      { apart := (List.pairwise_cons.mp hread.apart).2
        lines := fun other hother => hread.lines other (List.mem_cons_of_mem call hother)
        rest := by
          have hrest := hread.rest
          rwa [restOf_complete crates h] at hrest
        count := fun _ => hcount }
  · rintro ⟨hlength, hsize, hread⟩
    exact
      { apart := by
          refine List.pairwise_cons.mpr ⟨?_, hread.apart⟩
          intro _ _ htorn
          rw [Call.not_torn h] at htorn
          cases htorn
        lines := by
          intro other hother hcomplete
          rcases List.mem_cons.mp hother with rfl | hother
          · exact hlength
          · exact hread.lines other hother hcomplete
        rest := by
          rw [restOf_complete crates h]
          exact hread.rest
        count := by
          intro _
          rw [rowsOf_complete crates h, insertRows_append]
          by_cases hany : ∃ other ∈ calls, other.isComplete crates = true
          · exact hread.count hany
          · have hnone : ∀ other ∈ calls, other.isComplete crates = false := by
              intro other hother
              rw [← Bool.not_eq_true]
              exact fun hcomplete => hany ⟨other, hother, hcomplete⟩
            rw [rowsOf_eq crates hnone]
            exact hsize }

/-- **A call that has written nothing** changes nothing. -/
theorem readable_empty (h : call.isComplete crates = false) (hempty : call.written = 0) :
    Readable crates history (call :: calls) ↔ Readable crates history calls := by
  have hbytes : call.bytes crates = [] := by rw [Call.bytes, hempty, List.take_zero]
  have htorn : call.isTorn crates = false := by
    rw [Call.isTorn, hempty]
    rfl
  have hrest : restOf crates (call :: calls) = restOf crates calls := by
    rw [restOf_torn crates h, hbytes, List.nil_append]
  constructor
  · intro hread
    exact
      { apart := (List.pairwise_cons.mp hread.apart).2
        lines := fun other hother => hread.lines other (List.mem_cons_of_mem call hother)
        rest := by rw [← hrest]; exact hread.rest
        count := by
          rintro ⟨other, hother, hcomplete⟩
          rw [← rowsOf_torn crates h]
          exact hread.count ⟨other, List.mem_cons_of_mem call hother, hcomplete⟩ }
  · intro hread
    exact
      { apart := by
          refine List.pairwise_cons.mpr ⟨?_, hread.apart⟩
          intro _ _ htears
          rw [htorn] at htears
          cases htears
        lines := by
          intro other hother hcomplete
          rcases List.mem_cons.mp hother with rfl | hother
          · rw [h] at hcomplete
            cases hcomplete
          · exact hread.lines other hother hcomplete
        rest := by rw [hrest]; exact hread.rest
        count := by
          rintro ⟨other, hother, hcomplete⟩
          rw [rowsOf_torn crates h]
          rcases List.mem_cons.mp hother with rfl | hother
          · rw [h] at hcomplete
            cases hcomplete
          · exact hread.count ⟨other, hother, hcomplete⟩ }

/-- Calls none of which is complete leave a rest only. -/
theorem readable_rest (h : ∀ call ∈ calls, call.isComplete crates = false) :
    Readable crates history calls ↔ (calls.flatMap (·.bytes crates)).length < fileLimit := by
  constructor
  · intro hread
    rw [← restOf_eq crates h]
    exact hread.rest
  · intro hlength
    have hnone : ∀ call ∈ calls, call.isComplete crates ≠ true := by
      intro call hcall
      rw [h call hcall]
      exact Bool.false_ne_true
    exact
      { apart := List.pairwise_of_forall_mem_list fun _ _ after hafter _ => h after hafter
        lines := fun call hcall hcomplete => absurd hcomplete (hnone call hcall)
        rest := by rw [restOf_eq crates h]; exact hlength
        count := fun ⟨call, hcall, hcomplete⟩ => absurd hcomplete (hnone call hcall) }

/-- A torn call that has written something begins an object. -/
theorem Call.bytes_opens (hserial : crates.Serializes call.event)
    (h : call.isComplete crates = false) (hpos : 0 < call.written) :
    ∃ more, call.bytes crates = 0x7b :: more := by
  obtain ⟨rest, hrest⟩ := hserial.object.opens
  obtain ⟨written, hwritten⟩ := Nat.exists_eq_add_one.mpr hpos
  rw [bytes_torn h, hrest, hwritten, List.take_succ_cons]
  exact ⟨_, rfl⟩

/-- **A torn call**: the log is read back as long as no call is completed after it. -/
theorem readObservations_broken (hstrict : crates.Strict) {seen : History}
    (hserial : ∀ other ∈ call :: calls, crates.Serializes other.event)
    (h : call.isComplete crates = false) (hpos : 0 < call.written) :
    readObservations crates id history ((call :: calls).flatMap (·.bytes crates)) = .ok seen ↔
      Readable crates history (call :: calls) ∧
        seen = insertRows history (rowsOf crates calls) := by
  have hcall := hserial call List.mem_cons_self
  cases hfind : calls.find? (·.isComplete crates) with
  | none =>
      have hnone : ∀ other ∈ calls, other.isComplete crates = false := by
        intro other hother
        rw [← Bool.not_eq_true]
        exact List.find?_eq_none.mp hfind other hother
      have hall : ∀ other ∈ call :: calls, other.isComplete crates = false := by
        intro other hother
        rcases List.mem_cons.mp hother with rfl | hother
        · exact h
        · exact hnone other hother
      rw [readObservations_rest (notMem_flatMap hserial hall), readable_rest hall,
        rowsOf_eq crates hnone]
      split
      · next hlength => exact ⟨fun hok => ⟨hlength, (Except.ok.inj hok).symm⟩, fun hok => by rw [hok.2]; rfl⟩
      · next hlength => exact ⟨nofun, fun hok => absurd hok.1 hlength⟩
  | some next =>
      obtain ⟨hnext, before, after, rfl, hbefore⟩ := List.find?_eq_some_iff_append.mp hfind
      have htorn : call.isTorn crates = true := by
        rw [Call.isTorn, Bool.and_eq_true]
        exact ⟨decide_eq_true hpos, decide_eq_true (Nat.lt_of_not_le (of_decide_eq_false h))⟩
      have hmem : next ∈ before ++ next :: after :=
        List.mem_append_right _ List.mem_cons_self
      -- what is written up to the line of `next` has no end of line
      have hbroken : (0x0a : UInt8) ∉ (call :: before).flatMap (·.bytes crates) := by
        apply notMem_flatMap
        · intro other hother
          exact hserial other (by
            rw [← List.cons_append]
            exact List.mem_append_left _ hother)
        · intro other hother
          rcases List.mem_cons.mp hother with rfl | hother
          · exact h
          · simpa using hbefore other hother
      obtain ⟨more, hmore⟩ := call.bytes_opens hcall h hpos
      have hrejected := @readObservations_torn crates id history hstrict
        ((call :: before).flatMap (·.bytes crates)) (after.flatMap (·.bytes crates)) next.event seen
        (hserial next (List.mem_cons_of_mem call hmem))
        ⟨more ++ before.flatMap (·.bytes crates), by rw [List.flatMap_cons, hmore]; rfl⟩ hbroken
      have hlog : (call :: (before ++ next :: after)).flatMap (·.bytes crates) =
          (call :: before).flatMap (·.bytes crates) ++ (crates.toVec next.event ++
            0x0a :: after.flatMap (·.bytes crates)) := by
        rw [← List.cons_append, List.flatMap_append, @List.flatMap_cons _ _ next after,
          Call.bytes_complete hnext, List.append_assoc]
        rfl
      constructor
      · intro hok
        rw [hlog] at hok
        exact absurd hok hrejected
      · rintro ⟨hread, _⟩
        have hno := (List.pairwise_cons.mp hread.apart).1 next hmem htorn
        rw [hnext] at hno
        cases hno

/-- **The log of some calls is read back** if it is readable, and only then. -/
theorem readObservations_calls (hstrict : crates.Strict) {seen : History}
    (hserial : ∀ call ∈ calls, crates.Serializes call.event)
    (hplan : ∀ call ∈ calls, call.event.report.planId = id) :
    readObservations crates id history (calls.flatMap (·.bytes crates)) = .ok seen ↔
      Readable crates history calls ∧ seen = insertRows history (rowsOf crates calls) := by
  induction calls generalizing history with
  | nil =>
      rw [List.flatMap_nil, readObservations_nil, readable_rest (fun _ h => (List.not_mem_nil h).elim),
        Except.ok.injEq]
      exact ⟨fun h => ⟨(show 0 < fileLimit by decide), h.symm⟩, fun h => h.2.symm⟩
  | cons call calls ih =>
      have hserialRest : ∀ other ∈ calls, crates.Serializes other.event :=
        fun other hother => hserial other (List.mem_cons_of_mem call hother)
      have hplanRest : ∀ other ∈ calls, other.event.report.planId = id :=
        fun other hother => hplan other (List.mem_cons_of_mem call hother)
      have hcall := hserial call List.mem_cons_self
      cases hcomplete : call.isComplete crates with
      | true =>
          rw [List.flatMap_cons, Call.bytes_complete hcomplete, List.append_assoc,
            readable_complete hcomplete, rowsOf_complete crates hcomplete, insertRows_append]
          rcases Nat.lt_or_ge (line crates call.event).length fileLimit with hlt | hge
          · have hline := @readLine_event crates id history call.event hcall
              (hplan call List.mem_cons_self)
            have hread := @readObservations_line crates id history (crates.toVec call.event)
              (calls.flatMap (·.bytes crates)) hcall.oneLine hlt
            show readObservations crates id history (crates.toVec call.event ++
              0x0a :: calls.flatMap (·.bytes crates)) = _ ↔ _
            rw [hread]
            show (readLine crates id history (line crates call.event) >>= fun history =>
              readObservations crates id history (calls.flatMap (·.bytes crates))) = _ ↔ _
            rw [hline]
            split
            · next hsize =>
              rw [Except.ok_bind, ih hserialRest hplanRest]
              exact ⟨fun h => ⟨⟨hlt, hsize, h.1⟩, h.2⟩, fun h => ⟨h.1.2.2, h.2⟩⟩
            · next hsize => exact ⟨nofun, fun h => absurd h.1.2.1 hsize⟩
          · have hlong := @readObservations_long crates id history (crates.toVec call.event)
              (calls.flatMap (·.bytes crates)) hcall.oneLine hge
            show readObservations crates id history (crates.toVec call.event ++
              0x0a :: calls.flatMap (·.bytes crates)) = _ ↔ _
            rw [hlong]
            exact ⟨nofun, fun h => absurd h.1.1 (Nat.not_lt.mpr hge)⟩
      | false =>
          rw [rowsOf_torn crates hcomplete]
          rcases Nat.eq_zero_or_pos call.written with hempty | hpos
          · have hbytes : call.bytes crates = [] := by rw [Call.bytes, hempty, List.take_zero]
            rw [List.flatMap_cons, hbytes, List.nil_append, readable_empty hcomplete hempty,
              ih hserialRest hplanRest]
          · exact readObservations_broken hstrict hserial hcomplete hpos

/-! ## Surviving -/

theorem logOf_eq (hne : calls ≠ []) :
    logOf crates calls = some (calls.flatMap (·.bytes crates)) := by
  have hrun : ∀ (calls : List Call) (log : Option Bytes), calls ≠ [] ∨ log ≠ none →
      calls.foldl (fun log call => observe crates call.event call.written log) log =
        some (log.getD [] ++ calls.flatMap (·.bytes crates)) := by
    intro calls
    induction calls with
    | nil =>
        intro log hlog
        obtain ⟨bytes, rfl⟩ := Option.ne_none_iff_exists'.mp (hlog.resolve_left fun h => h rfl)
        rw [List.flatMap_nil, List.append_nil]
        rfl
    | cons call calls ih =>
        intro log _
        have hsome : observe crates call.event call.written log ≠ none := nofun
        rw [List.foldl_cons, ih _ (.inr hsome), List.flatMap_cons, ← List.append_assoc]
        rfl
  exact hrun calls none (.inl hne)

theorem getElem?_insertRow (history : History) (row : TransactionStatus) (txid : Txid) :
    (history.insert row.txid row.presence)[txid]? =
      if row.txid = txid then some row.presence else history[txid]? := by
  rw [Std.ExtTreeMap.getElem?_insert]
  by_cases h : row.txid = txid
  · rw [if_pos h, if_pos (Std.LawfulEqCmp.compare_eq_iff_eq.mpr h)]
  · rw [if_neg h, if_neg fun heq => h (Std.LawfulEqCmp.compare_eq_iff_eq.mp heq)]

/-- What the last of some rows says of a transaction. -/
def lastPresence (history : History) (rows : List TransactionStatus) (txid : Txid) :
    Option Presence :=
  match rows.reverse.find? (·.txid = txid) with
  | some row => some row.presence
  | none => history[txid]?

theorem getElem?_insertRows (rows : List TransactionStatus) (txid : Txid) :
    (insertRows history rows)[txid]? = lastPresence history rows txid := by
  induction rows using List.reverseRecOn with
  | nil => rfl
  | append_singleton rows row ih =>
      rw [insertRows_append]
      show ((insertRows history rows).insert row.txid row.presence)[txid]? = _
      rw [getElem?_insertRow, lastPresence, List.reverse_append, List.reverse_singleton,
        List.singleton_append, List.find?_cons]
      by_cases h : row.txid = txid
      · rw [if_pos h, decide_eq_true h]
      · rw [if_neg h, decide_eq_false h, ih, lastPresence]

theorem mem_insertRows (rows : List TransactionStatus) (txid : Txid) :
    txid ∈ insertRows history rows ↔ txid ∈ history ∨ txid ∈ rows.map (·.txid) := by
  induction rows using List.reverseRecOn with
  | nil =>
      rw [List.map_nil]
      exact ⟨.inl, fun h => h.resolve_right List.not_mem_nil⟩
  | append_singleton rows row ih =>
      rw [insertRows_append]
      show txid ∈ (insertRows history rows).insert row.txid row.presence ↔ _
      rw [Std.ExtTreeMap.mem_insert, Std.LawfulEqCmp.compare_eq_iff_eq, ih, List.map_append,
        List.mem_append, List.map_singleton, List.mem_singleton]
      constructor
      · rintro (rfl | h | h)
        · exact .inr (.inr rfl)
        · exact .inl h
        · exact .inr (.inl h)
      · rintro (h | h | rfl)
        · exact .inr (.inl h)
        · exact .inr (.inr h)
        · exact .inl rfl

/-- What is held after some rows is counted by their transactions. -/
theorem size_insertRows (rows : List TransactionStatus) :
    (insertRows history rows).size = (history.keys ++ rows.map (·.txid)).dedup.length := by
  rw [← Std.ExtTreeMap.length_keys]
  apply List.Perm.length_eq
  apply (List.perm_ext_iff_of_nodup Std.ExtTreeMap.nodup_keys (List.nodup_dedup _)).mpr
  intro txid
  rw [Std.ExtTreeMap.mem_keys, mem_insertRows, List.mem_dedup, List.mem_append,
    Std.ExtTreeMap.mem_keys]

end

section

variable (crates : Crates) (base : History) (calls : List Call)

/-- What a publication relies on when it is resumed: for every transaction, the log gives what the
last observation says that was completely written, and the journal where there is none. -/
def Survives (journal : Option Bytes) (id : String) : Prop :=
  ∃ seen, history crates journal (logOf crates calls) id = .ok seen ∧
    ∀ txid, seen[txid]? = lastPresence base (rowsOf crates calls) txid

/-- The calls whose log can be read back. -/
structure Unbroken : Prop where
  /-- No line is completed after one that was torn. -/
  apart : calls.Pairwise fun before after =>
    before.isTorn crates = true → after.isComplete crates = false
  lines : ∀ call ∈ calls, call.isComplete crates = true →
    (line crates call.event).length < fileLimit
  rest : (restOf crates calls).length < fileLimit
  count : (∃ call ∈ calls, call.isComplete crates = true) →
    (base.keys ++ (rowsOf crates calls).map (·.txid)).dedup.length ≤ DiskPlan.maxRecords * 2

variable {crates base calls}

theorem readable_iff : Readable crates base calls ↔ Unbroken crates base calls := by
  constructor
  · intro h
    refine ⟨h.apart, h.lines, h.rest, ?_⟩
    intro hany
    rw [← size_insertRows]
    exact h.count hany
  · intro h
    refine ⟨h.apart, h.lines, h.rest, ?_⟩
    intro hany
    rw [size_insertRows]
    exact h.count hany

/-- The log is read back, or the publication is not resumed. -/
theorem history_logOf (hstrict : crates.Strict)
    {journal : Option Bytes} {id : String} (hjournal : readJournal crates journal id = .ok base)
    (hserial : ∀ call ∈ calls, crates.Serializes call.event)
    (hplan : ∀ call ∈ calls, call.event.report.planId = id) {seen : History} :
    history crates journal (logOf crates calls) id = .ok seen ↔
      Unbroken crates base calls ∧ seen = insertRows base (rowsOf crates calls) := by
  have hread := @readObservations_calls crates id base calls hstrict seen hserial hplan
  rw [readable_iff] at hread
  rw [← hread]
  rcases eq_or_ne calls [] with rfl | hne
  · rw [List.flatMap_nil, readObservations_nil, history, hjournal]
    rfl
  · rw [logOf_eq hne, history, hjournal]
    rfl

/-- **The log survives torn lines** that no line is completed after, and no others. -/
theorem observations_survive (crates : Crates) (hstrict : crates.Strict) (journal : Option Bytes)
    (id : String) (base : History) (hjournal : readJournal crates journal id = .ok base)
    (calls : List Call) (hserial : ∀ call ∈ calls, crates.Serializes call.event)
    (hplan : ∀ call ∈ calls, call.event.report.planId = id) :
    Survives crates base calls journal id ↔ Unbroken crates base calls := by
  constructor
  · rintro ⟨seen, hseen, _⟩
    exact ((history_logOf hstrict hjournal hserial hplan).mp hseen).1
  · intro hunbroken
    exact ⟨insertRows base (rowsOf crates calls),
      (history_logOf hstrict hjournal hserial hplan).mpr ⟨hunbroken, rfl⟩,
      getElem?_insertRows (rowsOf crates calls)⟩

end

/-! ## A log of one transaction -/

namespace Sample

/-- The transaction that is observed. -/
def txid : Txid := ⟨Vector.replicate 32 0x11⟩

/-- What is seen of it. -/
def event : Event where
  source := "local_validating_node"
  chain := .litecoinMainnet
  report :=
    { planId := "ab"
      rootTxid := "cd"
      complete := false
      confirmed := false
      blockedReason := ""
      transactions := [⟨txid, .mempool⟩] }

/-- The text of the object of the event. -/
def text : Bytes :=
  ("\x7b\"chain\":\"litecoin-mainnet\",\"report\":\x7b\"blocked_reason\":\"\",\"complete\":false," ++
    "\"confirmed\":false,\"plan_id\":\"ab\",\"root_txid\":\"cd\",\"transactions\":[\x7b\"presence\":" ++
    "\x7b\"status\":\"mempool\"\x7d,\"txid\":\"" ++
    "1111111111111111111111111111111111111111111111111111111111111111\"\x7d]\x7d," ++
    "\"source\":\"local_validating_node\"\x7d").toUTF8.toList

/-- Crates that know the line of the event. -/
def crates : Crates where
  Value := Unit
  fromSlice bytes :=
    if bytes = text ++ [0x0a] then .ok () else .error (.message "trailing characters")
  report _ := .ok event.report
  reportFromSlice _ := .error (.message "EOF while parsing a value")
  toVec _ := text

theorem text_object : JsonText.IsObject text where
  opens := ⟨text.drop 2, by decide +kernel⟩
  closes := by decide +kernel

theorem text_length : text.length = 284 := by decide +kernel

theorem crates_strict : crates.Strict := by
  intro bytes value h
  simp only [crates] at h
  split at h
  · next heq =>
    rw [heq]
    exact (by decide +kernel : JsonText.Whole (text ++ [0x0a]))
  · cases h

theorem crates_serializes : crates.Serializes event where
  object := text_object
  oneLine := (by decide +kernel : (0x0a : UInt8) ∉ text)
  reads := ⟨(), if_pos rfl, rfl⟩

/-- The line of the event, written this far. -/
def write (written : ℕ) : Call :=
  ⟨event, written⟩

theorem calls_serialize (writes : List ℕ) :
    (∀ call ∈ writes.map write, crates.Serializes call.event) ∧
      ∀ call ∈ writes.map write, call.event.report.planId = "ab" := by
  constructor
  · intro call hcall
    obtain ⟨_, _, rfl⟩ := List.mem_map.mp hcall
    exact crates_serializes
  · intro call hcall
    obtain ⟨_, _, rfl⟩ := List.mem_map.mp hcall
    rfl

theorem isComplete_write (written : ℕ) : (write written).isComplete crates = decide (285 ≤ written) := by
  show decide ((text ++ [0x0a]).length ≤ written) = _
  rw [List.length_append, text_length]
  rfl

theorem isTorn_write (written : ℕ) :
    (write written).isTorn crates = (decide (0 < written) && decide (written < 285)) := by
  show (decide (0 < written) && decide (written < (text ++ [0x0a]).length)) = _
  rw [List.length_append, text_length]
  rfl

theorem line_length : (line crates event).length = 285 := by
  show (text ++ [0x0a]).length = 285
  rw [List.length_append, text_length]
  rfl

/-- A whole line, and a torn one after it. -/
theorem unbroken : Unbroken crates ∅ ([285, 40].map write) where
  apart := by
    refine List.pairwise_cons.mpr ⟨?_, List.pairwise_singleton _ _⟩
    intro _ _ htorn
    rw [isTorn_write] at htorn
    cases htorn
  lines := by
    intro call hcall _
    obtain ⟨_, _, rfl⟩ := List.mem_map.mp hcall
    show (line crates event).length < fileLimit
    rw [line_length, fileLimit]
    decide
  rest := by
    have hwhole := isComplete_write 285
    have htorn := isComplete_write 40
    rw [List.map_cons, List.map_singleton, restOf_complete crates hwhole,
      restOf_torn crates htorn]
    show ((line crates event).take 40 ++ []).length < fileLimit
    rw [List.append_nil, List.length_take, line_length, fileLimit]
    decide
  count := by
    intro _
    have hwhole := isComplete_write 285
    have htorn := isComplete_write 40
    rw [List.map_cons, List.map_singleton, rowsOf_complete crates hwhole, rowsOf_torn crates htorn]
    decide

end Sample

/-- A whole line, and a torn one after it: the publication is resumed. -/
theorem observations_survive_sample :
    Survives Sample.crates ∅ ([285, 40].map Sample.write) none "ab" :=
  (observations_survive Sample.crates Sample.crates_strict none "ab" ∅ rfl
    ([285, 40].map Sample.write) (Sample.calls_serialize [285, 40]).1
    (Sample.calls_serialize [285, 40]).2).mpr Sample.unbroken

/-- A line of which one byte was written, and a whole line after it: the publication cannot be
resumed. -/
theorem observations_survive_false : ∃ (crates : Crates) (event : Event),
    crates.Strict ∧ crates.Serializes event ∧
      ¬ Survives crates ∅ [⟨event, 1⟩, ⟨event, (line crates event).length⟩] none
        event.report.planId := by
  refine ⟨Sample.crates, Sample.event, Sample.crates_strict, Sample.crates_serializes, ?_⟩
  rw [Sample.line_length]
  rintro ⟨seen, hseen, _⟩
  have hunbroken := ((history_logOf Sample.crates_strict rfl (Sample.calls_serialize [1, 285]).1
    (Sample.calls_serialize [1, 285]).2).mp hseen).1
  have hincomplete := (List.pairwise_cons.mp hunbroken.apart).1 (Sample.write 285)
    List.mem_cons_self (Sample.isTorn_write 1)
  rw [Sample.isComplete_write] at hincomplete
  cases hincomplete

end Urma.Runtime.DiskJournal
