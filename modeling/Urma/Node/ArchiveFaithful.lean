import Urma.Names.Run
import Urma.Node.NamesArchive

/-!
# A names archive is a faithful snapshot

Whatever a server answers, the pages that are read join to one sorted list with one metadata, and
the maps of the view hold its entries and no others. A server that pages a sorted list is read to the
end, and the view then resolves every name as the registry of that list does.
-/

namespace Urma.Node

open Std Names Urma.Lib.Paging

/-! ## The order of the keys -/

instance : TransCmp orderCmp :=
  inferInstanceAs (TransCmp (compareLex (compareOn Prod.fst) (compareOn Prod.snd)))

instance : IsTrans NamesKey NamesKey.Before where
  trans key middle other h₁ h₂ := by
    have h₁ : orderCmp key.orderKey middle.orderKey = .lt := h₁
    have h₂ : orderCmp middle.orderKey other.orderKey = .lt := h₂
    exact TransCmp.lt_trans h₁ h₂

instance : Std.Irrefl NamesKey.Before where
  irrefl key h := by
    have heq : orderCmp key.orderKey key.orderKey = .eq := ReflCmp.compare_self
    rw [NamesKey.Before, heq] at h
    cases h

/-! ## Checks -/

section Checks

variable {message : String} {condition : Bool}

theorem check_eq_ok {value : Unit} : check condition message = .ok value ↔ condition = true := by
  cases condition with
  | true => exact ⟨fun _ => rfl, fun _ => rfl⟩
  | false => exact ⟨fun h => (by cases h), fun h => (by cases h)⟩

theorem remaining_eq_ok {value : Unit} : remaining condition = .ok value ↔ condition = true := by
  cases condition with
  | true => exact ⟨fun _ => rfl, fun _ => rfl⟩
  | false => exact ⟨fun h => (by cases h), fun h => (by cases h)⟩

theorem orRefused_eq_ok {value : Unit} : orRefused condition = .ok value ↔ condition = true := by
  cases condition with
  | true => exact ⟨fun _ => rfl, fun _ => rfl⟩
  | false => exact ⟨fun h => (by cases h), fun h => (by cases h)⟩

theorem someOrRefused_eq_ok {α : Type} {found : Option α} {a : α} :
    someOrRefused found = .ok a ↔ found = some a := by
  cases found with
  | none => exact ⟨fun h => (by cases h), fun h => (by cases h)⟩
  | some b => exact ⟨fun h => (by cases h; rfl), fun h => (by cases h; rfl)⟩

theorem okOrRefused_eq_ok {ε α : Type} {result : Except ε α} {a : α} :
    okOrRefused result = .ok a ↔ result = .ok a := by
  cases result with
  | error e => exact ⟨fun h => (by cases h), fun h => (by cases h)⟩
  | ok b => exact ⟨fun h => (by cases h; rfl), fun h => (by cases h; rfl)⟩

end Checks

/-! ## What the client accepts -/

/-- A page follows a cursor: its entries do, and its continuation is its last key. -/
structure NamesPage.Follows (page : NamesPage) (genesis : Txid) (cursor : Option NamesCursor) :
    Prop where
  after : After NamesEntry.key NamesKey.Before (cursor.map NamesCursor.after) page.entries
  next : ∀ next ∈ page.next, next.genesis = genesis ∧ next.snapshot = page.snapshot ∧
    ∃ last ∈ page.entries.getLast?, next.after = last.key

section Client

variable {J : Type} {serde : Serde J} {inTime : ℕ → Bool} {page : NamesPage} {genesis : Txid}
  {cursor : Option NamesCursor}

/-- **Entries that are accepted** come in order after the key before them. -/
theorem validateEntries_after {entries : List NamesEntry} {clock : ℕ} {previous : Option NamesKey}
    (h : validateEntries serde inTime entries clock previous = .ok ()) :
    After NamesEntry.key NamesKey.Before previous entries := by
  induction entries generalizing clock previous with
  | nil => exact After.nil previous
  | cons entry entries ih =>
      obtain ⟨_, _, h⟩ := Except.bind_eq_ok.mp h
      obtain ⟨_, horder, h⟩ := Except.bind_eq_ok.mp h
      obtain ⟨_, _, h⟩ := Except.bind_eq_ok.mp h
      refine After.cons ?_ (ih h)
      intro after hafter
      have horder := check_eq_ok.mp horder
      rw [hafter] at horder
      exact of_decide_eq_true horder

/-- Entries in order, in time and within the bounds, are accepted. -/
theorem validateEntries_eq_ok {entries : List NamesEntry} {clock : ℕ} {previous : Option NamesKey}
    (hafter : After NamesEntry.key NamesKey.Before previous entries)
    (hclock : ∀ clock, inTime clock = true)
    (hbound : ∀ entry ∈ entries, entryBound serde entry = .ok ()) :
    validateEntries serde inTime entries clock previous = .ok () := by
  induction entries generalizing clock previous with
  | nil => rfl
  | cons entry entries ih =>
      obtain ⟨hfirst, hothers⟩ := hafter.uncons
      have horder : (previous.all fun previous => previous.Before entry.key) = true := by
        cases previous with
        | none => rfl
        | some previous => exact decide_eq_true (hfirst previous rfl)
      refine Except.bind_eq_ok.mpr ⟨(), remaining_eq_ok.mpr (hclock clock), ?_⟩
      refine Except.bind_eq_ok.mpr ⟨(), check_eq_ok.mpr horder, ?_⟩
      refine Except.bind_eq_ok.mpr ⟨(), hbound entry List.mem_cons_self, ?_⟩
      exact ih hothers fun other hother => hbound other (List.mem_cons_of_mem entry hother)

theorem validateNext_eq_ok : validateNext page genesis = .ok () ↔
    ∀ next ∈ page.next, next.genesis = genesis ∧ next.snapshot = page.snapshot ∧
      ∃ last ∈ page.entries.getLast?, next.after = last.key := by
  unfold validateNext
  cases page.next with
  | none =>
      refine ⟨fun _ next hnext => ?_, fun _ => rfl⟩
      cases hnext
  | some next =>
      cases hlast : page.entries.getLast? with
      | none =>
          refine ⟨fun h => (by cases h), fun h => ?_⟩
          obtain ⟨_, _, last, hmem, _⟩ := h next rfl
          cases hmem
      | some last =>
          rw [check_eq_ok]
          constructor
          · intro h other hother
            cases hother
            simp only [Bool.and_eq_true, decide_eq_true_eq] at h
            exact ⟨h.1.1, h.1.2, last, rfl, h.2⟩
          · intro h
            obtain ⟨hgenesis, hsnapshot, other, hother, hafter⟩ := h next rfl
            cases hother
            simp only [Bool.and_eq_true, decide_eq_true_eq]
            exact ⟨⟨hgenesis, hsnapshot⟩, hafter⟩

/-- **A page that is accepted** follows the cursor. -/
theorem validateNamesPage_follows {limit : ℕ}
    (h : validateNamesPage serde inTime page genesis cursor limit = .ok ()) :
    page.Follows genesis cursor := by
  unfold validateNamesPage at h
  obtain ⟨_, _, h⟩ := Except.bind_eq_ok.mp h
  obtain ⟨_, _, h⟩ := Except.bind_eq_ok.mp h
  obtain ⟨_, _, h⟩ := Except.bind_eq_ok.mp h
  obtain ⟨_, _, h⟩ := Except.bind_eq_ok.mp h
  obtain ⟨_, _, h⟩ := Except.bind_eq_ok.mp h
  obtain ⟨_, _, h⟩ := Except.bind_eq_ok.mp h
  cases hrules : page.rules.validate with
  | error e =>
      rw [hrules] at h
      cases h
  | ok _ =>
      rw [hrules] at h
      obtain ⟨_, hentries, h⟩ := Except.bind_eq_ok.mp h
      obtain ⟨_, hnext, h⟩ := Except.bind_eq_ok.mp h
      exact ⟨validateEntries_after hentries, validateNext_eq_ok.mp hnext⟩

/-- The server answers a request with a page. -/
def Server.Gives (server : Server) (request : ℕ) (cursor : Option NamesCursor) (page : NamesPage) :
    Prop :=
  ∃ response, server request cursor = .ok response ∧ response.page = some page

/-- **The client** hands on what the server gives, if it follows the cursor. -/
theorem namesView_follows {server : Server} {request limit : ℕ}
    (h : namesView serde server inTime request genesis cursor limit = .ok page) :
    server.Gives request cursor page ∧ page.Follows genesis cursor := by
  unfold namesView at h
  obtain ⟨_, _, h⟩ := Except.bind_eq_ok.mp h
  obtain ⟨_, _, h⟩ := Except.bind_eq_ok.mp h
  obtain ⟨response, hresponse, h⟩ := Except.bind_eq_ok.mp h
  obtain ⟨_, _, h⟩ := Except.bind_eq_ok.mp h
  obtain ⟨_, _, h⟩ := Except.bind_eq_ok.mp h
  cases hpage : response.page with
  | none =>
      rw [hpage] at h
      cases h
  | some given =>
      rw [hpage] at h
      obtain ⟨_, _, h⟩ := Except.bind_eq_ok.mp h
      obtain ⟨_, hvalid, h⟩ := Except.bind_eq_ok.mp h
      obtain ⟨_, _, h⟩ := Except.bind_eq_ok.mp h
      cases h
      exact ⟨⟨response, hresponse, hpage⟩, validateNamesPage_follows hvalid⟩

end Client

/-! ## Collecting the entries -/

/-- The maps hold these entries and no others, none of them twice. -/
structure Rows.Holds (rows : Rows) (entries : List NamesEntry) : Prop where
  names : ∀ name state, rows.names[name]? = some state ↔ .name name state ∈ entries
  pending : ∀ txid record, rows.pending[txid]? = some record ↔ .pending txid record ∈ entries
  size : rows.names.size + rows.pending.size = entries.length

namespace Rows.Holds

variable {rows rows' : Rows} {entries : List NamesEntry} {entry : NamesEntry}

theorem empty : Rows.Holds ⟨∅, ∅⟩ [] where
  names name state := by
    rw [ExtTreeMap.getElem?_empty]
    exact ⟨fun h => (by cases h), fun h => absurd h List.not_mem_nil⟩
  pending txid record := by
    rw [ExtTreeMap.getElem?_empty]
    exact ⟨fun h => (by cases h), fun h => absurd h List.not_mem_nil⟩
  size := rfl

/-- One map of the two: a new key with its value. -/
theorem getElem?_insert_iff {K V : Type} [Ord K] [TransOrd K] [LawfulEqOrd K]
    {map : ExtTreeMap K V} {row : K → V → NamesEntry} {key : K} {value : V}
    (hrow : ∀ k v k' v', row k v = row k' v' → k = k' ∧ v = v')
    (hmap : ∀ k v, map[k]? = some v ↔ row k v ∈ entries) (hnew : map.contains key = false)
    (k : K) (v : V) :
    (map.insert key value)[k]? = some v ↔ row k v ∈ entries ++ [row key value] := by
  rw [ExtTreeMap.getElem?_insert, List.mem_append, List.mem_singleton]
  by_cases hkey : compare key k = .eq
  · have heq : key = k := LawfulEqCmp.eq_of_compare hkey
    subst heq
    have habsent : map[key]? = none := by
      rw [ExtTreeMap.contains_eq_isSome_getElem?] at hnew
      exact Option.not_isSome_iff_eq_none.mp (by rw [hnew]; exact Bool.false_ne_true)
    rw [if_pos hkey]
    constructor
    · intro h
      cases h
      exact Or.inr rfl
    · intro h
      rcases h with h | h
      · have hfound := (hmap key v).mpr h
        rw [habsent] at hfound
        cases hfound
      · rw [(hrow key v key value h).2]
  · rw [if_neg hkey, hmap]
    constructor
    · intro h
      exact Or.inl h
    · intro h
      rcases h with h | h
      · exact h
      · have heq : k = key := (hrow k v key value h).1
        rw [heq] at hkey
        exact absurd ReflCmp.compare_self hkey

/-- **An entry that goes in** is held with the others. -/
theorem insert (h : rows.Holds entries) (hinsert : rows.insertEntry entry = .ok rows') :
    rows'.Holds (entries ++ [entry]) := by
  cases entry with
  | name label state =>
      rw [Rows.insertEntry] at hinsert
      split at hinsert
      · cases hinsert
      next hnew =>
      cases hinsert
      have hnew : rows.names.contains label = false := Bool.eq_false_of_not_eq_true hnew
      refine ⟨?_, ?_, ?_⟩
      · exact getElem?_insert_iff (fun _ _ _ _ heq => by cases heq; exact ⟨rfl, rfl⟩) h.names hnew
      · intro txid record
        rw [h.pending, List.mem_append, List.mem_singleton]
        exact ⟨Or.inl, fun hmem => hmem.resolve_right fun heq => by cases heq⟩
      · have hsize := h.size
        rw [ExtTreeMap.size_insert, hnew, List.length_append, List.length_singleton]
        simp only [Bool.false_eq_true, if_false]
        omega
  | pending txid record =>
      rw [Rows.insertEntry] at hinsert
      split at hinsert
      · cases hinsert
      next hnew =>
      cases hinsert
      have hnew : rows.pending.contains txid = false := Bool.eq_false_of_not_eq_true hnew
      refine ⟨?_, ?_, ?_⟩
      · intro label state
        rw [h.names, List.mem_append, List.mem_singleton]
        exact ⟨Or.inl, fun hmem => hmem.resolve_right fun heq => by cases heq⟩
      · exact getElem?_insert_iff (fun _ _ _ _ heq => by cases heq; exact ⟨rfl, rfl⟩) h.pending
          hnew
      · have hsize := h.size
        rw [ExtTreeMap.size_insert, hnew, List.length_append, List.length_singleton]
        simp only [Bool.false_eq_true, if_false]
        omega

/-- **A whole page** that goes in is held with the others. -/
theorem insertAll {page : List NamesEntry} (h : rows.Holds entries)
    (hinsert : rows.insertEntries page = .ok rows') : rows'.Holds (entries ++ page) := by
  induction page generalizing rows entries with
  | nil =>
      cases hinsert
      rw [List.append_nil]
      exact h
  | cons entry page ih =>
      obtain ⟨middle, hentry, hpage⟩ := Except.bind_eq_ok.mp hinsert
      rw [List.append_cons]
      exact ih (h.insert hentry) hpage

/-- An entry with a new key goes in. -/
theorem insert_of_new (h : rows.Holds entries) (hnew : entry.key ∉ entries.map NamesEntry.key) :
    ∃ rows', rows.insertEntry entry = .ok rows' := by
  cases entry with
  | name label state =>
      have habsent : ¬ rows.names.contains label = true := by
        intro hcontains
        rw [ExtTreeMap.contains_eq_isSome_getElem?] at hcontains
        obtain ⟨found, hfound⟩ := Option.isSome_iff_exists.mp hcontains
        exact hnew (List.mem_map.mpr ⟨_, (h.names label found).mp hfound, rfl⟩)
      rw [Rows.insertEntry, if_neg habsent]
      exact ⟨_, rfl⟩
  | pending txid record =>
      have habsent : ¬ rows.pending.contains txid = true := by
        intro hcontains
        rw [ExtTreeMap.contains_eq_isSome_getElem?] at hcontains
        obtain ⟨found, hfound⟩ := Option.isSome_iff_exists.mp hcontains
        exact hnew (List.mem_map.mpr ⟨_, (h.pending txid found).mp hfound, rfl⟩)
      rw [Rows.insertEntry, if_neg habsent]
      exact ⟨_, rfl⟩

/-- A page of new keys goes in. -/
theorem insertAll_of_new {page : List NamesEntry} (h : rows.Holds entries)
    (hnodup : ((entries ++ page).map NamesEntry.key).Nodup) :
    ∃ rows', rows.insertEntries page = .ok rows' := by
  induction page generalizing rows entries with
  | nil => exact ⟨rows, rfl⟩
  | cons entry page ih =>
      have hnew : entry.key ∉ entries.map NamesEntry.key := by
        rw [List.map_append, List.map_cons] at hnodup
        intro hmem
        exact List.disjoint_of_nodup_append hnodup hmem List.mem_cons_self
      obtain ⟨middle, hmiddle⟩ := h.insert_of_new hnew
      rw [List.append_cons] at hnodup
      obtain ⟨rows', hrows'⟩ := ih (h.insert hmiddle) hnodup
      exact ⟨rows', Except.bind_eq_ok.mpr ⟨middle, hmiddle, hrows'⟩⟩

/-- **Maps that hold the same entries** are the same. -/
theorem eq {other : Rows} (h : rows.Holds entries) (hother : other.Holds entries) :
    rows = other := by
  have hnames : rows.names = other.names := by
    apply ExtTreeMap.ext_getElem?
    intro name
    apply Option.ext
    intro state
    rw [h.names, hother.names]
  have hpending : rows.pending = other.pending := by
    apply ExtTreeMap.ext_getElem?
    intro txid
    apply Option.ext
    intro record
    rw [h.pending, hother.pending]
  cases rows
  cases other
  cases hnames
  cases hpending
  rfl

end Rows.Holds

/-! ## The rounds of a traversal -/

/-- The first pages of a traversal: what the server gives to a request, and on from each
continuation. -/
inductive Visits (server : Server) : ℕ → Option NamesCursor → List NamesPage → Prop
  | none {request : ℕ} {cursor : Option NamesCursor} : Visits server request cursor []
  | last {request : ℕ} {cursor : Option NamesCursor} {page : NamesPage} :
      server.Gives request cursor page → page.next = .none → Visits server request cursor [page]
  | more {request : ℕ} {cursor : Option NamesCursor} {page : NamesPage} {next : NamesCursor}
      {pages : List NamesPage} :
      server.Gives request cursor page → page.next = some next →
      Visits server (request + 1) (some next) pages → Visits server request cursor (page :: pages)

/-- The entries of all pages. -/
def entriesOf (pages : List NamesPage) : List NamesEntry :=
  pages.flatMap NamesPage.entries

theorem entriesOf_concat (pages : List NamesPage) (page : NamesPage) :
    entriesOf (pages ++ [page]) = entriesOf pages ++ page.entries := by
  rw [entriesOf, List.flatMap_append, List.flatMap_singleton]
  rfl

section Rounds

variable {J : Type} [DecidableEq J] {serde : Serde J} {server : Server} {clock : Clock}
  {genesis : Txid} {chainGenesis : Bytes32} {progress progress' : Progress J} {page : NamesPage}

/-- What is asked of a page, and what is collected of it. -/
structure Collected (serde : Serde J) (chainGenesis : Bytes32) (progress progress' : Progress J)
    (page : NamesPage) : Prop where
  chain : page.chainGenesis = chainGenesis
  rules : page.rules.validate = .ok ()
  same : ∀ previous ∈ progress.metadata, previous = metadataOf serde page
  rows : progress.count + page.entries.length ≤ maxRows
  bytes : progress.bytes + serde.pageBytes page ≤ maxBytes
  collected : ∃ rows, progress.rows.insertEntries page.entries = .ok rows ∧
    progress' =
      { progress with
        metadata := some (metadataOf serde page)
        rows := rows
        count := progress.count + page.entries.length
        bytes := progress.bytes + serde.pageBytes page }

/-- **A page is collected** if what is asked of it holds. -/
theorem collect_eq_ok :
    collect serde chainGenesis progress page = .ok progress' ↔
      Collected serde chainGenesis progress progress' page := by
  unfold collect
  constructor
  · intro h
    obtain ⟨_, hchain, h⟩ := Except.bind_eq_ok.mp h
    obtain ⟨_, hrules, h⟩ := Except.bind_eq_ok.mp h
    obtain ⟨_, hsame, h⟩ := Except.bind_eq_ok.mp h
    obtain ⟨count, hcount, h⟩ := Except.bind_eq_ok.mp h
    obtain ⟨bytes, hbytes, h⟩ := Except.bind_eq_ok.mp h
    obtain ⟨_, hlimits, h⟩ := Except.bind_eq_ok.mp h
    obtain ⟨rows, hrows, h⟩ := Except.bind_eq_ok.mp h
    have hcount := (checkedAdd_eq_some.mp (someOrRefused_eq_ok.mp hcount)).2
    have hbytes := (checkedAdd_eq_some.mp (someOrRefused_eq_ok.mp hbytes)).2
    subst hcount hbytes
    have hlimits := orRefused_eq_ok.mp hlimits
    rw [Bool.and_eq_true, decide_eq_true_eq, decide_eq_true_eq] at hlimits
    have hsame := orRefused_eq_ok.mp hsame
    rw [Option.all_eq_true] at hsame
    cases h
    exact ⟨of_decide_eq_true (orRefused_eq_ok.mp hchain), okOrRefused_eq_ok.mp hrules,
      fun previous hprevious => of_decide_eq_true (hsame previous hprevious), hlimits.1, hlimits.2,
      rows, hrows, rfl⟩
  · intro h
    obtain ⟨rows, hrows, rfl⟩ := h.collected
    have hmaxRows : maxRows ≤ u64Max := by decide
    have hmaxBytes : maxBytes ≤ u64Max := by decide
    have hsame : (progress.metadata.all fun previous => previous = metadataOf serde page) = true :=
      (Option.all_eq_true _ _).mpr fun previous hprevious => decide_eq_true (h.same previous hprevious)
    have hlimits : (decide (progress.count + page.entries.length ≤ maxRows) &&
        decide (progress.bytes + serde.pageBytes page ≤ maxBytes)) = true := by
      rw [Bool.and_eq_true, decide_eq_true_eq, decide_eq_true_eq]
      exact ⟨h.rows, h.bytes⟩
    refine Except.bind_eq_ok.mpr ⟨(), orRefused_eq_ok.mpr (decide_eq_true h.chain), ?_⟩
    refine Except.bind_eq_ok.mpr ⟨(), okOrRefused_eq_ok.mpr h.rules, ?_⟩
    refine Except.bind_eq_ok.mpr ⟨(), orRefused_eq_ok.mpr hsame, ?_⟩
    refine Except.bind_eq_ok.mpr ⟨_, someOrRefused_eq_ok.mpr
      (checkedAdd_eq_some.mpr ⟨h.rows.trans hmaxRows, rfl⟩), ?_⟩
    refine Except.bind_eq_ok.mpr ⟨_, someOrRefused_eq_ok.mpr
      (checkedAdd_eq_some.mpr ⟨h.bytes.trans hmaxBytes, rfl⟩), ?_⟩
    refine Except.bind_eq_ok.mpr ⟨(), orRefused_eq_ok.mpr hlimits, ?_⟩
    exact Except.bind_eq_ok.mpr ⟨rows, hrows, rfl⟩

/-- The variables of the loop after some pages. -/
structure Progress.Holds (serde : Serde J) (chainGenesis : Bytes32) (progress : Progress J)
    (pages : List NamesPage) : Prop where
  chain : ∀ page ∈ pages, page.chainGenesis = chainGenesis
  same : ∀ page ∈ pages, progress.metadata = some (metadataOf serde page)
  ordered : After NamesEntry.key NamesKey.Before none (entriesOf pages)
  holds : progress.rows.Holds (entriesOf pages)
  count : progress.count = (entriesOf pages).length
  bounded : progress.count ≤ maxRows

theorem Progress.Holds.start : Progress.start.Holds serde chainGenesis [] where
  chain _ hpage := absurd hpage List.not_mem_nil
  same _ hpage := absurd hpage List.not_mem_nil
  ordered := After.nil none
  holds := Rows.Holds.empty
  count := rfl
  bounded := Nat.zero_le maxRows

/-- **A page more.** -/
theorem Progress.Holds.push {pages : List NamesPage} (h : progress.Holds serde chainGenesis pages)
    (hmarks : Marks NamesEntry.key (progress.cursor.map NamesCursor.after) (entriesOf pages))
    (hfollows : page.Follows genesis progress.cursor)
    (hcollected : Collected serde chainGenesis progress progress' page) :
    progress'.Holds serde chainGenesis (pages ++ [page]) := by
  obtain ⟨rows, hrows, rfl⟩ := hcollected.collected
  refine ⟨?_, ?_, ?_, ?_, ?_, hcollected.rows⟩
  · intro other hother
    rcases List.mem_append.mp hother with hother | hother
    · exact h.chain other hother
    · rw [List.mem_singleton.mp hother]
      exact hcollected.chain
  · intro other hother
    rcases List.mem_append.mp hother with hother | hother
    · rw [← hcollected.same _ (h.same other hother)]
    · rw [List.mem_singleton.mp hother]
  · rw [entriesOf_concat]
    exact h.ordered.join hmarks hfollows.after
  · rw [entriesOf_concat]
    exact h.holds.insertAll hrows
  · rw [entriesOf_concat, List.length_append, ← h.count]

/-- The continuation of a page marks what has been read with it. -/
theorem NamesPage.Follows.marks {cursor : Option NamesCursor} {next : NamesCursor}
    {pages : List NamesPage} (h : page.Follows genesis cursor) (hnext : page.next = some next) :
    Marks NamesEntry.key (some next.after) (entriesOf (pages ++ [page])) := by
  obtain ⟨_, _, last, hlast, hafter⟩ := h.next next hnext
  rw [entriesOf_concat, hafter]
  exact Marks.join hlast

/-- What a view shows of the pages it was read from. -/
structure View.Shows (view : View) (chainGenesis : Bytes32) (pages : List NamesPage) : Prop where
  snapshot : ∀ page ∈ pages, page.snapshot = view.snapshot
  status : ∀ page ∈ pages, page.status = view.status
  chain : ∀ page ∈ pages, page.chainGenesis = chainGenesis
  rules : ∀ page ∈ pages, ∀ other ∈ pages, page.rules = other.rules
  ordered : (entriesOf pages).Pairwise fun entry later => entry.key.Before later.key
  holds : view.toRows.Holds (entriesOf pages)
  bounded : (entriesOf pages).length ≤ maxRows

/-- **The view** that is made after the last page shows all pages. -/
theorem Progress.Holds.shows {pages : List NamesPage} (hjson : Function.Injective serde.statusJson)
    (h : progress.Holds serde chainGenesis (pages ++ [page])) :
    View.Shows { progress.rows with status := page.status, snapshot := page.snapshot }
      chainGenesis (pages ++ [page]) := by
  have hlast := h.same page (List.mem_append_right pages (List.mem_singleton_self page))
  have hsame : ∀ other ∈ pages ++ [page], metadataOf serde other = metadataOf serde page := by
    intro other hother
    have hother := h.same other hother
    rw [hlast] at hother
    exact (Option.some.inj hother).symm
  refine ⟨?_, ?_, h.chain, ?_, h.ordered.ordered, h.holds, ?_⟩
  · intro other hother
    exact congrArg Metadata.snapshot (hsame other hother)
  · intro other hother
    exact hjson (congrArg Metadata.status (hsame other hother))
  · intro other hother another hanother
    have hrules := congrArg Metadata.rules ((hsame other hother).trans (hsame another hanother).symm)
    exact hrules
  · rw [← h.count]
    exact h.bounded

/-- **One round**: the server gives a page that follows the cursor, and it is collected. -/
theorem readPage_eq_ok {round : ℕ}
    (h : readPage serde server clock genesis chainGenesis round progress = .ok (page, progress')) :
    server.Gives round progress.cursor page ∧ page.Follows genesis progress.cursor ∧
      Collected serde chainGenesis progress progress' page := by
  unfold readPage at h
  obtain ⟨_, _, h⟩ := Except.bind_eq_ok.mp h
  obtain ⟨given, hgiven, h⟩ := Except.bind_eq_ok.mp h
  obtain ⟨_, _, h⟩ := Except.bind_eq_ok.mp h
  obtain ⟨collected, hcollected, h⟩ := Except.bind_eq_ok.mp h
  obtain ⟨_, _, h⟩ := Except.bind_eq_ok.mp h
  cases h
  obtain ⟨hgives, hfollows⟩ := namesView_follows (okOrRefused_eq_ok.mp hgiven)
  exact ⟨hgives, hfollows, collect_eq_ok.mp hcollected⟩

/-- **All rounds**: the view shows the pages that were read before and those of the traversal. -/
theorem readPages_shows {rounds round : ℕ} {view : View} {done : List NamesPage}
    (hjson : Function.Injective serde.statusJson)
    (h : readPages serde server clock genesis chainGenesis rounds round progress = .ok view)
    (hdone : progress.Holds serde chainGenesis done)
    (hmarks : Marks NamesEntry.key (progress.cursor.map NamesCursor.after) (entriesOf done)) :
    ∃ pages, Visits server round progress.cursor pages ∧
      (∃ last ∈ pages.getLast?, last.next = none) ∧ view.Shows chainGenesis (done ++ pages) := by
  induction rounds generalizing round progress done with
  | zero => cases h
  | succ rounds ih =>
      obtain ⟨⟨page, progress'⟩, hread, h⟩ := Except.bind_eq_ok.mp h
      obtain ⟨hgives, hfollows, hcollected⟩ := readPage_eq_ok hread
      have hpushed := hdone.push hmarks hfollows hcollected
      cases hnext : page.next with
      | none =>
          simp only [hnext] at h
          cases h
          exact ⟨[page], .last hgives hnext, ⟨page, rfl, hnext⟩, hpushed.shows hjson⟩
      | some next =>
          simp only [hnext] at h
          have hafter : Progress.Holds serde chainGenesis { progress' with cursor := some next }
              (done ++ [page]) :=
            ⟨hpushed.chain, hpushed.same, hpushed.ordered, hpushed.holds, hpushed.count,
              hpushed.bounded⟩
          obtain ⟨pages, hvisits, ⟨last, hlast, hend⟩, hshows⟩ :=
            ih h hafter (hfollows.marks hnext)
          rw [List.append_assoc, List.singleton_append] at hshows
          refine ⟨page :: pages, .more hgives hnext hvisits, ⟨last, ?_, hend⟩, hshows⟩
          rw [List.getLast?_cons, Option.mem_def.mp hlast]
          rfl

end Rounds

/-! ## A server that pages a sorted list -/

/-- What is paged: the entries in their order, and the metadata of every page. -/
structure Listing where
  snapshot : IndexSnapshot
  chainGenesis : Bytes32
  status : NamesStatus
  rules : Genesis
  entries : List NamesEntry

/-- A page of a listing: the first at most 128 entries after the cursor, with a continuation unless
none remain. -/
structure NamesPage.IsOf (page : NamesPage) (genesis : Txid) (listing : Listing)
    (cursor : Option NamesCursor) : Prop where
  snapshot : page.snapshot = listing.snapshot
  chain : page.chainGenesis = listing.chainGenesis
  status : page.status = listing.status
  rules : page.rules = listing.rules
  entries : ∃ n ≤ 128, page.entries =
    (following NamesEntry.key NamesKey.Before listing.entries (cursor.map NamesCursor.after)).take n
  complete : page.next = none → page.entries =
    following NamesEntry.key NamesKey.Before listing.entries (cursor.map NamesCursor.after)
  next : ∀ next ∈ page.next, next.genesis = genesis ∧ next.snapshot = listing.snapshot ∧
    ∃ last ∈ page.entries.getLast?, next.after = last.key

/-- A server that pages one listing, with metadata that the client accepts. -/
structure Server.Pages (server : Server) (genesis : Txid) (listing : Listing) : Prop where
  instance_ : validateNamesInstance listing.snapshot.instance_ = .ok ()
  status : validateNamesStatus listing.status genesis = .ok ()
  rules : listing.rules.validate = .ok ()
  answers : ∀ request cursor,
    (∀ c ∈ cursor, c.genesis = genesis ∧ c.snapshot = listing.snapshot) →
    ∃ response page, server request cursor = .ok response ∧ response.code = 200 ∧
      response.page = some page ∧
      page.IsOf genesis listing cursor

section Complete

variable {J : Type} [DecidableEq J] {serde : Serde J} {server : Server} {clock : Clock}
  {genesis : Txid} {listing : Listing}

/-- The pages of a traversal stay within the limits of the pages and the bytes that are left. -/
def Allows (serde : Serde J) (server : Server) (request : ℕ) (cursor : Option NamesCursor)
    (pagesLeft bytesLeft : ℕ) : Prop :=
  ∀ pages, Visits server request cursor pages → pages.length ≤ pagesLeft ∧
    (pages.map serde.pageBytes).sum ≤ bytesLeft ∧
    ∀ page ∈ pages, serde.pageBytes page ≤ maxNamesPageBytes ∧
      ∀ next ∈ page.next, serde.cursorBytes next ≤ 512

/-- None of the limits of the client and of `read` is hit. -/
structure WithinLimits (serde : Serde J) (server : Server) (clock : Clock) (listing : Listing) :
    Prop where
  reader : ∀ round check, clock.reader round check = true
  client : ∀ round check, clock.client round check = true
  rows : listing.entries.length ≤ maxRows
  entries : ∀ entry ∈ listing.entries, entryBound serde entry = .ok ()
  rules : serde.rulesBytes listing.rules ≤ maxNamesStateBytes
  bodies : ∀ request cursor response, server request cursor = .ok response →
    response.bodyBytes ≤ maxNamesPageBytes
  pages : Allows serde server 0 none maxPages maxBytes

/-- **A page of the listing** is handed on by the client. -/
theorem namesView_eq_ok {cursor : Option NamesCursor} {response : Response} {page : NamesPage}
    {request : ℕ} {inTime : ℕ → Bool}
    (hserver : server.Pages genesis listing)
    (hclock : ∀ check, inTime check = true) (hrules : serde.rulesBytes listing.rules ≤ maxNamesStateBytes)
    (hbounds : ∀ entry ∈ listing.entries, entryBound serde entry = .ok ())
    (hcursor : ∀ c ∈ cursor, c.genesis = genesis ∧ c.snapshot = listing.snapshot ∧
      serde.cursorBytes c ≤ 512)
    (hresponse : server request cursor = .ok response) (hcode : response.code = 200)
    (hbody : response.bodyBytes ≤ maxNamesPageBytes) (hpage : response.page = some page)
    (hbytes : serde.pageBytes page ≤ maxNamesPageBytes)
    (hafter : After NamesEntry.key NamesKey.Before (cursor.map NamesCursor.after) page.entries)
    (his : page.IsOf genesis listing cursor) :
    namesView serde server inTime request genesis cursor 128 = .ok page := by
  have hvalidCursor : validateCursor serde genesis cursor = .ok () := by
    cases cursor with
    | none => rfl
    | some c =>
        obtain ⟨hgenesis, hsnapshot, hlength⟩ := hcursor c rfl
        refine Except.bind_eq_ok.mpr ⟨(), check_eq_ok.mpr (decide_eq_true hgenesis), ?_⟩
        refine Except.bind_eq_ok.mpr ⟨(), ?_, check_eq_ok.mpr (decide_eq_true hlength)⟩
        rw [hsnapshot]
        exact hserver.instance_
  obtain ⟨n, hn, hentries⟩ := his.entries
  have hlength : page.entries.length ≤ 128 := by
    rw [hentries]
    exact (List.length_take_le n _).trans hn
  have hmem : ∀ entry ∈ page.entries, entry ∈ listing.entries := by
    intro entry hentry
    rw [hentries] at hentry
    exact List.mem_of_mem_filter (List.mem_of_mem_take hentry)
  have hsame : (cursor.all fun cursor => cursor.snapshot = page.snapshot) = true := by
    refine (Option.all_eq_true _ _).mpr fun c hc => decide_eq_true ?_
    rw [(hcursor c hc).2.1, his.snapshot]
  have hnext : validateNext page genesis = .ok () := by
    refine validateNext_eq_ok.mpr fun next hnext => ?_
    rw [his.snapshot]
    exact his.next next hnext
  have hvalid : validateNamesPage serde inTime page genesis cursor 128 = .ok () := by
    unfold validateNamesPage
    refine Except.bind_eq_ok.mpr ⟨(), ?_, ?_⟩
    · rw [his.snapshot]
      exact hserver.instance_
    refine Except.bind_eq_ok.mpr ⟨(), ?_, ?_⟩
    · rw [his.status]
      exact hserver.status
    refine Except.bind_eq_ok.mpr ⟨(), check_eq_ok.mpr (decide_eq_true hlength), ?_⟩
    refine Except.bind_eq_ok.mpr ⟨(), check_eq_ok.mpr hsame, ?_⟩
    refine Except.bind_eq_ok.mpr ⟨(), check_eq_ok.mpr (decide_eq_true ?_), ?_⟩
    · rw [his.rules]
      exact hrules
    refine Except.bind_eq_ok.mpr ⟨(), remaining_eq_ok.mpr (hclock 1), ?_⟩
    rw [his.rules, hserver.rules]
    refine Except.bind_eq_ok.mpr ⟨(), validateEntries_eq_ok hafter hclock
      fun entry hentry => hbounds entry (hmem entry hentry), ?_⟩
    refine Except.bind_eq_ok.mpr ⟨(), hnext, ?_⟩
    refine Except.bind_eq_ok.mpr ⟨(), remaining_eq_ok.mpr (hclock _), ?_⟩
    exact Except.bind_eq_ok.mpr ⟨(), check_eq_ok.mpr (decide_eq_true hbytes),
      remaining_eq_ok.mpr (hclock _)⟩
  unfold namesView
  refine Except.bind_eq_ok.mpr ⟨(), rfl, ?_⟩
  refine Except.bind_eq_ok.mpr ⟨(), hvalidCursor, ?_⟩
  refine Except.bind_eq_ok.mpr ⟨response, hresponse, ?_⟩
  refine Except.bind_eq_ok.mpr ⟨(), check_eq_ok.mpr (beq_iff_eq.mpr hcode), ?_⟩
  refine Except.bind_eq_ok.mpr ⟨(), check_eq_ok.mpr (decide_eq_true hbody), ?_⟩
  rw [hpage]
  refine Except.bind_eq_ok.mpr ⟨(), remaining_eq_ok.mpr (hclock 0), ?_⟩
  refine Except.bind_eq_ok.mpr ⟨(), hvalid, ?_⟩
  exact Except.bind_eq_ok.mpr ⟨(), remaining_eq_ok.mpr (hclock _), rfl⟩

/-- The variables of the loop when the beginning of a listing has been read. -/
structure Progress.Reads (serde : Serde J) (genesis : Txid) (listing : Listing)
    (progress : Progress J) (entries : List NamesEntry) : Prop where
  cursor : ∀ c ∈ progress.cursor, c.genesis = genesis ∧ c.snapshot = listing.snapshot ∧
    serde.cursorBytes c ≤ 512
  marks : Marks NamesEntry.key (progress.cursor.map NamesCursor.after) entries
  same : ∀ previous ∈ progress.metadata,
    previous = ⟨listing.snapshot, listing.chainGenesis, serde.statusJson listing.status,
      listing.rules⟩
  holds : progress.rows.Holds entries
  count : progress.count = entries.length

/-- **A sorted listing is read to its end**, in the rounds and the bytes that are left. -/
theorem readPages_complete {rounds round : ℕ} {progress : Progress J}
    {entries rest : List NamesEntry}
    (hserver : server.Pages genesis listing)
    (hwithin : WithinLimits serde server clock listing)
    (hordered : After NamesEntry.key NamesKey.Before none listing.entries)
    (hall : listing.entries = entries ++ rest)
    (hreads : progress.Reads serde genesis listing entries)
    (hallows : Allows serde server round progress.cursor rounds (maxBytes - progress.bytes))
    (hbytes : progress.bytes ≤ maxBytes) :
    ∃ view, readPages serde server clock genesis listing.chainGenesis rounds round progress =
        .ok view ∧ view.toRows.Holds listing.entries ∧ view.snapshot = listing.snapshot ∧
      view.status = listing.status := by
  induction rounds generalizing round progress entries rest with
  | zero =>
      obtain ⟨response, page, hresponse, _, hpage, _⟩ := hserver.answers round progress.cursor
        fun c hc => ⟨(hreads.cursor c hc).1, (hreads.cursor c hc).2.1⟩
      have hgives : server.Gives round progress.cursor page := ⟨response, hresponse, hpage⟩
      have hvisits : Visits server round progress.cursor [page] := by
        cases hnext : page.next with
        | none => exact .last hgives hnext
        | some next => exact .more hgives hnext .none
      have hlength : 1 ≤ 0 := (hallows [page] hvisits).1
      exact absurd hlength (Nat.not_succ_le_zero 0)
  | succ rounds ih =>
      obtain ⟨response, page, hresponse, hcode, hpage, his⟩ := hserver.answers round
        progress.cursor fun c hc => ⟨(hreads.cursor c hc).1, (hreads.cursor c hc).2.1⟩
      have hgives : server.Gives round progress.cursor page := ⟨response, hresponse, hpage⟩
      have hvisits : Visits server round progress.cursor [page] := by
        cases hnext : page.next with
        | none => exact .last hgives hnext
        | some next => exact .more hgives hnext .none
      obtain ⟨_, hsum, hsizes⟩ := hallows [page] hvisits
      obtain ⟨hsize, hcursors⟩ := hsizes page (List.mem_singleton_self page)
      have hsum : serde.pageBytes page ≤ maxBytes - progress.bytes := by
        rw [List.map_singleton, List.sum_singleton] at hsum
        exact hsum
      have hrest : following NamesEntry.key NamesKey.Before listing.entries
          (progress.cursor.map NamesCursor.after) = rest := by
        rw [hall] at hordered ⊢
        exact following_eq hordered hreads.marks
      obtain ⟨n, _, hentries⟩ := his.entries
      rw [hrest] at hentries
      have hafter : After NamesEntry.key NamesKey.Before (progress.cursor.map NamesCursor.after)
          page.entries := by
        rw [hentries, ← hrest]
        refine After.take ⟨?_, ?_⟩ n
        · exact hordered.ordered.sublist List.filter_sublist
        · intro after hafter entry hentry
          have hentry := (List.mem_filter.mp hentry).2
          rw [hafter] at hentry
          exact of_decide_eq_true hentry
      have hview := namesView_eq_ok hserver (hwithin.client round) hwithin.rules hwithin.entries
        hreads.cursor hresponse hcode (hwithin.bodies round _ response hresponse) hpage hsize hafter
        his
      -- The page and what is left of the listing.
      have hsplit : listing.entries = entries ++ page.entries ++ rest.drop n := by
        rw [hall, hentries, List.append_assoc, List.take_append_drop]
      have hnodup : ((entries ++ page.entries).map NamesEntry.key).Nodup := by
        have hnodup := hordered.nodup
        rw [hsplit, List.map_append] at hnodup
        exact (List.nodup_append'.mp hnodup).1
      obtain ⟨rows, hrows⟩ := hreads.holds.insertAll_of_new hnodup
      have hcount : progress.count + page.entries.length ≤ maxRows := by
        refine Nat.le_trans ?_ hwithin.rows
        rw [hreads.count, hsplit, List.length_append, List.length_append]
        exact Nat.le_add_right _ _
      have hmeta : metadataOf serde page =
          ⟨listing.snapshot, listing.chainGenesis, serde.statusJson listing.status,
            listing.rules⟩ := by
        rw [metadataOf, his.snapshot, his.chain, his.status, his.rules]
      have hcollect : collect serde listing.chainGenesis progress page = .ok
          { progress with
            metadata := some (metadataOf serde page)
            rows := rows
            count := progress.count + page.entries.length
            bytes := progress.bytes + serde.pageBytes page } := by
        refine collect_eq_ok.mpr ⟨his.chain, ?_, ?_, hcount, by omega, rows, hrows, rfl⟩
        · rw [his.rules]
          exact hserver.rules
        · rw [hmeta]
          exact hreads.same
      have hround : readPage serde server clock genesis listing.chainGenesis round progress = .ok (page,
          { progress with
            metadata := some (metadataOf serde page)
            rows := rows
            count := progress.count + page.entries.length
            bytes := progress.bytes + serde.pageBytes page }) := by
        unfold readPage
        refine Except.bind_eq_ok.mpr ⟨(), orRefused_eq_ok.mpr (hwithin.reader round 0), ?_⟩
        refine Except.bind_eq_ok.mpr ⟨page, okOrRefused_eq_ok.mpr hview, ?_⟩
        refine Except.bind_eq_ok.mpr ⟨(), orRefused_eq_ok.mpr (hwithin.reader round 1), ?_⟩
        refine Except.bind_eq_ok.mpr ⟨_, hcollect, ?_⟩
        exact Except.bind_eq_ok.mpr ⟨(), orRefused_eq_ok.mpr (hwithin.reader round 2), rfl⟩
      have hholds := hreads.holds.insertAll hrows
      rw [readPages, hround]
      cases hnext : page.next with
      | none =>
          have hwhole := his.complete hnext
          rw [hrest] at hwhole
          simp only [bind, Except.bind, hnext]
          refine ⟨_, rfl, ?_, his.snapshot, his.status⟩
          rw [hall, ← hwhole]
          exact hholds
      | some next =>
          obtain ⟨hgenesis, hsnapshot, last, hlast, hlastKey⟩ := his.next next hnext
          simp only [bind, Except.bind, hnext]
          refine ih hsplit ⟨?_, ?_, ?_, hholds, ?_⟩ ?_ ?_
          · intro c hc
            cases hc
            exact ⟨hgenesis, hsnapshot, hcursors next hnext⟩
          · have hmarks : Marks NamesEntry.key (some last.key) (entries ++ page.entries) :=
              Marks.join hlast
            rw [← hlastKey] at hmarks
            exact hmarks
          · intro previous hprevious
            cases hprevious
            exact hmeta
          · rw [hreads.count, List.length_append]
          · intro pages hpages
            obtain ⟨hlength, hsum, hsizes⟩ := hallows (page :: pages) (.more hgives hnext hpages)
            rw [List.length_cons] at hlength
            rw [List.map_cons, List.sum_cons] at hsum
            refine ⟨Nat.le_of_succ_le_succ hlength, ?_, ?_⟩
            · show (pages.map serde.pageBytes).sum ≤
                maxBytes - (progress.bytes + serde.pageBytes page)
              omega
            · intro other hother
              exact hsizes other (List.mem_cons_of_mem page hother)
          · show progress.bytes + serde.pageBytes page ≤ maxBytes
            omega

end Complete

/-! ## The listing of a projection -/

theorem displayTxid_inj {txid other : Txid} (h : displayTxid txid = displayTxid other) :
    txid = other := by
  have hutf8 : (Web.hexEncode txid.bytes.toList.reverse).toUTF8 =
      (Web.hexEncode other.bytes.toList.reverse).toUTF8 :=
    ByteArray.ext (Array.toList_inj.mp h)
  have hbytes := Web.hexEncode_inj (String.toByteArray_inj.mp hutf8)
  have hbytes : txid.bytes = other.bytes :=
    Vector.toList_inj.mp (List.reverse_injective hbytes)
  cases txid
  cases other
  cases hbytes
  rfl

/-- The order of the displayed txids. -/
def displayLe (row other : Txid × PendingRecord) : Bool :=
  (compare (displayTxid row.1) (displayTxid other.1)).isLE

/-- The rows of the two maps in the order of the pages: all names, then the txids as displayed. -/
def Rows.listing (rows : Rows) : List NamesEntry :=
  rows.names.toList.map (fun row => .name row.1 row.2) ++
    (rows.pending.toList.mergeSort displayLe).map fun row => .pending row.1 row.2

/-- **A listing** has the rows of the maps. -/
theorem Rows.holds_listing (rows : Rows) : rows.Holds rows.listing where
  names label state := by
    rw [Rows.listing, List.mem_append, ← ExtTreeMap.mem_toList_iff_getElem?_eq_some]
    constructor
    · intro h
      exact Or.inl (List.mem_map.mpr ⟨_, h, rfl⟩)
    · intro h
      rcases h with h | h
      · obtain ⟨row, hrow, heq⟩ := List.mem_map.mp h
        cases heq
        exact hrow
      · obtain ⟨row, hrow, heq⟩ := List.mem_map.mp h
        cases heq
  pending txid record := by
    rw [Rows.listing, List.mem_append, ← ExtTreeMap.mem_toList_iff_getElem?_eq_some]
    constructor
    · intro h
      exact Or.inr (List.mem_map.mpr ⟨_, List.mem_mergeSort.mpr h, rfl⟩)
    · intro h
      rcases h with h | h
      · obtain ⟨row, hrow, heq⟩ := List.mem_map.mp h
        cases heq
      · obtain ⟨row, hrow, heq⟩ := List.mem_map.mp h
        cases heq
        exact List.mem_mergeSort.mp hrow
  size := by
    rw [Rows.listing, List.length_append, List.length_map, List.length_map, List.length_mergeSort,
      ExtTreeMap.length_toList, ExtTreeMap.length_toList]

/-- The displayed txids come in strict order. -/
theorem pending_ordered (pending : ExtTreeMap Txid PendingRecord) :
    (pending.toList.mergeSort displayLe).Pairwise fun row other =>
      compare (displayTxid row.1) (displayTxid other.1) = .lt := by
  have hsorted : (pending.toList.mergeSort displayLe).Pairwise (displayLe · · = true) := by
    refine List.pairwise_mergeSort ?_ ?_ _
    · intro a b c hab hbc
      exact TransOrd.isLE_trans hab hbc
    · intro a b
      have htotal : (compare (displayTxid a.1) (displayTxid b.1)).isLE = true ∨
          (compare (displayTxid b.1) (displayTxid a.1)).isLE = true := by
        rw [OrientedOrd.eq_swap (a := displayTxid b.1)]
        cases compare (displayTxid a.1) (displayTxid b.1) with
        | lt => exact Or.inl rfl
        | eq => exact Or.inl rfl
        | gt => exact Or.inr rfl
      rw [Bool.or_eq_true]
      exact htotal
  have hdistinct : (pending.toList.mergeSort displayLe).Pairwise fun row other =>
      row.1 ≠ other.1 := by
    refine ((List.mergeSort_perm _ _).pairwise_iff ?_).mpr ?_
    · intro row other hne heq
      exact hne heq.symm
    · refine pending.distinct_keys_toList.imp ?_
      intro row other hne heq
      rw [heq] at hne
      exact hne ReflOrd.compare_self
  refine (hsorted.and hdistinct).imp ?_
  intro row other h
  obtain ⟨hle, hne⟩ := h
  cases hcompare : compare (displayTxid row.1) (displayTxid other.1) with
  | lt => rfl
  | eq => exact absurd (displayTxid_inj (LawfulEqOrd.eq_of_compare hcompare)) hne
  | gt =>
      rw [displayLe, hcompare] at hle
      cases hle

/-- **A listing** is in the order of the pages. -/
theorem Rows.listing_ordered (rows : Rows) :
    After NamesEntry.key NamesKey.Before none rows.listing where
  ordered := by
    refine List.pairwise_append.mpr ⟨?_, ?_, ?_⟩
    · refine List.pairwise_map.mpr (rows.names.ordered_keys_toList.imp ?_)
      intro row other h
      have hbytes : compare row.1.bytes other.1.bytes = .lt := h
      show orderCmp (0, row.1.bytes) (0, other.1.bytes) = .lt
      rw [orderCmp, compareLex, compareOn, compareOn, hbytes]
      rfl
    · refine List.pairwise_map.mpr ((pending_ordered rows.pending).imp ?_)
      intro row other h
      show orderCmp (1, displayTxid row.1) (1, displayTxid other.1) = .lt
      rw [orderCmp, compareLex, compareOn, compareOn, h]
      rfl
    · intro entry hentry other hother
      obtain ⟨row, _, rfl⟩ := List.mem_map.mp hentry
      obtain ⟨pendingRow, _, rfl⟩ := List.mem_map.mp hother
      rfl
  later _ hafter := by cases hafter

/-- Views and registries with the same names resolve alike. -/
theorem View.resolution_eq {view : View} {core : Core} (h : view.names = core.names)
    (name : Name) : view.resolution name = core.resolve name := by
  unfold View.resolution Core.resolve stateOf
  rw [h]
  cases core.names[name]? with
  | none => rfl
  | some state =>
      cases hsuspended : state.suspended with
      | true => simp [hsuspended]
      | false =>
          simp only [hsuspended, Bool.false_eq_true, if_false]
          cases state.binding <;> rfl

/-! ## The archive -/

/-- **A names archive is a faithful snapshot.** Whatever the server answers, what is read is the
pages that it gives in turn up to one without a continuation: all with one snapshot, status, chain
genesis and rules, their entries in strict order over all pages, and the maps of the view hold just
these entries, at most `maxRows`. And a server that pages the rows of a registry in order, within the
limits, is read to a view that has the maps of the registry and resolves every name as it does. -/
theorem names_archive_is_faithful {J : Type} [DecidableEq J] (serde : Serde J)
    (hjson : Function.Injective serde.statusJson) (server : Server) (clock : Clock) (genesis : Txid)
    (opening : Opening) :
    (∀ view, read serde server clock genesis opening = .ok view →
      ∃ chainGenesis pages, opening.chainGenesis = .ok chainGenesis ∧
        Visits server 0 none pages ∧ (∃ last ∈ pages.getLast?, last.next = none) ∧
        view.Shows chainGenesis pages) ∧
    ∀ (registry : Registry) (listing : Listing),
      listing.entries = Rows.listing ⟨registry.names, registry.pending⟩ →
      server.Pages genesis listing → WithinLimits serde server clock listing →
      opening.chainGenesis = .ok listing.chainGenesis → opening.token = .ok () →
      ∃ view, read serde server clock genesis opening = .ok view ∧
        view.names = registry.names ∧ view.pending = registry.pending ∧
        view.snapshot = listing.snapshot ∧ view.status = listing.status ∧
        ∀ name, view.resolution name = registry.resolve name := by
  constructor
  · intro view h
    obtain ⟨chainGenesis, hgenesis, h⟩ := Except.bind_eq_ok.mp h
    obtain ⟨_, _, h⟩ := Except.bind_eq_ok.mp h
    have hmarks : Marks NamesEntry.key none (entriesOf []) := rfl
    obtain ⟨pages, hvisits, hlast, hshows⟩ :=
      readPages_shows hjson h Progress.Holds.start hmarks
    rw [List.nil_append] at hshows
    exact ⟨chainGenesis, pages, hgenesis, hvisits, hlast, hshows⟩
  · intro registry listing hentries hserver hwithin hgenesis htoken
    have hholds : Rows.Holds ⟨registry.names, registry.pending⟩ listing.entries := by
      rw [hentries]
      exact Rows.holds_listing _
    have hordered : After NamesEntry.key NamesKey.Before none listing.entries := by
      rw [hentries]
      exact Rows.listing_ordered _
    have hstart : Progress.start.Reads serde genesis listing [] :=
      ⟨fun c hc => (by cases hc), rfl, fun previous hprevious => (by cases hprevious),
        Rows.Holds.empty, rfl⟩
    obtain ⟨view, hview, hrows, hsnapshot, hstatus⟩ := readPages_complete hserver hwithin hordered
      rfl hstart hwithin.pages (Nat.zero_le maxBytes)
    have heq : view.toRows = ⟨registry.names, registry.pending⟩ := hrows.eq hholds
    have hnames : view.names = registry.names := congrArg Rows.names heq
    refine ⟨view, ?_, hnames, congrArg Rows.pending heq, hsnapshot, hstatus,
      View.resolution_eq hnames⟩
    unfold read
    rw [hgenesis, htoken]
    exact hview

namespace ArchiveSample

/-- The page of a listing after a cursor, of at most 128 entries. -/
def page (genesis : Txid) (listing : Listing) (cursor : Option NamesCursor) : NamesPage :=
  let rest := following NamesEntry.key NamesKey.Before listing.entries
    (cursor.map NamesCursor.after)
  { snapshot := listing.snapshot
    chainGenesis := listing.chainGenesis
    status := listing.status
    rules := listing.rules
    entries := rest.take 128
    next := if rest.length ≤ 128 then none
      else (rest.take 128).getLast?.map fun last => ⟨genesis, listing.snapshot, last.key⟩ }

/-- A server of a listing, whose bodies have one length. -/
def server (genesis : Txid) (listing : Listing) (bodyBytes : ℕ) : Server :=
  fun _ cursor => .ok ⟨200, bodyBytes, some (page genesis listing cursor)⟩

/-- **Every listing** has a server. -/
theorem server_pages {genesis : Txid} {listing : Listing} {bodyBytes : ℕ}
    (hinstance : validateNamesInstance listing.snapshot.instance_ = .ok ())
    (hstatus : validateNamesStatus listing.status genesis = .ok ())
    (hrules : listing.rules.validate = .ok ()) :
    (server genesis listing bodyBytes).Pages genesis listing where
  instance_ := hinstance
  status := hstatus
  rules := hrules
  answers request cursor hcursor := by
    refine ⟨_, page genesis listing cursor, rfl, rfl, rfl, rfl, rfl, rfl, rfl,
      ⟨128, Nat.le_refl 128, rfl⟩, ?_, ?_⟩
    · intro hnone
      simp only [page] at hnone ⊢
      split at hnone
      · next hle => exact List.take_of_length_le hle
      · next hlt =>
          have hnil := List.getLast?_eq_none_iff.mp (Option.map_eq_none_iff.mp hnone)
          have hlength := congrArg List.length hnil
          rw [List.length_take, List.length_nil] at hlength
          omega
    · intro next hnext
      simp only [page] at hnext ⊢
      split at hnext
      · cases hnext
      · obtain ⟨last, hlast, heq⟩ := Option.map_eq_some_iff.mp hnext
        rw [← heq]
        exact ⟨rfl, rfl, last, hlast, rfl⟩

/-- A registry that has the name `a`, claimed. -/
def registry : Registry :=
  { Names.Sample.openRegistry with
    height := 102
    names := (∅ : ExtTreeMap Name NameState).insert Names.Sample.name Names.Sample.claimed }

/-- The block that the registry is projected to. -/
def projected : ChainPoint := ⟨102, Vector.replicate 32 2⟩

/-- Its listing. -/
def listing : Listing where
  snapshot := ⟨List.replicate 32 97, 1⟩
  chainGenesis := Vector.replicate 32 0
  status := ⟨Names.Sample.txid 1, ⟨100, Vector.replicate 32 1⟩, projected, 1, some projected, true⟩
  rules := Names.Sample.openRules
  entries := Rows.listing ⟨registry.names, registry.pending⟩

/-- The lengths that serde makes of the one state, of the rules and of the one page. -/
def serde : Serde NamesStatus where
  statusJson status := status
  stateBytes _ := 418
  recordBytes _ := 0
  rulesBytes _ := 85
  pageBytes _ := 1159
  cursorBytes _ := 0

/-- A clock that never runs out. -/
def clock : Clock := ⟨fun _ _ => true, fun _ _ => true⟩

theorem listing_length : listing.entries.length = 1 := by
  have hsize := (Rows.holds_listing ⟨registry.names, registry.pending⟩).size
  have hone : registry.names.size = 1 := by
    show ((∅ : ExtTreeMap Name NameState).insert _ _).size = 1
    rw [ExtTreeMap.size_insert]
    rfl
  have hzero : registry.pending.size = 0 := rfl
  show (Rows.listing ⟨registry.names, registry.pending⟩).length = 1
  rw [← hsize, hone, hzero]

/-- The first page is the last. -/
theorem page_next : (page (Names.Sample.txid 1) listing none).next = none := by
  have hlength : (following NamesEntry.key NamesKey.Before listing.entries none).length ≤ 128 := by
    have hle : (following NamesEntry.key NamesKey.Before listing.entries none).length ≤
        listing.entries.length := List.length_filter_le _ _
    have hone := listing_length
    omega
  show (if (following NamesEntry.key NamesKey.Before listing.entries none).length ≤ 128 then none
    else _) = none
  rw [if_pos hlength]

theorem within_limits :
    WithinLimits serde (server (Names.Sample.txid 1) listing 1159) clock listing where
  reader _ _ := rfl
  client _ _ := rfl
  rows := by
    rw [listing_length]
    decide
  entries entry _ := by
    cases entry with
    | name label state => rfl
    | pending txid record => rfl
  rules := by decide
  bodies request cursor response hresponse := by
    cases hresponse
    have hbody : 1159 ≤ maxNamesPageBytes := by decide
    exact hbody
  pages := by
    have hbytes : 1159 ≤ maxNamesPageBytes := by decide
    intro pages hvisits
    cases hvisits with
    | none => exact ⟨Nat.zero_le _, Nat.zero_le _, fun _ hpage => absurd hpage List.not_mem_nil⟩
    | last hgives hnext =>
        have hpages : 1 ≤ maxPages := by decide
        have hsum : 1159 + 0 ≤ maxBytes := by decide
        refine ⟨hpages, hsum, ?_⟩
        intro other hother
        rw [List.mem_singleton.mp hother, hnext]
        exact ⟨hbytes, fun _ hnone => by cases hnone⟩
    | more hgives hnext hothers =>
        obtain ⟨response, hresponse, hpage⟩ := hgives
        cases hresponse
        cases hpage
        rw [page_next] at hnext
        cases hnext

end ArchiveSample

/-- The archive of one name, read in one page. -/
theorem names_archive_is_faithful_sample :
    ∃ view, read ArchiveSample.serde
        (ArchiveSample.server (Names.Sample.txid 1) ArchiveSample.listing 1159)
        ArchiveSample.clock (Names.Sample.txid 1) ⟨.ok (Vector.replicate 32 0), .ok ()⟩ = .ok view ∧
      view.names = ArchiveSample.registry.names ∧
      ∀ name, view.resolution name = ArchiveSample.registry.resolve name := by
  obtain ⟨view, hview, hnames, _, _, _, hresolution⟩ := (names_archive_is_faithful
    ArchiveSample.serde (fun _ _ heq => heq)
    (ArchiveSample.server (Names.Sample.txid 1) ArchiveSample.listing 1159) ArchiveSample.clock
    (Names.Sample.txid 1) ⟨.ok (Vector.replicate 32 0), .ok ()⟩).2 ArchiveSample.registry
    ArchiveSample.listing rfl
    (ArchiveSample.server_pages (by decide +kernel) (by decide +kernel) (by decide +kernel))
    ArchiveSample.within_limits rfl rfl
  exact ⟨view, hview, hnames, hresolution⟩

end Urma.Node
