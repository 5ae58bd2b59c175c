import Mathlib.Data.List.Nodup
import Urma.Git.Review

/-!
# The windows of a scan miss nothing

What a window finds at a position is decided by the 512 bytes behind it, so a match that the end of
a window cuts off is whole in the next one. The invariant of the loop is `Scanned`: all matches that
are decided by what has been read are found, or are in the middle of one that is.
-/

namespace Urma.Git.Review

open Lib

/-! ## Reading -/

/-- **However the reader splits its content**, a chunk is the next part of it. -/
theorem readChunk_eq_ok {ending : Option String} {room : ℕ} {pieces left : List Bytes}
    {chunk : Bytes} (hpieces : ∀ piece ∈ pieces, piece ≠ [])
    (h : readChunk ending room pieces = .ok (chunk, left)) :
    chunk = pieces.flatten.take room ∧ left.flatten = pieces.flatten.drop room ∧
      ∀ piece ∈ left, piece ≠ [] := by
  induction pieces generalizing room chunk with
  | nil =>
      cases room with
      | zero =>
          cases h
          exact ⟨rfl, rfl, hpieces⟩
      | succ room =>
          cases ending with
          | none =>
              cases h
              exact ⟨rfl, rfl, hpieces⟩
          | some cause => cases h
  | cons piece pieces ih =>
      cases room with
      | zero =>
          cases h
          exact ⟨rfl, rfl, hpieces⟩
      | succ room =>
          have hne := hpieces piece List.mem_cons_self
          have hrest : ∀ other ∈ pieces, other ≠ [] :=
            fun other hother => hpieces other (List.mem_cons_of_mem piece hother)
          rw [readChunk] at h
          split at h
          · next hempty => exact absurd (List.isEmpty_iff.mp hempty) hne
          split at h
          · next hlong =>
            cases h
            rw [List.flatten_cons]
            refine ⟨?_, ?_, ?_⟩
            · rw [List.take_append_of_le_length (Nat.le_of_lt hlong)]
            · rw [List.flatten_cons, List.drop_append_of_le_length (Nat.le_of_lt hlong)]
            · intro other hother
              rcases List.mem_cons.mp hother with rfl | hother
              · rw [← List.length_pos_iff, List.length_drop]
                exact Nat.sub_pos_of_lt hlong
              · exact hrest other hother
          · next hshort =>
            obtain ⟨⟨rest, others⟩, hread, hok⟩ := Except.bind_eq_ok.mp h
            cases hok
            obtain ⟨rfl, hleft, hothers⟩ := ih hrest hread
            rw [List.flatten_cons, List.take_append, List.drop_append,
              List.take_of_length_le (Nat.le_of_not_lt hshort),
              List.drop_of_length_le (Nat.le_of_not_lt hshort), List.nil_append]
            exact ⟨rfl, hleft, hothers⟩

/-- Reading fails as the reader does. -/
theorem readChunk_error {ending : Option String} {room : ℕ} {pieces : List Bytes}
    {cause : GitError} (h : readChunk ending room pieces = .error cause) :
    ∃ message, cause = .io message := by
  induction pieces generalizing room with
  | nil =>
      cases room with
      | zero => cases h
      | succ room =>
          cases ending with
          | none => cases h
          | some message =>
              cases h
              exact ⟨message, rfl⟩
  | cons piece pieces ih =>
      cases room with
      | zero => cases h
      | succ room =>
          rw [readChunk] at h
          split at h
          · cases h
          split at h
          · cases h
          · cases hread : readChunk ending (room + 1 - piece.length) pieces with
            | ok result =>
                rw [hread] at h
                cases h
            | error other =>
                rw [hread] at h
                cases h
                exact ih hread

/-! ## Findings -/

section

variable {sha256 : Bytes → Bytes32} {object : String} {others : Others} {rules : List Rule}
  {content : Bytes}

variable (sha256 object rules content) in
/-- What a scan knows of its findings: each is of a match, and none is there twice. -/
structure Kept (progress : Progress) : Prop where
  findings : progress.findings =
    progress.found.reverse.map fun key => findingAt sha256 object key.1 key.2
  counted : progress.counted = progress.found.length
  nodup : progress.found.Nodup
  sound : ∀ key ∈ progress.found, ∃ rule ∈ rules, rule.name = key.1 ∧
    (rule.regex.pick (content.drop key.2)).isSome

variable (sha256 object rules content others) in
/-- What is known when the limit is exceeded: with one finding more there are too many. -/
def Exceeds (cause : GitError) : Prop :=
  cause = limitExceeded ∧ ∃ progress, Kept sha256 object rules content progress ∧
    0 < progress.counted ∧
    scanFindingsLimit < others (progress.counted - 1) + progress.counted

theorem kept_new : Kept sha256 object rules content ⟨[], 0, []⟩ :=
  ⟨rfl, rfl, List.nodup_nil, fun _ h => (List.not_mem_nil h).elim⟩

variable {name : String} {offset start : ℕ} {progress progress' : Progress}

theorem Kept.cons (h : Kept sha256 object rules content progress) {position : ℕ}
    (hnew : (name, position) ∉ progress.found)
    (hmatch : ∃ rule ∈ rules, rule.name = name ∧ (rule.regex.pick (content.drop position)).isSome) :
    Kept sha256 object rules content
      { found := (name, position) :: progress.found
        counted := progress.counted + 1
        findings := progress.findings ++ [findingAt sha256 object name position] } where
  findings := by
    rw [h.findings, List.reverse_cons, List.map_append]
    rfl
  counted := congrArg (· + 1) h.counted
  nodup := List.nodup_cons.mpr ⟨hnew, h.nodup⟩
  sound := by
    intro key hkey
    rcases List.mem_cons.mp hkey with rfl | hkey
    · exact hmatch
    · exact h.sound key hkey

/-- **One match.** -/
theorem scanMatch_kept (h : Kept sha256 object rules content progress)
    (hmatch : ∃ rule ∈ rules, rule.name = name ∧
      (rule.regex.pick (content.drop (offset + start))).isSome) :
    (∀ progress', scanMatch sha256 object others name offset progress start = .ok progress' →
      Kept sha256 object rules content progress' ∧ progress.found ⊆ progress'.found ∧
        (name, offset + start) ∈ progress'.found) ∧
    ∀ cause, scanMatch sha256 object others name offset progress start = .error cause →
      Exceeds sha256 object others rules content cause := by
  rw [scanMatch]
  split
  · next hfound =>
    refine ⟨?_, nofun⟩
    intro progress' hok
    cases hok
    exact ⟨h, List.Subset.refl _, hfound⟩
  · next hnew =>
    have hnext := h.cons hnew hmatch
    split
    · next hlimit =>
      refine ⟨nofun, ?_⟩
      intro cause herror
      cases herror
      refine ⟨rfl, _, hnext, Nat.succ_pos _, ?_⟩
      show scanFindingsLimit < others (progress.counted + 1 - 1) + (progress.counted + 1)
      rw [Nat.add_sub_cancel]
      omega
    · refine ⟨?_, nofun⟩
      intro progress' hok
      cases hok
      exact ⟨hnext, List.subset_cons_self _ _, List.mem_cons_self⟩

/-- **The matches of a rule in a window.** -/
theorem scanMatches_kept {starts : List ℕ} (h : Kept sha256 object rules content progress)
    (hmatch : ∀ start ∈ starts, ∃ rule ∈ rules, rule.name = name ∧
      (rule.regex.pick (content.drop (offset + start))).isSome) :
    (∀ progress', scanMatches sha256 object others name offset starts progress = .ok progress' →
      Kept sha256 object rules content progress' ∧ progress.found ⊆ progress'.found ∧
        ∀ start ∈ starts, (name, offset + start) ∈ progress'.found) ∧
    ∀ cause, scanMatches sha256 object others name offset starts progress = .error cause →
      Exceeds sha256 object others rules content cause := by
  induction starts generalizing progress with
  | nil =>
      refine ⟨?_, nofun⟩
      intro progress' hok
      cases hok
      exact ⟨h, List.Subset.refl _, fun _ hstart => (List.not_mem_nil hstart).elim⟩
  | cons start starts ih =>
      obtain ⟨hok, herror⟩ := @scanMatch_kept _ _ others _ _ name offset start _ h
        (hmatch start List.mem_cons_self)
      rw [scanMatches]
      cases hone : scanMatch sha256 object others name offset progress start with
      | error cause =>
          refine ⟨nofun, ?_⟩
          intro cause' heq
          cases heq
          exact herror cause hone
      | ok next =>
          obtain ⟨hnext, hsub, hmem⟩ := hok next hone
          obtain ⟨hrest, hrestError⟩ := ih hnext fun other hother =>
            hmatch other (List.mem_cons_of_mem start hother)
          refine ⟨?_, hrestError⟩
          intro progress' hdone
          obtain ⟨hkept, hsub', hall⟩ := hrest progress' hdone
          refine ⟨hkept, List.Subset.trans hsub hsub', ?_⟩
          intro other hother
          rcases List.mem_cons.mp hother with rfl | hother
          · exact hsub' hmem
          · exact hall other hother

/-- **The rules in a window.** What is found in the window is found. -/
theorem scanRules_kept {more : List Rule} {size : ℕ}
    (h : Kept sha256 object rules content progress) (hmore : more ⊆ rules) :
    (∀ progress', scanRules sha256 object others ((content.drop offset).take size) offset more
        progress = .ok progress' →
      Kept sha256 object rules content progress' ∧ progress.found ⊆ progress'.found ∧
        ∀ rule ∈ more, ∀ q n, (q, n) ∈ rule.regex.findIter ((content.drop offset).take size) →
          (rule.name, offset + q) ∈ progress'.found) ∧
    ∀ cause, scanRules sha256 object others ((content.drop offset).take size) offset more
        progress = .error cause → Exceeds sha256 object others rules content cause := by
  induction more generalizing progress with
  | nil =>
      refine ⟨?_, nofun⟩
      intro progress' hok
      cases hok
      exact ⟨h, List.Subset.refl _, fun _ hrule => (List.not_mem_nil hrule).elim⟩
  | cons rule more ih =>
      have hmatch : ∀ start ∈ (rule.regex.findIter ((content.drop offset).take size)).map Prod.fst,
          ∃ other ∈ rules, other.name = rule.name ∧
            (other.regex.pick (content.drop (offset + start))).isSome := by
        intro start hstart
        obtain ⟨⟨q, n⟩, hfound, rfl⟩ := List.mem_map.mp hstart
        exact ⟨rule, hmore List.mem_cons_self, rfl, Search.Pattern.findIter_part hfound⟩
      obtain ⟨hok, herror⟩ := @scanMatches_kept _ _ others _ _ rule.name offset _ _ h hmatch
      rw [scanRules]
      cases hone : scanMatches sha256 object others rule.name offset
          ((rule.regex.findIter ((content.drop offset).take size)).map Prod.fst) progress with
      | error cause =>
          refine ⟨nofun, ?_⟩
          intro cause' heq
          cases heq
          exact herror cause hone
      | ok next =>
          obtain ⟨hnext, hsub, hall⟩ := hok next hone
          obtain ⟨hrest, hrestError⟩ := ih hnext fun other hother =>
            hmore (List.mem_cons_of_mem rule hother)
          refine ⟨?_, hrestError⟩
          intro progress' hdone
          obtain ⟨hkept, hsub', hothers⟩ := hrest progress' hdone
          refine ⟨hkept, List.Subset.trans hsub hsub', ?_⟩
          intro other hother q n hfound
          rcases List.mem_cons.mp hother with rfl | hother
          · exact hsub' (hall q (List.mem_map.mpr ⟨(q, n), hfound, rfl⟩))
          · exact hothers other hother q n hfound

/-! ## Windows -/

variable (rules content) in
/-- The rule has a finding at this position, or one whose match goes over it. -/
def Reported (found : List (String × ℕ)) (rule : Rule) (position : ℕ) : Prop :=
  ∃ start length size, (rule.name, start) ∈ found ∧
    rule.regex.pick ((content.drop start).take size) = some length ∧
    start ≤ position ∧ position < start + length

theorem Reported.mono {found found' : List (String × ℕ)} {rule : Rule} {position : ℕ}
    (h : Reported content found rule position) (hsub : found ⊆ found') :
    Reported content found' rule position := by
  obtain ⟨start, length, size, hmem, hrest⟩ := h
  exact ⟨start, length, size, hsub hmem, hrest⟩

variable (sha256 object rules content) in
/-- **The invariant of the loop**: what has been read ends with the carry, and what is decided by it
is found. -/
structure Scanned (before : ℕ) (pieces : List Bytes) (carry : Bytes) (offset : ℕ)
    (progress : Progress) (bytes : ℕ) : Prop where
  remains : pieces.flatten = content.drop (offset + carry.length)
  nonempty : ∀ piece ∈ pieces, piece ≠ []
  carried : carry = (content.drop offset).take carry.length
  read : offset + carry.length ≤ content.length
  overlap : carry.length = min (offset + carry.length) carryBytes
  kept : Kept sha256 object rules content progress
  covered : ∀ rule ∈ rules, ∀ position, position + carryBytes ≤ offset + carry.length ∨
    content.length ≤ offset + carry.length → (rule.regex.pick (content.drop position)).isSome →
      Reported content progress.found rule position
  counted : bytes = before + (offset + carry.length)

variable {before bytes bytes' : ℕ} {pieces left : List Bytes} {carry chunk : Bytes}

theorem scanned_new (hsplit : pieces.flatten = content) (hpieces : ∀ piece ∈ pieces, piece ≠ []) :
    Scanned sha256 object rules content before pieces [] 0 ⟨[], 0, []⟩ before where
  remains := hsplit
  nonempty := hpieces
  carried := rfl
  read := Nat.zero_le _
  overlap := rfl
  kept := kept_new
  covered := by
    intro rule _ position hend hmatch
    -- nothing is read yet, so that there is nothing to find
    rw [List.drop_of_length_le] at hmatch
    · rw [rule.regex.pick_nil] at hmatch
      cases hmatch
    · rcases hend with hend | hend
      · exact absurd hend (Nat.not_le.mpr (Nat.add_pos_right position (by decide)))
      · exact Nat.le_trans hend (Nat.zero_le position)
  counted := rfl

variable {ending : Option String}

/-- What a window is of the content. -/
theorem Scanned.window (h : Scanned sha256 object rules content before pieces carry offset progress
    bytes) (hread : readChunk ending windowBytes pieces = .ok (chunk, left)) :
    carry ++ chunk = (content.drop offset).take (carry.length + chunk.length) ∧
      offset + (carry.length + chunk.length) ≤ content.length ∧
      left.flatten = content.drop (offset + (carry.length + chunk.length)) ∧
      ∀ piece ∈ left, piece ≠ [] := by
  obtain ⟨hchunk, hleft, hnonempty⟩ := readChunk_eq_ok h.nonempty hread
  have hparts := readChunk_flatten hread
  have hcontent : content.drop offset = (carry ++ chunk) ++ left.flatten := by
    have hsplit := @List.take_append_drop _ carry.length (content.drop offset)
    rw [← h.carried, List.drop_drop, ← h.remains, ← hparts, ← List.append_assoc] at hsplit
    exact hsplit.symm
  have hlength := congrArg List.length hcontent
  rw [List.length_drop, List.length_append, List.length_append] at hlength
  have hread' := h.read
  refine ⟨?_, by omega, ?_, hnonempty⟩
  · rw [hcontent, List.take_left' (List.length_append)]
  · rw [← List.drop_drop, hcontent, List.drop_left' (List.length_append)]

/-- **One window.** -/
theorem Scanned.step (hdecided : ∀ rule ∈ rules, rule.regex.Decided carryBytes)
    (h : Scanned sha256 object rules content before pieces carry offset progress bytes)
    (hread : readChunk ending windowBytes pieces = .ok (chunk, left))
    (hscan : scanRules sha256 object others (carry ++ chunk) offset rules progress = .ok progress')
    (hbytes : addScanned bytes chunk.length = .ok bytes') :
    Scanned sha256 object rules content before left
      ((carry ++ chunk).drop ((carry ++ chunk).length - min (carry ++ chunk).length carryBytes))
      (offset + ((carry ++ chunk).length - min (carry ++ chunk).length carryBytes))
      progress' bytes' := by
  obtain ⟨hwindow, hend, hleft, hnonempty⟩ := h.window hread
  rw [hwindow] at hscan
  obtain ⟨hkept, hsub, hall⟩ :=
    (@scanRules_kept _ _ others _ _ offset _ rules _ h.kept (List.Subset.refl _)).1 _ hscan
  have hused : (carry ++ chunk).length = carry.length + chunk.length := List.length_append
  have hoverlap := h.overlap
  have hpassed : (carry ++ chunk).length - min (carry ++ chunk).length carryBytes +
      ((carry ++ chunk).drop
        ((carry ++ chunk).length - min (carry ++ chunk).length carryBytes)).length =
      carry.length + chunk.length := by
    rw [List.length_drop]
    omega
  rw [addScanned] at hbytes
  split at hbytes
  · next total htotal =>
    cases hbytes
    rw [checkedAdd_eq_some] at htotal
    have hread' : ∀ value, offset + ((carry ++ chunk).length - min (carry ++ chunk).length carryBytes) +
        ((carry ++ chunk).drop
          ((carry ++ chunk).length - min (carry ++ chunk).length carryBytes)).length = value ↔
        offset + (carry.length + chunk.length) = value := by
      intro value
      rw [Nat.add_assoc, hpassed]
    have hposition := (hread' _).mpr rfl
    refine
      { remains := by rw [hposition]; exact hleft
        nonempty := hnonempty
        carried := ?_
        read := by rw [hposition]; exact hend
        overlap := ?_
        kept := hkept
        covered := ?_
        counted := by
          rw [hposition, htotal.2, h.counted]
          omega }
    · have hdrop := congrArg (List.drop ((carry ++ chunk).length -
        min (carry ++ chunk).length carryBytes)) hwindow
      rw [List.drop_take, List.drop_drop] at hdrop
      rw [hdrop, List.length_take]
      rw [List.take_eq_take_iff]
      rw [List.length_drop]
      omega
    · rw [hposition, List.length_drop, hused]
      omega
    · intro rule hrule position hreach hmatch
      rw [hposition] at hreach
      rcases Nat.lt_or_ge position offset with hlt | hge
      · -- a match before this window was decided by the last one
        apply (h.covered rule hrule position _ hmatch).mono hsub
        left
        omega
      · obtain ⟨q, n, hfound, hle, hlt⟩ :=
          Search.Pattern.findIter_window (hdecided rule hrule) hge
            (by rwa [← Nat.add_assoc] at hreach ⊢) hmatch
        have hpick := Search.Pattern.findIter_sound hfound
        rw [List.drop_take, List.drop_drop] at hpick
        exact ⟨offset + q, n, _, hall rule hrule q n hfound, hpick, hle, hlt⟩
  · cases hbytes

/-- **The whole loop.** -/
theorem scanLoop_scanned (hdecided : ∀ rule ∈ rules, rule.regex.Decided carryBytes)
    (h : Scanned sha256 object rules content before pieces carry offset progress bytes) :
    (∀ progress' bytes', scanLoop sha256 object others rules ending pieces carry offset progress
        bytes = .ok (progress', bytes') →
      Kept sha256 object rules content progress' ∧ bytes' = before + content.length ∧
        ∀ rule ∈ rules, ∀ position, (rule.regex.pick (content.drop position)).isSome →
          Reported content progress'.found rule position) ∧
    (scanLoop sha256 object others rules ending pieces carry offset progress bytes =
        .error limitExceeded → Exceeds sha256 object others rules content limitExceeded) := by
  induction hsize : pieces.flatten.length using Nat.strong_induction_on
    generalizing pieces carry offset progress bytes with
  | h size ih =>
  rw [scanLoop]
  split
  · next cause hread =>
    refine ⟨(fun _ _ hok => by cases hok), ?_⟩
    intro herror
    have hcause := readChunk_error hread
    rw [Except.error.inj herror] at hcause
    obtain ⟨_, hcause⟩ := hcause
    cases hcause
  · next chunk left hread =>
    obtain ⟨hwindow, hend, hleft, hnonempty⟩ := h.window hread
    split
    · next hempty =>
      refine ⟨?_, (fun herror => by cases herror)⟩
      intro progress' bytes' hok
      cases hok
      have hdone : content.length ≤ offset + carry.length := by
        have hflat := (readChunk_eq_ok h.nonempty hread).1
        rw [hempty, h.remains] at hflat
        have hlength := congrArg List.length hflat
        rw [List.length_take, List.length_drop, List.length_nil, windowBytes] at hlength
        omega
      refine ⟨h.kept, ?_, ?_⟩
      · have hread' := h.read
        rw [h.counted]
        omega
      · intro rule hrule position hmatch
        exact h.covered rule hrule position (.inr hdone) hmatch
    · next hne =>
      have hparts := congrArg List.length (readChunk_flatten hread)
      have hpos := List.length_pos_iff.mpr hne
      rw [List.length_append, hsize] at hparts
      dsimp only
      split
      · next cause hscan =>
        refine ⟨(fun _ _ hok => by cases hok), ?_⟩
        intro herror
        rw [hwindow] at hscan
        have hexceeds := (@scanRules_kept _ _ others _ _ offset _ rules _ h.kept
          (List.Subset.refl _)).2 cause hscan
        rwa [Except.error.inj herror] at hexceeds
      · next progress' hscan =>
        split
        · next cause hbytes =>
          refine ⟨(fun _ _ hok => by cases hok), ?_⟩
          intro herror
          rw [Except.error.inj herror, addScanned] at hbytes
          split at hbytes
          · cases hbytes
          · exact absurd (GitError.capacity.inj (Except.error.inj hbytes)) (by decide)
        · next total hbytes =>
          exact ih left.flatten.length (by omega) (h.step hdecided hread hscan hbytes) rfl

end

/-! ## What a scan reports -/

section

variable (sha256 : Bytes → Bytes32) (object : String) (others : Others) (rules : List Rule)
  (content : Bytes)

/-- Findings of matches, none of them twice. -/
structure Genuine (found : List Finding) : Prop where
  sound : ∀ finding ∈ found, finding.object = object ∧ ∃ rule ∈ rules, rule.name = finding.rule ∧
    (rule.regex.pick (content.drop finding.offset)).isSome
  once : (found.map fun finding => (finding.rule, finding.offset)).Nodup

/-- What a scan adds to a report. -/
structure Reviewed (before after : ScanReport) (found : List Finding) : Prop where
  report : after = { before with
    findings := before.findings ++ found
    bytes := before.bytes + content.length }
  genuine : Genuine object rules content found
  /-- What one search through the whole content finds is reported, or overlapped by a match that is
  reported. -/
  missed : ∀ rule ∈ rules, ∀ start length, (start, length) ∈ rule.regex.findIter content →
    ∃ finding ∈ found, finding.rule = rule.name ∧ (finding.offset = start ∨
      ∃ size taken, rule.regex.pick ((content.drop finding.offset).take size) = some taken ∧
        finding.offset < start ∧ start < finding.offset + taken)

variable {sha256 object rules content} {others : Others}

theorem Kept.genuine {progress : Progress} (h : Kept sha256 object rules content progress) :
    Genuine object rules content progress.findings where
  sound := by
    intro finding hfinding
    rw [h.findings] at hfinding
    obtain ⟨key, hkey, rfl⟩ := List.mem_map.mp hfinding
    exact ⟨rfl, h.sound key (List.mem_reverse.mp hkey)⟩
  once := by
    rw [h.findings, List.map_map]
    show (progress.found.reverse.map fun key => key).Nodup
    rw [List.map_id']
    exact List.nodup_reverse.mpr h.nodup

end

/-- **A scan misses nothing**, however its reader splits the content. -/
theorem scanReader_misses_nothing (sha256 : Bytes → Bytes32) (object : String) (others : Others)
    (rules : List Rule) (hdecided : ∀ rule ∈ rules, rule.regex.Decided 512)
    (pieces : List Bytes) (hpieces : ∀ piece ∈ pieces, piece ≠ []) (ending : Option String)
    (report : ScanReport) :
    (∀ after, scanReader sha256 object others rules ending pieces report = .ok after →
      ∃ found, Reviewed object rules pieces.flatten report after found) ∧
    (scanReader sha256 object others rules ending pieces report = .error limitExceeded →
      ∃ found, Genuine object rules pieces.flatten found ∧ found ≠ [] ∧
        scanFindingsLimit < others (found.length - 1) + found.length) := by
  have hnew : Scanned sha256 object rules pieces.flatten report.bytes pieces [] 0 ⟨[], 0, []⟩
      report.bytes := scanned_new rfl hpieces
  obtain ⟨hok, herror⟩ := @scanLoop_scanned _ _ others _ _ _ _ _ _ _ _ ending hdecided hnew
  constructor
  · intro after h
    simp only [scanReader, Except.bind_eq_ok] at h
    obtain ⟨⟨progress, bytes⟩, hloop, hafter⟩ := h
    cases hafter
    obtain ⟨hkept, rfl, hall⟩ := hok progress bytes hloop
    refine ⟨progress.findings, rfl, hkept.genuine, ?_⟩
    intro rule hrule start length hfound
    have hmatch : (rule.regex.pick (pieces.flatten.drop start)).isSome := by
      rw [Search.Pattern.findIter_sound hfound]
      rfl
    obtain ⟨q, taken, size, hmem, hpick, hle, hlt⟩ := hall rule hrule start hmatch
    refine ⟨findingAt sha256 object rule.name q, ?_, rfl, ?_⟩
    · rw [hkept.findings]
      exact List.mem_map.mpr ⟨(rule.name, q), List.mem_reverse.mpr hmem, rfl⟩
    · rcases Nat.eq_or_lt_of_le hle with heq | hbefore
      · exact .inl heq
      · exact .inr ⟨size, taken, hpick, hbefore, hlt⟩
  · intro h
    rw [scanReader] at h
    cases hloop : scanLoop sha256 object others rules ending pieces [] 0 ⟨[], 0, []⟩
        report.bytes with
    | ok result =>
        rw [hloop] at h
        cases h
    | error cause =>
        rw [hloop] at h
        cases h
        obtain ⟨-, progress, hkept, hpos, hlimit⟩ := herror hloop
        have hlength : progress.findings.length = progress.counted := by
          rw [hkept.findings, List.length_map, List.length_reverse, hkept.counted]
        refine ⟨progress.findings, hkept.genuine, ?_, ?_⟩
        · rw [← List.length_pos_iff, hlength]
          exact hpos
        · rw [hlength]
          exact hlimit

/-- The four rules are decided by 512 bytes. -/
theorem rules_decided : ∀ rule ∈ rules, rule.regex.Decided 512 := by
  intro rule hrule
  simp only [rules, List.mem_cons, List.not_mem_nil, or_false] at hrule
  rcases hrule with rfl | rfl | rfl | rfl
  · exact @Regex.pattern_decided _ privateKey (by decide +kernel) 512 (by decide +kernel)
  · exact @Regex.pattern_decided _ githubToken (by decide +kernel) 512 (by decide +kernel)
  · exact @Regex.pattern_decided _ awsAccessKey (by decide +kernel) 512 (by decide +kernel)
  · exact @Regex.pattern_decided _ credentialAssignment (by decide +kernel) 512 (by decide +kernel)

/-- The rules of the scanner, on a content that is read in two pieces. -/
theorem scanReader_misses_nothing_rules :
    (∀ after, scanReader Lib.Sha256.hash "branch" (fun _ => 0) rules none
        ["AKIA".toUTF8.toList, "ABCDEFGHIJKLMNOP".toUTF8.toList] ⟨"", "", false, 0, 0, []⟩ =
          .ok after →
      ∃ found, Reviewed "branch" rules
        ["AKIA".toUTF8.toList, "ABCDEFGHIJKLMNOP".toUTF8.toList].flatten
        ⟨"", "", false, 0, 0, []⟩ after found) ∧
    (scanReader Lib.Sha256.hash "branch" (fun _ => 0) rules none
        ["AKIA".toUTF8.toList, "ABCDEFGHIJKLMNOP".toUTF8.toList] ⟨"", "", false, 0, 0, []⟩ =
          .error limitExceeded →
      ∃ found, Genuine "branch" rules
        ["AKIA".toUTF8.toList, "ABCDEFGHIJKLMNOP".toUTF8.toList].flatten found ∧ found ≠ [] ∧
        scanFindingsLimit < (fun _ => 0) (found.length - 1) + found.length) :=
  scanReader_misses_nothing Lib.Sha256.hash "branch" (fun _ => 0) rules rules_decided
    ["AKIA".toUTF8.toList, "ABCDEFGHIJKLMNOP".toUTF8.toList] (by decide +kernel) none
    ⟨"", "", false, 0, 0, []⟩

end Urma.Git.Review
