import Urma.Lib.Search

/-!
# Regular expressions without look-around

The expressions of a scanner: classes, sequences, alternatives and bounded repetitions. `lengths` is
the backtracking search: the lengths of all matches at the start of a text, in the order in which
they are preferred, so that the first of them is the one that is taken.

A match reads nothing behind itself (`mem_lengths_take`) and stays one when more follows
(`mem_lengths_append`). Whether there is one is decided by `need` elements, however long it is.
-/

namespace Urma.Lib

variable {α : Type}

/-- A regular expression. -/
inductive Regex (α : Type) where
  | empty
  /-- One element of a class. -/
  | chars (class_ : α → Bool)
  | append (first second : Regex α)
  /-- The first alternative is preferred. -/
  | either (first second : Regex α)
  /-- As often as possible, within bounds. -/
  | times (body : Regex α) (least most : ℕ)

namespace Regex

/-- Matches one after another, as many as possible first. -/
def repeatLengths (body : List α → List ℕ) : ℕ → ℕ → List α → List ℕ
  | least, 0, _ => if least = 0 then [0] else []
  | least, most + 1, text =>
      (body text).flatMap (fun n =>
        (repeatLengths body (least - 1) most (text.drop n)).map (n + ·)) ++
          if least = 0 then [0] else []

/-- The lengths of the matches at the start of a text. -/
def lengths : Regex α → List α → List ℕ
  | .empty, _ => [0]
  | .chars class_, text =>
      match text with
      | [] => []
      | a :: _ => if class_ a then [1] else []
  | .append first second, text =>
      (first.lengths text).flatMap fun n => (second.lengths (text.drop n)).map (n + ·)
  | .either first second, text => first.lengths text ++ second.lengths text
  | .times body least most, text => repeatLengths body.lengths least most text

/-- The expression of a text. -/
def literal [DecidableEq α] (text : List α) : Regex α :=
  text.foldr (fun a rest => .append (.chars (· == a)) rest) .empty

/-- An expression that may be left out. -/
def optional (body : Regex α) : Regex α :=
  .times body 0 1

/-- The first of some expressions that matches. -/
def oneOf : List (Regex α) → Regex α
  | [] => .chars fun _ => false
  | [regex] => regex
  | regex :: regexes => .either regex (oneOf regexes)

/-- The most that a match takes. -/
def maxLen : Regex α → ℕ
  | .empty => 0
  | .chars _ => 1
  | .append first second => first.maxLen + second.maxLen
  | .either first second => max first.maxLen second.maxLen
  | .times body _ most => most * body.maxLen

/-- The least that a match takes. -/
def minLen : Regex α → ℕ
  | .empty => 0
  | .chars _ => 1
  | .append first second => first.minLen + second.minLen
  | .either first second => min first.minLen second.minLen
  | .times body least _ => least * body.minLen

/-- So many elements decide whether there is a match: the last repetition need not be gone
through. -/
def need : Regex α → ℕ
  | .empty => 0
  | .chars _ => 1
  | .append first second => first.maxLen + second.need
  | .either first second => max first.need second.need
  | .times body least _ => least * body.maxLen

/-! ## Repetitions -/

section Repeat

variable {body : List α → List ℕ} {least most n k bound : ℕ} {text rest : List α}

/-- A repetition goes on, or stops where it may. -/
theorem mem_repeatLengths_succ : n ∈ repeatLengths body least (most + 1) text ↔
    (∃ first further, first ∈ body text ∧
      further ∈ repeatLengths body (least - 1) most (text.drop first) ∧ n = first + further) ∨
      least = 0 ∧ n = 0 := by
  rw [repeatLengths, List.mem_append, List.mem_flatMap]
  constructor
  · rintro (⟨first, hfirst, hmem⟩ | hmem)
    · obtain ⟨further, hfurther, rfl⟩ := List.mem_map.mp hmem
      exact .inl ⟨first, further, hfirst, hfurther, rfl⟩
    · split at hmem
      · next hleast => exact .inr ⟨hleast, List.mem_singleton.mp hmem⟩
      · cases hmem
  · rintro (⟨first, further, hfirst, hfurther, rfl⟩ | ⟨hleast, rfl⟩)
    · exact .inl ⟨first, hfirst, List.mem_map_of_mem hfurther⟩
    · rw [if_pos hleast]
      exact .inr (List.mem_singleton_self 0)

theorem mem_repeatLengths_zero :
    n ∈ repeatLengths body least 0 text ↔ least = 0 ∧ n = 0 := by
  rw [repeatLengths]
  split
  · next hleast => rw [List.mem_singleton, and_iff_right hleast]
  · next hleast => exact ⟨fun h => (List.not_mem_nil h).elim, fun h => absurd h.1 hleast⟩

theorem repeatLengths_le (hbody : ∀ text, ∀ n ∈ body text, n ≤ text.length)
    (h : n ∈ repeatLengths body least most text) : n ≤ text.length := by
  induction most generalizing least n text with
  | zero =>
      rw [(mem_repeatLengths_zero.mp h).2]
      exact Nat.zero_le _
  | succ most ih =>
      rcases mem_repeatLengths_succ.mp h with ⟨first, further, hfirst, hfurther, rfl⟩ | ⟨_, rfl⟩
      · have hle := hbody text first hfirst
        have hrest := ih hfurther
        rw [List.length_drop] at hrest
        omega
      · exact Nat.zero_le _

theorem repeatLengths_append (hbody : ∀ text, ∀ n ∈ body text, n ≤ text.length)
    (hmore : ∀ text rest, ∀ n ∈ body text, n ∈ body (text ++ rest))
    (h : n ∈ repeatLengths body least most text) :
    n ∈ repeatLengths body least most (text ++ rest) := by
  induction most generalizing least n text with
  | zero => exact mem_repeatLengths_zero.mpr (mem_repeatLengths_zero.mp h)
  | succ most ih =>
      rw [mem_repeatLengths_succ]
      rcases mem_repeatLengths_succ.mp h with ⟨first, further, hfirst, hfurther, rfl⟩ | hstop
      · refine .inl ⟨first, further, hmore text rest first hfirst, ?_, rfl⟩
        rw [List.drop_append_of_le_length (hbody text first hfirst)]
        exact ih hfurther
      · exact .inr hstop

theorem repeatLengths_take (hcut : ∀ text k, ∀ n ∈ body text, n ≤ k → n ∈ body (text.take k))
    (h : n ∈ repeatLengths body least most text) (hk : n ≤ k) :
    n ∈ repeatLengths body least most (text.take k) := by
  induction most generalizing least n k text with
  | zero => exact mem_repeatLengths_zero.mpr (mem_repeatLengths_zero.mp h)
  | succ most ih =>
      rw [mem_repeatLengths_succ]
      rcases mem_repeatLengths_succ.mp h with ⟨first, further, hfirst, hfurther, rfl⟩ | hstop
      · refine .inl ⟨first, further, hcut text k first hfirst (by omega), ?_, rfl⟩
        rw [List.drop_take]
        exact ih hfurther (by omega)
      · exact .inr hstop

theorem le_repeatLengths (hbody : ∀ text, ∀ n ∈ body text, bound ≤ n)
    (h : n ∈ repeatLengths body least most text) : least * bound ≤ n := by
  induction most generalizing least n text with
  | zero =>
      rw [(mem_repeatLengths_zero.mp h).1, Nat.zero_mul]
      exact Nat.zero_le n
  | succ most ih =>
      rcases mem_repeatLengths_succ.mp h with ⟨first, further, hfirst, hfurther, rfl⟩ | ⟨rfl, _⟩
      · have hle := hbody text first hfirst
        have hrest := ih hfurther
        cases least with
        | zero =>
            rw [Nat.zero_mul]
            exact Nat.zero_le _
        | succ least =>
            rw [Nat.add_sub_cancel] at hrest
            rw [Nat.succ_mul]
            omega
      · rw [Nat.zero_mul]
        exact Nat.zero_le n

theorem repeatLengths_le_mul (hbody : ∀ text, ∀ n ∈ body text, n ≤ bound)
    (h : n ∈ repeatLengths body least most text) : n ≤ most * bound := by
  induction most generalizing least n text with
  | zero =>
      rw [(mem_repeatLengths_zero.mp h).2]
      exact Nat.zero_le _
  | succ most ih =>
      rcases mem_repeatLengths_succ.mp h with ⟨first, further, hfirst, hfurther, rfl⟩ | ⟨_, rfl⟩
      · have hle := hbody text first hfirst
        have hrest := ih hfurther
        rw [Nat.succ_mul]
        omega
      · exact Nat.zero_le _

/-- A repetition may stop after its least number. -/
theorem exists_repeatLengths (hbody : ∀ text, ∀ n ∈ body text, n ≤ bound)
    (h : n ∈ repeatLengths body least most text) :
    ∃ m ∈ repeatLengths body least most text, m ≤ least * bound := by
  induction most generalizing least n text with
  | zero =>
      obtain ⟨rfl, rfl⟩ := mem_repeatLengths_zero.mp h
      exact ⟨0, h, Nat.zero_le _⟩
  | succ most ih =>
      cases least with
      | zero => exact ⟨0, mem_repeatLengths_succ.mpr (.inr ⟨rfl, rfl⟩), Nat.zero_le _⟩
      | succ least =>
          rcases mem_repeatLengths_succ.mp h with ⟨first, further, hfirst, hfurther, rfl⟩ | ⟨h0, _⟩
          · obtain ⟨m, hm, hle⟩ := ih hfurther
            have hfirstLe := hbody text first hfirst
            refine ⟨first + m, mem_repeatLengths_succ.mpr (.inl ⟨first, m, hfirst, hm, rfl⟩), ?_⟩
            rw [Nat.add_sub_cancel] at hle
            rw [Nat.succ_mul]
            omega
          · cases h0

end Repeat

/-! ## Matches -/

variable {regex : Regex α} {text : List α} {n : ℕ}

theorem mem_lengths_append_iff {first second : Regex α} :
    n ∈ (append first second).lengths text ↔ ∃ before after, before ∈ first.lengths text ∧
      after ∈ second.lengths (text.drop before) ∧ n = before + after := by
  rw [lengths, List.mem_flatMap]
  constructor
  · rintro ⟨before, hbefore, hmem⟩
    obtain ⟨after, hafter, rfl⟩ := List.mem_map.mp hmem
    exact ⟨before, after, hbefore, hafter, rfl⟩
  · rintro ⟨before, after, hbefore, hafter, rfl⟩
    exact ⟨before, hbefore, List.mem_map_of_mem hafter⟩

theorem mem_lengths_chars {class_ : α → Bool} :
    n ∈ (chars class_).lengths text ↔ ∃ a rest, text = a :: rest ∧ class_ a = true ∧ n = 1 := by
  cases text with
  | nil => exact ⟨fun h => (List.not_mem_nil h).elim, fun ⟨_, _, h, _⟩ => nomatch h⟩
  | cons a rest =>
      rw [lengths]
      cases hclass : class_ a with
      | true =>
          constructor
          · intro h
            exact ⟨a, rest, rfl, hclass, List.mem_singleton.mp h⟩
          · rintro ⟨_, _, _, _, rfl⟩
            exact List.mem_singleton_self 1
      | false =>
          constructor
          · intro h
            cases h
          · rintro ⟨_, _, heq, htrue, _⟩
            cases heq
            rw [hclass] at htrue
            cases htrue

theorem lengths_le (h : n ∈ regex.lengths text) : n ≤ text.length := by
  induction regex generalizing n text with
  | empty =>
      rw [List.mem_singleton.mp h]
      exact Nat.zero_le _
  | chars class_ =>
      obtain ⟨a, rest, rfl, _, rfl⟩ := mem_lengths_chars.mp h
      exact Nat.succ_pos _
  | append first second ih ih' =>
      obtain ⟨before, after, hbefore, hafter, rfl⟩ := mem_lengths_append_iff.mp h
      have hle := ih hbefore
      have hrest := ih' hafter
      rw [List.length_drop] at hrest
      omega
  | either first second ih ih' =>
      rcases List.mem_append.mp h with h | h
      · exact ih h
      · exact ih' h
  | times body least most ih => exact repeatLengths_le (fun _ _ => ih) h

/-- **A match stays one** when more follows. -/
theorem mem_lengths_append (rest : List α) (h : n ∈ regex.lengths text) :
    n ∈ regex.lengths (text ++ rest) := by
  induction regex generalizing n text rest with
  | empty => exact h
  | chars class_ =>
      obtain ⟨a, tail, rfl, hclass, rfl⟩ := mem_lengths_chars.mp h
      exact mem_lengths_chars.mpr ⟨a, tail ++ rest, rfl, hclass, rfl⟩
  | append first second ih ih' =>
      obtain ⟨before, after, hbefore, hafter, rfl⟩ := mem_lengths_append_iff.mp h
      refine mem_lengths_append_iff.mpr ⟨before, after, ih rest hbefore, ?_, rfl⟩
      rw [List.drop_append_of_le_length (lengths_le hbefore)]
      exact ih' rest hafter
  | either first second ih ih' =>
      apply List.mem_append.mpr
      rcases List.mem_append.mp h with h | h
      · exact .inl (ih rest h)
      · exact .inr (ih' rest h)
  | times body least most ih =>
      exact repeatLengths_append (fun _ _ => lengths_le) (fun _ rest _ => ih rest) h

/-- **A match reads nothing behind itself.** -/
theorem mem_lengths_take {k : ℕ} (h : n ∈ regex.lengths text) (hk : n ≤ k) :
    n ∈ regex.lengths (text.take k) := by
  induction regex generalizing n text k with
  | empty => exact h
  | chars class_ =>
      obtain ⟨a, rest, rfl, hclass, rfl⟩ := mem_lengths_chars.mp h
      obtain ⟨k, rfl⟩ := Nat.exists_eq_add_one.mpr hk
      exact mem_lengths_chars.mpr ⟨a, rest.take k, rfl, hclass, rfl⟩
  | append first second ih ih' =>
      obtain ⟨before, after, hbefore, hafter, rfl⟩ := mem_lengths_append_iff.mp h
      refine mem_lengths_append_iff.mpr ⟨before, after, ih hbefore (by omega), ?_, rfl⟩
      rw [List.drop_take]
      exact ih' hafter (by omega)
  | either first second ih ih' =>
      apply List.mem_append.mpr
      rcases List.mem_append.mp h with h | h
      · exact .inl (ih h hk)
      · exact .inr (ih' h hk)
  | times body least most ih =>
      exact repeatLengths_take (fun _ _ _ hn hk => ih hn hk) h hk

theorem lengths_le_maxLen (h : n ∈ regex.lengths text) : n ≤ regex.maxLen := by
  induction regex generalizing n text with
  | empty => exact Nat.le_of_eq (List.mem_singleton.mp h)
  | chars class_ =>
      obtain ⟨_, _, _, _, rfl⟩ := mem_lengths_chars.mp h
      exact Nat.le_refl 1
  | append first second ih ih' =>
      obtain ⟨before, after, hbefore, hafter, rfl⟩ := mem_lengths_append_iff.mp h
      exact Nat.add_le_add (ih hbefore) (ih' hafter)
  | either first second ih ih' =>
      rcases List.mem_append.mp h with h | h
      · exact Nat.le_trans (ih h) (Nat.le_max_left _ _)
      · exact Nat.le_trans (ih' h) (Nat.le_max_right _ _)
  | times body least most ih => exact repeatLengths_le_mul (fun _ _ => ih) h

theorem minLen_le_lengths (h : n ∈ regex.lengths text) : regex.minLen ≤ n := by
  induction regex generalizing n text with
  | empty => exact Nat.zero_le n
  | chars class_ =>
      obtain ⟨_, _, _, _, rfl⟩ := mem_lengths_chars.mp h
      exact Nat.le_refl 1
  | append first second ih ih' =>
      obtain ⟨before, after, hbefore, hafter, rfl⟩ := mem_lengths_append_iff.mp h
      exact Nat.add_le_add (ih hbefore) (ih' hafter)
  | either first second ih ih' =>
      rcases List.mem_append.mp h with h | h
      · exact Nat.le_trans (Nat.min_le_left _ _) (ih h)
      · exact Nat.le_trans (Nat.min_le_right _ _) (ih' h)
  | times body least most ih => exact le_repeatLengths (fun _ _ => ih) h

/-- **Where there is a match, there is a short one.** -/
theorem exists_mem_lengths (h : n ∈ regex.lengths text) :
    ∃ m ∈ regex.lengths text, m ≤ regex.need := by
  induction regex generalizing n text with
  | empty => exact ⟨n, h, Nat.le_of_eq (List.mem_singleton.mp h)⟩
  | chars class_ => exact ⟨n, h, lengths_le_maxLen h⟩
  | append first second _ ih' =>
      obtain ⟨before, after, hbefore, hafter, rfl⟩ := mem_lengths_append_iff.mp h
      obtain ⟨m, hm, hle⟩ := ih' hafter
      exact ⟨before + m, mem_lengths_append_iff.mpr ⟨before, m, hbefore, hm, rfl⟩,
        Nat.add_le_add (lengths_le_maxLen hbefore) hle⟩
  | either first second ih ih' =>
      rcases List.mem_append.mp h with h | h
      · obtain ⟨m, hm, hle⟩ := ih h
        exact ⟨m, List.mem_append_left _ hm, Nat.le_trans hle (Nat.le_max_left _ _)⟩
      · obtain ⟨m, hm, hle⟩ := ih' h
        exact ⟨m, List.mem_append_right _ hm, Nat.le_trans hle (Nat.le_max_right _ _)⟩
  | times body least most _ => exact exists_repeatLengths (fun _ _ => lengths_le_maxLen) h

/-! ## The pattern of an expression -/

theorem head?_isSome_iff {numbers : List ℕ} : numbers.head?.isSome ↔ ∃ n, n ∈ numbers := by
  cases numbers with
  | nil => exact ⟨fun h => (Bool.false_ne_true h).elim, fun ⟨_, h⟩ => (List.not_mem_nil h).elim⟩
  | cons n numbers => exact ⟨fun _ => ⟨n, List.mem_cons_self⟩, fun _ => rfl⟩

/-- The pattern of an expression that takes at least one element. -/
def pattern (regex : Regex α) (h : 0 < regex.minLen) : Search.Pattern α where
  pick text := (regex.lengths text).head?
  pos _ _ hpick := Nat.lt_of_lt_of_le h (minLen_le_lengths (List.mem_of_mem_head? hpick))
  le _ _ hpick := lengths_le (List.mem_of_mem_head? hpick)
  more text rest hpick := by
    rw [head?_isSome_iff] at hpick ⊢
    obtain ⟨n, hn⟩ := hpick
    exact ⟨n, mem_lengths_append rest hn⟩

/-- **A bounded part of the text decides** whether an expression matches. -/
theorem pattern_decided {h : 0 < regex.minLen} {reach : ℕ} (hneed : regex.need ≤ reach) :
    (regex.pattern h).Decided reach := by
  intro text hpick
  simp only [pattern, head?_isSome_iff] at hpick ⊢
  obtain ⟨n, hn⟩ := hpick
  obtain ⟨m, hm, hle⟩ := exists_mem_lengths hn
  exact ⟨m, mem_lengths_take hm (Nat.le_trans hle hneed)⟩

end Regex

end Urma.Lib
