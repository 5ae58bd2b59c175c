import Mathlib.Data.List.Nodup
import Mathlib.Data.List.Basic
import Std.Data.ExtTreeMap

/-!
# A keyed table with a pre-image journal

A transaction over a table keeps a *frame*: the first value each touched key had
before the transaction, absence included. Writing the frame back restores the
table, whatever the transaction wrote and however often.

`Records before after frame` is the invariant a frame keeps while a transaction
runs. It is established by the empty frame, kept by every write that remembers its
key first (`Records.write`), and it is all that undoing (`Records.restore`) and
replaying (`Records.replay`) need.
-/

namespace Urma.Lib.Journal

open Std

variable {K V : Type} [Ord K] [TransOrd K] [LawfulEqOrd K] [DecidableEq K]

/-- First pre-images, in the order in which their keys were first touched. -/
abbrev Frame (K V : Type) := List (K × Option V)

/-- Write a value, or its absence. -/
def put (table : ExtTreeMap K V) (key : K) : Option V → ExtTreeMap K V
  | some value => table.insert key value
  | none => table.erase key

/-- Write every entry of a list, in order. -/
def putAll (entries : Frame K V) (table : ExtTreeMap K V) : ExtTreeMap K V :=
  entries.foldl (fun table entry => put table entry.1 entry.2) table

/-- Add the pre-image of `key` to the frame, unless the frame already has one. -/
def Frame.remember (frame : Frame K V) (table : ExtTreeMap K V) (key : K) : Frame K V :=
  if frame.any (fun entry => entry.1 = key) then frame else frame ++ [(key, table[key]?)]

/-! ## Reading after writing -/

omit [DecidableEq K] in
@[simp] theorem get_put_self (table : ExtTreeMap K V) (key : K) (value : Option V) :
    (put table key value)[key]? = value := by
  cases value <;> simp [put]

omit [DecidableEq K] in
theorem get_put_of_ne {table : ExtTreeMap K V} {key other : K} (h : key ≠ other)
    (value : Option V) : (put table key value)[other]? = table[other]? := by
  cases value <;> simp [put, ExtTreeMap.getElem?_insert, ExtTreeMap.getElem?_erase, h]

omit [DecidableEq K] in
/-- A key that no entry writes keeps its value. -/
theorem get_putAll_of_notMem {entries : Frame K V} {key : K}
    (h : key ∉ entries.map Prod.fst) (table : ExtTreeMap K V) :
    (putAll entries table)[key]? = table[key]? := by
  induction entries generalizing table with
  | nil => rfl
  | cons entry rest ih =>
      rw [List.map_cons, List.mem_cons, not_or] at h
      show (putAll rest (put table entry.1 entry.2))[key]? = table[key]?
      rw [ih h.2, get_put_of_ne (Ne.symm h.1)]

omit [DecidableEq K] in
/-- When no key is written twice, each written key holds the value of its entry. -/
theorem get_putAll_of_mem {entries : Frame K V} (hnodup : (entries.map Prod.fst).Nodup)
    {key : K} {value : Option V} (h : (key, value) ∈ entries) (table : ExtTreeMap K V) :
    (putAll entries table)[key]? = value := by
  induction entries generalizing table with
  | nil => cases h
  | cons entry rest ih =>
      rw [List.map_cons, List.nodup_cons] at hnodup
      show (putAll rest (put table entry.1 entry.2))[key]? = value
      rcases List.mem_cons.mp h with rfl | h
      · rw [get_putAll_of_notMem hnodup.1, get_put_self]
      · exact ih hnodup.2 h _

/-! ## The journal invariant -/

/-- `frame` holds exactly one pre-image for each key at which `after` may differ
from `before`. -/
structure Records (before after : ExtTreeMap K V) (frame : Frame K V) : Prop where
  nodup : (frame.map Prod.fst).Nodup
  image : ∀ entry ∈ frame, entry.2 = before[entry.1]?
  same : ∀ key, key ∉ frame.map Prod.fst → after[key]? = before[key]?

omit [LawfulEqOrd K] [DecidableEq K] in
theorem Records.empty (table : ExtTreeMap K V) : Records table table [] :=
  ⟨List.nodup_nil, fun _ h => absurd h List.not_mem_nil, fun _ _ => rfl⟩

omit [TransOrd K] [LawfulEqOrd K] [Ord K] in
private theorem any_key_iff {frame : Frame K V} {key : K} :
    frame.any (fun entry => entry.1 = key) = true ↔ key ∈ frame.map Prod.fst := by
  simp [List.any_eq_true, List.mem_map]

omit [LawfulEqOrd K] in
theorem Frame.remember_of_mem {frame : Frame K V} {table : ExtTreeMap K V} {key : K}
    (h : key ∈ frame.map Prod.fst) : frame.remember table key = frame := by
  unfold Frame.remember
  rw [if_pos (any_key_iff.mpr h)]

omit [LawfulEqOrd K] in
theorem Frame.remember_of_notMem {frame : Frame K V} {table : ExtTreeMap K V} {key : K}
    (h : key ∉ frame.map Prod.fst) :
    frame.remember table key = frame ++ [(key, table[key]?)] := by
  unfold Frame.remember
  rw [if_neg (fun hany => h (any_key_iff.mp hany))]

/-- **Remember, then write.** A key may be written in any way once its pre-image has
been remembered, which happens before the write. -/
theorem Records.write {before after : ExtTreeMap K V} {frame : Frame K V}
    (h : Records before after frame) (key : K) (value : Option V) :
    Records before (put after key value) (frame.remember after key) := by
  by_cases hmem : key ∈ frame.map Prod.fst
  · rw [Frame.remember_of_mem hmem]
    refine ⟨h.nodup, h.image, fun other hother => ?_⟩
    have hne : key ≠ other := fun heq => hother (heq ▸ hmem)
    rw [get_put_of_ne hne, h.same other hother]
  · rw [Frame.remember_of_notMem hmem]
    refine ⟨?_, ?_, ?_⟩
    · rw [List.map_append, List.nodup_append]
      refine ⟨h.nodup, by simp, ?_⟩
      intro a ha b hb
      simp only [List.map_cons, List.map_nil, List.mem_singleton] at hb
      subst hb
      exact fun heq => hmem (heq ▸ ha)
    · intro entry hentry
      rcases List.mem_append.mp hentry with hentry | hentry
      · exact h.image entry hentry
      · rw [List.mem_singleton] at hentry
        subst hentry
        exact h.same key hmem
    · intro other hother
      rw [List.map_append, List.mem_append, not_or] at hother
      have hne : key ≠ other := by
        intro heq
        exact hother.2 (by simp [heq])
      rw [get_put_of_ne hne, h.same other hother.1]

omit [DecidableEq K] in
/-- **Undo.** Writing the pre-images back restores the table. -/
theorem Records.restore {before after : ExtTreeMap K V} {frame : Frame K V}
    (h : Records before after frame) : putAll frame after = before := by
  apply ExtTreeMap.ext_getElem?
  intro key
  by_cases hmem : key ∈ frame.map Prod.fst
  · obtain ⟨entry, hentry, rfl⟩ := List.mem_map.mp hmem
    rw [get_putAll_of_mem h.nodup hentry, h.image entry hentry]
  · rw [get_putAll_of_notMem hmem, h.same key hmem]

omit [DecidableEq K] in
/-- **Replay.** Writing the current values of the touched keys into the old table
gives the new one. -/
theorem Records.replay {before after : ExtTreeMap K V} {frame : Frame K V}
    (h : Records before after frame) :
    putAll (frame.map fun entry => (entry.1, after[entry.1]?)) before = after := by
  have hkeys : (frame.map fun entry => (entry.1, after[entry.1]?)).map Prod.fst =
      frame.map Prod.fst := by
    rw [List.map_map]; rfl
  apply ExtTreeMap.ext_getElem?
  intro key
  by_cases hmem : key ∈ frame.map Prod.fst
  · obtain ⟨entry, hentry, rfl⟩ := List.mem_map.mp hmem
    exact get_putAll_of_mem (hkeys ▸ h.nodup) (List.mem_map.mpr ⟨entry, hentry, rfl⟩) before
  · rw [get_putAll_of_notMem (hkeys ▸ hmem), h.same key hmem]

end Urma.Lib.Journal
