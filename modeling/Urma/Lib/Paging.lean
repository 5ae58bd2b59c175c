import Mathlib.Data.List.Basic
import Mathlib.Data.List.Nodup
import Mathlib.Order.Defs.Unbundled

/-!
# Reading a sorted list by pages

Entries are ordered by a key. A page is read after a cursor, which is the key of the last entry read
before; the pages of a reading join to one sorted list. Over a fixed list, what is after the cursor
is what has not been read.
-/

namespace Urma.Lib.Paging

variable {E K : Type} {key : E → K} {before : K → K → Prop}

/-- The entries come in the order of their keys, all of them after the cursor. -/
structure After (key : E → K) (before : K → K → Prop) (cursor : Option K) (entries : List E) :
    Prop where
  ordered : entries.Pairwise fun entry later => before (key entry) (key later)
  later : ∀ after ∈ cursor, ∀ entry ∈ entries, before after (key entry)

/-- The cursor is the key of the last entry that has been read. -/
def Marks (key : E → K) (cursor : Option K) (read : List E) : Prop :=
  cursor = read.getLast?.map key

/-- What of a list is after a cursor. -/
def following (key : E → K) (before : K → K → Prop) [DecidableRel before] (all : List E)
    (cursor : Option K) : List E :=
  all.filter fun entry => cursor.all fun after => before after (key entry)

theorem After.nil (cursor : Option K) : After key before cursor [] where
  ordered := List.Pairwise.nil
  later _ _ _ hentry := absurd hentry List.not_mem_nil

/-- One entry more in front: after the cursor, and the others after it. -/
theorem After.cons [IsTrans K before] {cursor : Option K} {entry : E} {entries : List E}
    (hentry : ∀ after ∈ cursor, before after (key entry))
    (h : After key before (some (key entry)) entries) :
    After key before cursor (entry :: entries) where
  ordered := List.pairwise_cons.mpr ⟨fun other hother => h.later _ rfl other hother, h.ordered⟩
  later after hafter other hother := by
    rcases List.mem_cons.mp hother with rfl | hother
    · exact hentry after hafter
    · exact trans_of before (hentry after hafter) (h.later _ rfl other hother)

/-- The entry in front is after the cursor, and the others after it. -/
theorem After.uncons {cursor : Option K} {entry : E} {entries : List E}
    (h : After key before cursor (entry :: entries)) :
    (∀ after ∈ cursor, before after (key entry)) ∧
      After key before (some (key entry)) entries := by
  obtain ⟨hfirst, hothers⟩ := List.pairwise_cons.mp h.ordered
  refine ⟨fun after hafter => h.later after hafter entry List.mem_cons_self, hothers, ?_⟩
  intro after hafter other hother
  rw [← Option.some.inj hafter]
  exact hfirst other hother

/-- The beginning of entries after a cursor is after it. -/
theorem After.take {cursor : Option K} {entries : List E} (h : After key before cursor entries)
    (n : ℕ) : After key before cursor (entries.take n) where
  ordered := h.ordered.sublist (List.take_sublist n entries)
  later after hafter entry hentry := h.later after hafter entry (List.mem_of_mem_take hentry)

/-- **A page joins** what was read before its cursor. -/
theorem After.join [IsTrans K before] {cursor : Option K} {read page : List E}
    (hread : After key before none read) (hmarks : Marks key cursor read)
    (hpage : After key before cursor page) : After key before none (read ++ page) where
  ordered := by
    refine List.pairwise_append.mpr ⟨hread.ordered, hpage.ordered, ?_⟩
    intro entry hentry other hother
    obtain ⟨init, last, rfl⟩ : ∃ init last, read = init ++ [last] :=
      ⟨_, _, (List.dropLast_append_getLast (List.ne_nil_of_mem hentry)).symm⟩
    have hcursor : cursor = some (key last) := by
      rw [hmarks, List.getLast?_concat]
      rfl
    have hlast : before (key last) (key other) := hpage.later _ hcursor other hother
    rcases List.mem_append.mp hentry with hentry | hentry
    · exact trans_of before ((List.pairwise_append.mp hread.ordered).2.2 entry hentry last
        (List.mem_singleton_self last)) hlast
    · rw [List.mem_singleton.mp hentry]
      exact hlast
  later after hafter := by cases hafter

/-- The last entry of a page marks what has been read with the page. -/
theorem Marks.join {read page : List E} {last : E} (hlast : page.getLast? = some last) :
    Marks key (some (key last)) (read ++ page) := by
  rw [Marks, List.getLast?_append, hlast]
  rfl

/-- Sorted entries have keys that differ. -/
theorem After.nodup [Std.Irrefl before] {cursor : Option K} {entries : List E}
    (h : After key before cursor entries) : (entries.map key).Nodup := by
  rw [List.Nodup, List.pairwise_map]
  refine h.ordered.imp ?_
  intro entry later hbefore heq
  rw [heq] at hbefore
  exact irrefl _ hbefore

/-- **What follows a cursor** is what has not been read. -/
theorem following_eq [DecidableRel before] [IsTrans K before] [Std.Irrefl before]
    {cursor : Option K} {read rest : List E} (h : After key before none (read ++ rest))
    (hmarks : Marks key cursor read) :
    following key before (read ++ rest) cursor = rest := by
  obtain ⟨hread, hrest, hacross⟩ := List.pairwise_append.mp h.ordered
  rcases List.eq_nil_or_concat read with rfl | ⟨init, last, rfl⟩
  · have hcursor : cursor = none := hmarks
    rw [following, List.nil_append, hcursor]
    exact List.filter_eq_self.mpr fun _ _ => rfl
  · have hcursor : cursor = some (key last) := by
      rw [hmarks, List.concat_eq_append, List.getLast?_concat]
      rfl
    rw [following, hcursor, List.filter_append]
    have hnone : (init.concat last).filter
        (fun entry => (some (key last)).all fun after => before after (key entry)) = [] := by
      refine List.filter_eq_nil_iff.mpr ?_
      intro entry hentry hafter
      have hafter : before (key last) (key entry) := of_decide_eq_true hafter
      rw [List.concat_eq_append] at hentry hread
      rcases List.mem_append.mp hentry with hentry | hentry
      · have hbefore : before (key entry) (key last) :=
          (List.pairwise_append.mp hread).2.2 entry hentry last (List.mem_singleton_self last)
        exact irrefl _ (trans_of before hafter hbefore)
      · rw [List.mem_singleton.mp hentry] at hafter
        exact irrefl _ hafter
    have hall : rest.filter
        (fun entry => (some (key last)).all fun after => before after (key entry)) = rest := by
      refine List.filter_eq_self.mpr ?_
      intro entry hentry
      refine decide_eq_true ?_
      refine hacross last ?_ entry hentry
      rw [List.concat_eq_append]
      exact List.mem_append_right _ (List.mem_singleton_self last)
    rw [hnone, hall, List.nil_append]

end Urma.Lib.Paging
