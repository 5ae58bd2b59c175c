import Mathlib.Data.Nat.Log
import Mathlib.Data.List.Basic
import Mathlib.Data.Nat.Bitwise

/-!
# Merkle trees with odd padding

The tree over a list of leaves is built level by level: neighbours are combined in pairs, and the
last one of an odd level is combined with itself. A branch is climbed from a leaf with one sibling
a level. Nothing is assumed of the node function beyond that it keeps apart the pairs a statement
lists, so a statement can be read for a hash with a finite range.
-/

namespace Urma.Lib.Merkle

variable {α : Type*}

/-! ## Levels -/

/-- The pairs of neighbours of a level; the last leaf of an odd level is paired with itself. -/
def pairs : List α → List (α × α)
  | [] => []
  | [x] => [(x, x)]
  | x :: y :: rest => (x, y) :: pairs rest

theorem pairs_length : ∀ level : List α, (pairs level).length = (level.length + 1) / 2
  | [] => by simp [pairs]
  | [_] => by rw [pairs, List.length_singleton, List.length_singleton]
  | _ :: _ :: rest => by
      rw [pairs, List.length_cons, pairs_length rest, List.length_cons, List.length_cons]
      omega

/-- The pair at a place: its left element, and its right one or the left one again. -/
theorem pairs_getElem? : ∀ (level : List α) (k : ℕ),
    (pairs level)[k]? = level[2 * k]?.map fun x => (x, level[2 * k + 1]?.getD x)
  | [], _ => rfl
  | [_], 0 => rfl
  | [_], _ + 1 => by
      rw [pairs, List.getElem?_eq_none (by simp), List.getElem?_eq_none (by simp)]
      rfl
  | _ :: _ :: _, 0 => rfl
  | _ :: _ :: rest, k + 1 => by
      have h := pairs_getElem? rest k
      rw [pairs, List.getElem?_cons_succ, h]
      rfl

/-- A level is determined by its pairs and its length. -/
theorem eq_of_pairs_eq : ∀ {level other : List α}, level.length = other.length →
    pairs level = pairs other → level = other
  | [], [], _, _ => rfl
  | [x], [y], _, h => by
      rw [pairs, pairs, List.cons.injEq, Prod.mk.injEq] at h
      rw [h.1.1]
  | x :: y :: rest, x' :: y' :: rest', hlength, h => by
      rw [pairs, pairs, List.cons.injEq, Prod.mk.injEq] at h
      rw [List.length_cons, List.length_cons, List.length_cons, List.length_cons] at hlength
      rw [h.1.1, h.1.2, eq_of_pairs_eq (by omega) h.2]

section
variable (node : α → α → α)

/-- The level above. -/
def above (level : List α) : List α :=
  (pairs level).map fun pair => node pair.1 pair.2

/-- The level `d` above the leaves. -/
def level (leaves : List α) : ℕ → List α
  | 0 => leaves
  | d + 1 => above node (level leaves d)

/-- The number of levels above `n` leaves. -/
def depth (n : ℕ) : ℕ :=
  Nat.clog 2 n

/-- The one hash of the topmost level; no leaves have no root. -/
def root (leaves : List α) : Option α :=
  (level node leaves (depth leaves.length)).head?

/-- The pairs combined in the `d` levels above the leaves. -/
def combined (leaves : List α) : ℕ → List (α × α)
  | 0 => []
  | d + 1 => pairs leaves ++ combined (above node leaves) d

end

variable {node : α → α → α} {leaves other : List α}

theorem above_length (leaves : List α) : (above node leaves).length = (leaves.length + 1) / 2 := by
  rw [above, List.length_map, pairs_length]

theorem above_getElem? (leaves : List α) (k : ℕ) :
    (above node leaves)[k]? =
      leaves[2 * k]?.map fun x => node x (leaves[2 * k + 1]?.getD x) := by
  rw [above, List.getElem?_map, pairs_getElem?, Option.map_map]
  rfl

theorem level_above (leaves : List α) (d : ℕ) :
    level node (above node leaves) d = level node leaves (d + 1) := by
  induction d with
  | zero => rfl
  | succ d ih =>
      rw [level, ih]
      rfl

theorem depth_of_two_le {n : ℕ} (h : 2 ≤ n) : depth n = depth ((n + 1) / 2) + 1 :=
  Nat.clog_of_two_le Nat.one_lt_two h

theorem depth_of_le_one {n : ℕ} (h : n ≤ 1) : depth n = 0 :=
  Nat.clog_of_right_le_one h 2

theorem two_le_of_depth {n d : ℕ} (h : depth n = d + 1) : 2 ≤ n := by
  by_contra hsmall
  rw [depth_of_le_one (by omega)] at h
  cases h

theorem depth_half {n d : ℕ} (h : depth n = d + 1) : depth ((n + 1) / 2) = d := by
  rw [depth_of_two_le (two_le_of_depth h)] at h
  exact Nat.succ.inj h

/-- The root is that of the level above. -/
theorem root_above (h : 2 ≤ leaves.length) : root node leaves = root node (above node leaves) := by
  rw [root, root, above_length, level_above, depth_of_two_le h]

theorem root_singleton (x : α) : root node [x] = some x := by
  rw [root, List.length_singleton, depth_of_le_one (by decide)]
  rfl

theorem root_pair (x y : α) : root node [x, y] = some (node x y) := by
  rw [root_above (by simp)]
  exact root_singleton (node x y)

/-- Leaves have a root. -/
theorem exists_root (h : leaves ≠ []) : ∃ x, root node leaves = some x := by
  generalize hd : depth leaves.length = d
  induction d generalizing leaves with
  | zero =>
      obtain ⟨x, rest, rfl⟩ := List.exists_cons_of_ne_nil h
      rw [root, hd]
      exact ⟨x, rfl⟩
  | succ d ih =>
      have htwo := two_le_of_depth hd
      rw [root_above htwo]
      apply ih
      · rw [← List.length_pos_iff, above_length]
        omega
      · rw [above_length]
        exact depth_half hd

/-- Nothing changes when the last pair of a level is written out in full. -/
theorem root_pad {rest : List α} {x : α} (hodd : rest.length % 2 = 0) (hne : rest ≠ []) :
    root node (rest ++ [x]) = root node (rest ++ [x, x]) := by
  have hpairs : pairs (rest ++ [x]) = pairs (rest ++ [x, x]) := by
    clear hne
    induction rest using pairs.induct with
    | case1 => rfl
    | case2 => cases hodd
    | case3 y z rest ih =>
        rw [List.length_cons, List.length_cons] at hodd
        rw [List.cons_append, List.cons_append, List.cons_append, List.cons_append, pairs, pairs,
          ih (by omega)]
  have hpos := List.length_pos_iff.mpr hne
  rw [@root_above _ _ (rest ++ [x]) (by simp; omega),
    @root_above _ _ (rest ++ [x, x]) (by simp), above, above, hpairs]

/-! ## Binding -/

/-- The node function keeps the listed pairs apart. -/
def Apart (node : α → α → α) (listed : List (α × α)) : Prop :=
  ∀ pair ∈ listed, ∀ pair' ∈ listed, node pair.1 pair.2 = node pair'.1 pair'.2 → pair = pair'

theorem Apart.mono {listed fewer : List (α × α)} (h : Apart node listed)
    (hfewer : ∀ pair ∈ fewer, pair ∈ listed) : Apart node fewer :=
  fun pair hpair pair' hpair' => h pair (hfewer pair hpair) pair' (hfewer pair' hpair')

/-- Two levels of one length below the same level are the same. -/
theorem eq_of_above_eq (h : Apart node (pairs leaves ++ pairs other))
    (hlength : leaves.length = other.length) (habove : above node leaves = above node other) :
    leaves = other := by
  apply eq_of_pairs_eq hlength
  apply List.ext_getElem?
  intro k
  have hk := congrArg (fun nodes => nodes[k]?) habove
  simp only [above, List.getElem?_map] at hk
  cases hleft : (pairs leaves)[k]? with
  | none =>
      rw [hleft] at hk
      cases hright : (pairs other)[k]? with
      | none => rfl
      | some _ => rw [hright] at hk; cases hk
  | some pair =>
      rw [hleft] at hk
      cases hright : (pairs other)[k]? with
      | none => rw [hright] at hk; cases hk
      | some pair' =>
          rw [hright] at hk
          rw [h pair (List.mem_append_left _ (List.mem_of_getElem? hleft)) pair'
            (List.mem_append_right _ (List.mem_of_getElem? hright)) (Option.some.inj hk)]

/-- **The root binds a list of known length**: two lists of one length with the same root are the
same list, as long as the nodes of the two trees are kept apart. -/
theorem eq_of_root_eq {d : ℕ} (hd : depth leaves.length = d)
    (h : Apart node (combined node leaves d ++ combined node other d))
    (hlength : leaves.length = other.length)
    (hroot : root node leaves = root node other) : leaves = other := by
  induction d generalizing leaves other with
  | zero =>
      have hone : leaves.length ≤ 1 := by
        by_contra hmore
        rw [depth_of_two_le (by omega)] at hd
        cases hd
      match leaves, other, hlength with
      | [], [], _ => rfl
      | [x], [y], _ =>
          rw [root_singleton, root_singleton] at hroot
          rw [Option.some.inj hroot]
      | _ :: _ :: _, _, _ => simp at hone
  | succ d ih =>
      have htwo := two_le_of_depth hd
      apply eq_of_above_eq
      · apply h.mono
        intro pair hpair
        rw [List.mem_append] at hpair
        rw [combined, combined, List.mem_append, List.mem_append, List.mem_append]
        exact hpair.imp Or.inl Or.inl
      · exact hlength
      · rw [@root_above _ _ leaves htwo, @root_above _ _ other (hlength ▸ htwo)] at hroot
        apply ih
        · rw [above_length]
          exact depth_half hd
        · apply h.mono
          intro pair hpair
          rw [List.mem_append] at hpair
          rw [combined, combined, List.mem_append, List.mem_append, List.mem_append]
          exact hpair.imp Or.inr Or.inr
        · rw [above_length, above_length, hlength]
        · exact hroot

/-! ## Branches -/

section
variable (node)

/-- The pairs combined on the way up from a leaf at an index. -/
def climbed : ℕ → α → List α → List (α × α)
  | _, _, [] => []
  | i, x, sibling :: rest =>
      let pair := if i % 2 = 0 then (x, sibling) else (sibling, x)
      pair :: climbed (i / 2) (node pair.1 pair.2) rest

/-- The hash reached from a leaf at an index by a branch. -/
def climb : ℕ → α → List α → α
  | _, x, [] => x
  | i, x, sibling :: rest =>
      climb (i / 2) (if i % 2 = 0 then node x sibling else node sibling x) rest

end

/-- The leaf an index stands for in a tree of `n` leaves and `d` levels: an index past the end is
in the copy of a last leaf or of a last subtree. -/
def paddedIndex : ℕ → ℕ → ℕ → ℕ
  | 0, _, i => i
  | d + 1, n, i =>
      let child := 2 * paddedIndex d ((n + 1) / 2) (i / 2)
      if child + i % 2 < n then child + i % 2 else child

theorem paddedIndex_of_lt {n i : ℕ} (d : ℕ) (h : i < n) : paddedIndex d n i = i := by
  induction d generalizing n i with
  | zero => rfl
  | succ d ih =>
      rw [paddedIndex, ih (by omega)]
      have hi : 2 * (i / 2) + i % 2 = i := by omega
      rw [hi, if_pos h]

theorem climb_cons (i : ℕ) (x sibling : α) (rest : List α) :
    climb node i x (sibling :: rest) =
      let pair := if i % 2 = 0 then (x, sibling) else (sibling, x)
      climb node (i / 2) (node pair.1 pair.2) rest := by
  rw [climb]
  split <;> rfl

/-- **An accepted branch of full length ends in a leaf**: when a branch with one sibling a level
reaches the root, what it started from is the leaf its index stands for. -/
theorem getElem?_of_climb {d i : ℕ} {x : α} {siblings : List α}
    (hd : depth leaves.length = d) (hi : i < 2 ^ d) (hlength : siblings.length = d)
    (h : Apart node (combined node leaves d ++ climbed node i x siblings))
    (hroot : root node leaves = some (climb node i x siblings)) :
    leaves[paddedIndex d leaves.length i]? = some x := by
  induction d generalizing leaves i x siblings with
  | zero =>
      have hzero : i = 0 := by omega
      have hnil := List.length_eq_zero_iff.mp hlength
      rw [hzero, hnil, climb, root, hd] at hroot
      rw [hzero, paddedIndex, ← List.head?_eq_getElem?]
      exact hroot
  | succ d ih =>
      obtain ⟨sibling, rest, rfl⟩ := List.exists_cons_of_length_eq_add_one hlength
      rw [root_above (two_le_of_depth hd), climb_cons] at hroot
      generalize hpair : (if i % 2 = 0 then (x, sibling) else (sibling, x)) = pair at hroot
      have hmem : ∀ p ∈ pairs leaves ++ [pair],
          p ∈ combined node leaves (d + 1) ++ climbed node i x (sibling :: rest) := by
        intro p hp
        rw [List.mem_append, List.mem_singleton] at hp
        rw [combined, climbed, hpair, List.mem_append, List.mem_append, List.mem_cons]
        exact hp.imp Or.inl Or.inl
      have hup : (above node leaves)[paddedIndex d (above node leaves).length (i / 2)]? =
          some (node pair.1 pair.2) := by
        apply ih
        · rw [above_length]
          exact depth_half hd
        · rw [Nat.pow_succ] at hi
          omega
        · exact Nat.succ.inj hlength
        · apply h.mono
          intro p hp
          rw [List.mem_append] at hp
          rw [combined, climbed, hpair, List.mem_append, List.mem_append, List.mem_cons]
          exact hp.imp Or.inr Or.inr
        · exact hroot
      rw [above_length] at hup
      rw [paddedIndex]
      generalize paddedIndex d ((leaves.length + 1) / 2) (i / 2) = q at hup
      rw [above, List.getElem?_map, Option.map_eq_some_iff] at hup
      obtain ⟨pair', hget, hnode⟩ := hup
      have heq : pair' = pair := h.mono hmem pair'
        (List.mem_append_left _ (List.mem_of_getElem? hget)) pair
        (List.mem_append_right _ (List.mem_singleton.mpr rfl)) hnode
      rw [pairs_getElem?, Option.map_eq_some_iff, heq] at hget
      obtain ⟨left, hleft, hright⟩ := hget
      -- an even index is the left element; an odd one the right element, or the left one again
      split at hpair
      · next heven =>
          have hlt := (List.getElem?_eq_some_iff.mp hleft).1
          rw [heven, Nat.add_zero, if_pos hlt, hleft]
          rw [← hpair, Prod.mk.injEq] at hright
          rw [hright.1]
      · next hodd =>
          have hone : i % 2 = 1 := by omega
          rw [← hpair, Prod.mk.injEq] at hright
          rw [hone]
          split
          · next hlt =>
              rw [List.getElem?_eq_getElem hlt, Option.getD_some] at hright
              rw [List.getElem?_eq_getElem hlt, hright.2]
          · next hge =>
              rw [List.getElem?_eq_none (by omega), Option.getD_none] at hright
              rw [hleft, hright.2]

/-! ## Branches of another length -/

theorem level_length_depth {k d : ℕ} (hd : depth leaves.length = k + d) :
    depth (level node leaves k).length = d := by
  induction k generalizing d with
  | zero => rw [level, hd, Nat.zero_add]
  | succ k ih =>
      rw [level, above_length]
      exact depth_half (ih (by rw [hd]; omega))

theorem root_level {k d : ℕ} (hd : depth leaves.length = k + d) :
    root node (level node leaves k) = root node leaves := by
  induction k generalizing d with
  | zero => rfl
  | succ k ih =>
      have hdepth : depth leaves.length = k + (d + 1) := by rw [hd]; omega
      rw [level, ← root_above (two_le_of_depth (level_length_depth hdepth)), ih hdepth]

theorem combined_add (leaves : List α) (k d : ℕ) :
    combined node leaves (k + d) =
      combined node leaves k ++ combined node (level node leaves k) d := by
  induction k generalizing leaves with
  | zero => rw [Nat.zero_add]; rfl
  | succ k ih =>
      rw [Nat.add_right_comm, combined, ih, combined, level_above, List.append_assoc]

/-- What stands above the leaves is a node of the tree. -/
theorem exists_combined {x : α} {k : ℕ} (h : x ∈ level node leaves (k + 1)) :
    ∃ pair ∈ combined node leaves (k + 1), node pair.1 pair.2 = x := by
  rw [level, above] at h
  obtain ⟨pair, hmem, hnode⟩ := List.mem_map.mp h
  rw [combined_add]
  refine ⟨pair, List.mem_append_right _ ?_, hnode⟩
  rw [combined]
  exact List.mem_append_left _ hmem

theorem climb_append (i : ℕ) (x : α) (first rest : List α) :
    climb node i x (first ++ rest) =
      climb node (i / 2 ^ first.length) (climb node i x first) rest := by
  induction first generalizing i x with
  | nil => rw [List.nil_append, List.length_nil, Nat.pow_zero, Nat.div_one, climb]
  | cons sibling first ih =>
      rw [List.cons_append, climb, ih, climb, List.length_cons, Nat.pow_succ', Nat.div_div_eq_div_mul]

theorem climbed_append (i : ℕ) (x : α) (first rest : List α) :
    climbed node i x (first ++ rest) =
      climbed node i x first ++
        climbed node (i / 2 ^ first.length) (climb node i x first) rest := by
  induction first generalizing i x with
  | nil => rw [List.nil_append, List.length_nil, Nat.pow_zero, Nat.div_one, climb]; rfl
  | cons sibling first ih =>
      rw [List.cons_append, climbed, ih, climb_cons, climbed, List.length_cons, Nat.pow_succ',
        Nat.div_div_eq_div_mul]
      rfl

/-- A branch that is not empty reaches a node it combined. -/
theorem exists_climbed {i : ℕ} {x : α} {siblings : List α} (h : siblings ≠ []) :
    ∃ pair ∈ climbed node i x siblings, node pair.1 pair.2 = climb node i x siblings := by
  induction siblings generalizing i x with
  | nil => exact absurd rfl h
  | cons sibling rest ih =>
      rw [climb_cons, climbed]
      cases rest with
      | nil => exact ⟨_, List.mem_cons_self, rfl⟩
      | cons next rest =>
          obtain ⟨pair, hmem, hnode⟩ := ih (List.cons_ne_nil next rest)
          exact ⟨pair, List.mem_cons_of_mem _ hmem, hnode⟩

/-- **A branch of another length mixes a leaf up with a node**: when a branch reaches the root
of a tree with more or with fewer levels, what it started from or a leaf of the tree is a node. -/
theorem exists_node_of_climb {i : ℕ} {x : α} {siblings : List α}
    (hi : i < 2 ^ siblings.length) (hlength : siblings.length ≠ depth leaves.length)
    (h : Apart node (combined node leaves (depth leaves.length) ++ climbed node i x siblings))
    (hroot : root node leaves = some (climb node i x siblings)) :
    ∃ leaf, (leaf = x ∨ leaf ∈ leaves) ∧
      ∃ pair ∈ combined node leaves (depth leaves.length) ++ climbed node i x siblings,
        node pair.1 pair.2 = leaf := by
  rcases Nat.lt_or_gt_of_ne hlength with hshort | hlong
  · -- the branch starts `k + 1` levels above the leaves
    obtain ⟨k, hk⟩ := Nat.exists_eq_add_of_lt hshort
    have hd : depth leaves.length = (k + 1) + siblings.length := by omega
    rw [hd, combined_add] at h
    have hget := getElem?_of_climb (level_length_depth hd) hi rfl
      (h.mono fun p hp => by
        rw [List.append_assoc]
        exact List.mem_append_right _ hp)
      (by rw [root_level hd]; exact hroot)
    obtain ⟨pair, hmem, hnode⟩ := exists_combined (List.mem_of_getElem? hget)
    refine ⟨x, Or.inl rfl, pair, List.mem_append_left _ ?_, hnode⟩
    rw [hd, combined_add]
    exact List.mem_append_left _ hmem
  · -- the last `depth` siblings are a branch of full length
    generalize hd : depth leaves.length = d at h hlong ⊢
    obtain ⟨k, hk⟩ := Nat.exists_eq_add_of_lt hlong
    have htake : (siblings.take (k + 1)).length = k + 1 := by
      rw [List.length_take]
      omega
    have hdrop : (siblings.drop (k + 1)).length = d := by
      rw [List.length_drop]
      omega
    have hsplit := List.take_append_drop (k + 1) siblings
    rw [← hsplit, climb_append, htake] at hroot
    rw [← hsplit, climbed_append, htake] at h ⊢
    have hget := getElem?_of_climb hd
      (by
        rw [hk, Nat.add_assoc, Nat.pow_add] at hi
        exact Nat.div_lt_of_lt_mul (by rw [Nat.mul_comm]; exact hi))
      hdrop
      (h.mono fun p hp => by
        rw [List.mem_append] at hp ⊢
        exact hp.imp id (List.mem_append_right _))
      hroot
    have hne : siblings.take (k + 1) ≠ [] := by
      rw [← List.length_pos_iff, htake]
      omega
    obtain ⟨pair, hmem, hnode⟩ := exists_climbed hne
    exact ⟨_, Or.inr (List.mem_of_getElem? hget), pair,
      List.mem_append_right _ (List.mem_append_left _ hmem), hnode⟩

/-! ## The branch of a leaf -/

/-- The other child below the same node. -/
theorem xor_one (i : ℕ) : i ^^^ 1 = if i % 2 = 0 then i + 1 else i - 1 := by
  split
  · next heven => exact Nat.xor_one_of_even (Nat.even_iff.mpr heven)
  · next hodd => exact Nat.xor_one_of_odd (Nat.odd_iff.mpr (by omega))

/-- What a leaf is combined with: its neighbour, or itself at the end of an odd level. -/
def siblingOf (leaves : List α) (i : ℕ) (x : α) : α :=
  leaves[i ^^^ 1]?.getD x

/-- A leaf and its sibling are the pair below the node above them. -/
theorem above_siblingOf {i : ℕ} {x : α} (h : leaves[i]? = some x) :
    (above node leaves)[i / 2]? =
      some (if i % 2 = 0 then node x (siblingOf leaves i x) else node (siblingOf leaves i x) x) := by
  rw [above_getElem?, siblingOf, xor_one]
  split
  · next heven =>
      have hi : 2 * (i / 2) = i := by omega
      rw [hi, h]
      rfl
  · next hodd =>
      have hi : 2 * (i / 2) = i - 1 := by omega
      have hsucc : i - 1 + 1 = i := by omega
      have hlt : i - 1 < leaves.length := by
        have := (List.getElem?_eq_some_iff.mp h).1
        omega
      rw [hi, hsucc, h, List.getElem?_eq_getElem hlt]
      rfl

/-- The siblings on the way up from a leaf through `d` levels. -/
def branch (node : α → α → α) : ℕ → List α → ℕ → α → List α
  | 0, _, _, _ => []
  | d + 1, leaves, i, x =>
      let sibling := siblingOf leaves i x
      sibling :: branch node d (above node leaves) (i / 2)
        (if i % 2 = 0 then node x sibling else node sibling x)

theorem branch_length (d : ℕ) (leaves : List α) (i : ℕ) (x : α) :
    (branch node d leaves i x).length = d := by
  induction d generalizing leaves i x with
  | zero => rfl
  | succ d ih => rw [branch, List.length_cons, ih]

/-- **The branch of a leaf reaches the root.** -/
theorem climb_branch {d i : ℕ} {x : α} (hd : depth leaves.length = d) (h : leaves[i]? = some x) :
    root node leaves = some (climb node i x (branch node d leaves i x)) := by
  induction d generalizing leaves i x with
  | zero =>
      have hone : leaves.length ≤ 1 := by
        by_contra hmore
        rw [depth_of_two_le (by omega)] at hd
        cases hd
      have hlt := (List.getElem?_eq_some_iff.mp h).1
      have hzero : i = 0 := by omega
      rw [root, hd, branch, climb, level, List.head?_eq_getElem?, ← hzero, h]
  | succ d ih =>
      rw [root_above (two_le_of_depth hd), branch, climb]
      apply ih
      · rw [above_length]
        exact depth_half hd
      · exact above_siblingOf h

end Urma.Lib.Merkle
