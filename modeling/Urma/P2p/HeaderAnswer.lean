import Urma.P2p.HeaderSync

/-!
# What an answer of an honest peer does

`extend` passes over the headers of an answer that are held already. Those above the fork follow the
rules, so all of them are taken or none: they only have to have more work than what is held there.
-/

namespace Urma.P2p

open Chain Lib Urma.Runtime

section
variable {crate : PowCrate} {opened chain : HeaderChain} {branch inPlay : List Header}
  {window fresh : List Header} {header : Header} {now : ℕ}

/-! ## Headers that follow the rules are taken -/

theorem validateNext_of_valid (hvalid : chain.Valid crate window header)
    (hclock : now + maxFutureSecs ≤ u32Max) (htime : header.time.toNat ≤ now + maxFutureSecs) :
    chain.validateNext crate window header now = .ok () := by
  have hcontext : chain.validateContext crate window header = .ok () :=
    validateContext_eq_ok.mpr hvalid
  rw [HeaderChain.validateNext, hcontext, Except.ok_bind, if_pos hclock]
  exact ensureHeader_eq_ok.mpr (decide_eq_true htime)

/-- The header after a window in a list that follows the rules. -/
theorem valid_next (h : chain.AllValid crate (window ++ header :: fresh))
    (hne : window ≠ []) : chain.Valid crate window header := by
  have hpos := List.length_pos_iff.mpr hne
  have hlength : window.length - 1 + 1 = window.length := Nat.sub_add_cancel hpos
  have hvalid := h (window.length - 1) header
  rw [hlength, List.take_left] at hvalid
  apply hvalid
  rw [List.getElem?_append_right (Nat.le_refl _), Nat.sub_self]
  rfl

variable (hclock : now + maxFutureSecs ≤ u32Max)
include hclock

theorem branch_of_valid (hvalid : chain.AllValid crate (window ++ fresh)) (hne : window ≠ [])
    (htimes : ∀ other ∈ fresh, other.time.toNat ≤ now + maxFutureSecs) :
    chain.branch crate now window fresh = .ok (window ++ fresh) := by
  induction fresh generalizing window with
  | nil =>
      rw [List.append_nil]
      rfl
  | cons first rest ih =>
      have hfirst := validateNext_of_valid (valid_next hvalid hne) hclock
        (htimes first List.mem_cons_self)
      have hsplit : window ++ first :: rest = (window ++ [first]) ++ rest := by
        rw [List.append_assoc, List.singleton_append]
      rw [HeaderChain.branch, hfirst, Except.ok_bind, hsplit]
      rw [hsplit] at hvalid
      exact ih hvalid (List.append_ne_nil_of_right_ne_nil _ (List.cons_ne_nil _ _))
        fun other hother => htimes other (List.mem_cons_of_mem _ hother)

theorem appendFrom_of_valid {original : ℕ} (hvalid : chain.AllValid crate (chain.headers ++ fresh))
    (hne : chain.headers ≠ [])
    (htimes : ∀ other ∈ fresh, other.time.toNat ≤ now + maxFutureSecs) :
    ∃ next, chain.appendFrom crate original now fresh = (next, .ok ()) ∧
      next.headers = chain.headers ++ fresh := by
  induction fresh generalizing chain with
  | nil => exact ⟨chain, rfl, (List.append_nil _).symm⟩
  | cons first rest ih =>
      have hfirst := validateNext_of_valid (valid_next hvalid hne) hclock
        (htimes first List.mem_cons_self)
      have hsplit : chain.headers ++ first :: rest = (chain.push crate first).headers ++ rest := by
        rw [push_headers, List.append_assoc, List.singleton_append]
      rw [hsplit] at hvalid
      obtain ⟨next, happend, hheaders⟩ := ih (push_sameAnchor.allValid.mpr hvalid)
        (List.append_ne_nil_of_right_ne_nil _ (List.cons_ne_nil _ _))
        fun other hother => htimes other (List.mem_cons_of_mem _ hother)
      refine ⟨next, ?_, ?_⟩
      · rw [HeaderChain.appendFrom, hfirst]
        exact happend
      · rw [hheaders, hsplit]

end

/-! ## One answer -/

section
variable {crate : PowCrate} {opened chain : HeaderChain} {below branch inPlay : List Header}

/-- **A branch that follows the rules** replaces the end of the chain exactly if it has more
work. -/
theorem reorganize_of_valid (hcrate : crate.Lawful) (hsound : chain.Sound crate)
    (hfair : Plausible crate chain.chain inPlay) {base now : ℕ} {fresh : List Header}
    (hstored : ∀ header ∈ chain.headers, header ∈ inPlay)
    (hplay : ∀ header ∈ fresh, header ∈ inPlay)
    (hbase : base + 1 < chain.headers.length)
    (hcapacity : chain.headers.length + fresh.length ≤ headerCacheMax) (hfresh : fresh ≠ [])
    (hall : chain.AllValid crate (chain.headers.take (base + 1) ++ fresh))
    (hpow : ∀ header ∈ fresh, checkHeaderPow crate header chain.chain = .ok ())
    (hclock : now + maxFutureSecs ≤ u32Max)
    (htimes : ∀ header ∈ fresh, header.time.toNat ≤ now + maxFutureSecs) :
    if totalWork crate (chain.headers.drop (base + 1)) < totalWork crate fresh then
      ∃ next, chain.reorganize crate base fresh now = .ok (some next) ∧
        next.headers = chain.headers.take (base + 1) ++ fresh
    else chain.reorganize crate base fresh now = .ok none := by
  have hlength : (chain.headers.take (base + 1)).length = base + 1 := by
    rw [List.length_take]
    omega
  have hkept : chain.headers.take (base + 1) ≠ [] := by
    rw [← List.length_pos_iff, hlength]
    exact Nat.succ_pos base
  have hdropped : chain.headers.drop (base + 1) ≠ [] := by
    rw [← List.length_pos_iff, List.length_drop]
    omega
  -- the two sums do not overflow
  have hfreshWork : totalWork crate fresh < 2 ^ 256 :=
    totalWork_lt (fun header hheader => hfair.work_lt header (hplay header hheader)
      (hpow header hheader)) (by omega)
  have hdroppedWork : totalWork crate (chain.headers.drop (base + 1)) < 2 ^ 256 := by
    apply totalWork_lt
    · intro header hheader
      have hmem := List.mem_of_mem_drop hheader
      exact hfair.work_lt header (hstored header hmem) (hsound.pow header hmem)
    · rw [List.length_drop]
      omega
  rw [HeaderChain.reorganize, branch_of_valid hclock hall hkept htimes, Except.ok_bind,
    List.drop_left' hlength, workOf_eq_ok hcrate hfresh hfreshWork, Except.ok_bind,
    workOf_eq_ok hcrate hdropped hdroppedWork, Except.ok_bind]
  split
  · next hmore =>
      rw [if_neg (Nat.not_le.mpr hmore)]
      exact ⟨_, rfl, rfl⟩
  · next hless => rw [if_pos (Nat.le_of_not_lt hless)]

theorem knownCount_eq_shared {network : Chain} (hfair : Plausible crate network inPlay)
    {xs ys : List Header} (hxs : ∀ header ∈ xs, header ∈ inPlay)
    (hys : ∀ header ∈ ys, header ∈ inPlay) : knownCount crate xs ys = Fork.shared xs ys := by
  induction xs generalizing ys with
  | nil => rfl
  | cons x xs ih =>
      cases ys with
      | nil => rfl
      | cons y ys =>
          by_cases h : x = y
          · have hrest := ih (fun header hheader => hxs header (List.mem_cons_of_mem _ hheader))
              (fun header hheader => hys header (List.mem_cons_of_mem y hheader))
            rw [h, Fork.shared_cons_self, ← hrest, knownCount, List.zip_cons_cons,
              List.takeWhile_cons, if_pos (beq_self_eq_true _)]
            rfl
          · have hhash : ¬(crate.blockHash x == crate.blockHash y) = true := fun hhash =>
              h (hfair.injective x (hxs x List.mem_cons_self) y (hys y List.mem_cons_self)
                (beq_iff_eq.mp hhash))
            rw [Fork.shared_cons_of_ne h, knownCount, List.zip_cons_cons, List.takeWhile_cons,
              if_neg hhash]
            rfl

/-- The headers above the fork that an answer from an offset on holds. -/
def served (branch : List Header) (base shared : ℕ) : List Header :=
  (branch.take (base + 1 + maxHeadersPerMessage)).drop shared

theorem drop_known (branch : List Header) {base shared : ℕ} (hbase : base < shared) :
    ((branch.drop (base + 1)).take maxHeadersPerMessage).drop
      (min maxHeadersPerMessage (shared - (base + 1))) = served branch base shared := by
  apply List.ext_getElem?
  intro place
  rw [served, List.getElem?_drop, List.getElem?_drop, List.getElem?_take, List.getElem?_take,
    List.getElem?_drop]
  by_cases hfar : maxHeadersPerMessage ≤ shared - (base + 1)
  · rw [if_neg (by omega), if_neg (by omega)]
  · have hplace : base + 1 + (min maxHeadersPerMessage (shared - (base + 1)) + place) =
        shared + place := by omega
    rw [hplace]
    by_cases hin : shared + place < base + 1 + maxHeadersPerMessage
    · rw [if_pos (by omega), if_pos hin]
    · rw [if_neg (by omega), if_neg hin]

theorem mem_of_mem_served {base shared : ℕ} {header : Header}
    (h : header ∈ served branch base shared) : header ∈ branch :=
  List.mem_of_mem_take (List.mem_of_mem_drop h)

/-- What is shared and what an answer adds to it is the branch, up to the end of the answer. -/
theorem take_append_served {xs : List Header} {base : ℕ}
    (hne : served branch base (Fork.shared xs branch) ≠ []) :
    xs.take (Fork.shared xs branch) ++ served branch base (Fork.shared xs branch) =
      branch.take (base + 1 + maxHeadersPerMessage) := by
  have hle : Fork.shared xs branch ≤ base + 1 + maxHeadersPerMessage := by
    by_contra hgt
    apply hne
    rw [served, List.drop_eq_nil_iff, List.length_take]
    omega
  have htake : xs.take (Fork.shared xs branch) =
      (branch.take (base + 1 + maxHeadersPerMessage)).take (Fork.shared xs branch) := by
    rw [List.take_take, Nat.min_eq_left hle, Fork.take_shared]
  rw [htake, served, List.take_append_drop]

/-- **An answer of an honest peer** is taken exactly if it has more work above the fork than the
chain held; else nothing changes. -/
theorem extend_answer (hcrate : crate.Lawful) (hreached : opened.Reached crate chain inPlay)
    (hfair : Plausible crate opened.chain inPlay)
    (hhonest : HonestChain crate opened below branch)
    (hplay : ∀ header ∈ below ++ branch, header ∈ inPlay) {base now : ℕ}
    (hbase : base < Fork.shared chain.headers branch)
    (hcapacity : chain.headers.length +
      (served branch base (Fork.shared chain.headers branch)).length ≤ headerCacheMax)
    (hclock : now + maxFutureSecs ≤ u32Max)
    (htimes : ∀ header ∈ branch, header.time.toNat ≤ now + maxFutureSecs) :
    let shared := Fork.shared chain.headers branch
    let batch := (branch.drop (base + 1)).take maxHeadersPerMessage
    if totalWork crate (chain.headers.drop shared) <
        totalWork crate (served branch base shared) then
      ∃ next extension, chain.extend crate batch now = (next, .ok extension) ∧
        extension ≠ .ignored ∧ next.headers = branch.take (base + 1 + maxHeadersPerMessage)
    else chain.extend crate batch now = (chain, .ok .ignored) := by
  intro shared batch
  have hsound := hreached.sound
  have hsharedLe := Fork.shared_le_left chain.headers branch
  have hsharedLe' := Fork.shared_le_right chain.headers branch
  have hplayBranch : ∀ header ∈ branch, header ∈ inPlay := fun header hheader =>
    hplay header (List.mem_append_right _ hheader)
  have hplayBatch : ∀ header ∈ batch, header ∈ inPlay := fun header hheader =>
    hplayBranch header (List.mem_of_mem_drop (List.mem_of_mem_take hheader))
  have hknown : knownCount crate batch (chain.headers.drop (base + 1)) =
      min maxHeadersPerMessage (shared - (base + 1)) := by
    rw [knownCount_eq_shared hfair hplayBatch fun header hheader =>
        hreached.stored header (List.mem_of_mem_drop hheader), Fork.shared_take, Fork.shared_comm,
      Fork.shared_drop hbase]
  have hnothing : served branch base shared = [] → ¬totalWork crate (chain.headers.drop shared) <
      totalWork crate (served branch base shared) := by
    intro hnil
    rw [hnil]
    exact Nat.not_lt_zero _
  cases hbatch : batch.head? with
  | none =>
      have hnil := List.head?_eq_none_iff.mp hbatch
      have hserved : served branch base shared = [] := by
        rw [← drop_known branch hbase]
        show batch.drop _ = []
        rw [hnil, List.drop_nil]
      rw [if_neg (hnothing hserved), HeaderChain.extend, hbatch]
  | some first =>
      have hfirst : branch[base + 1]? = some first := by
        rw [List.head?_eq_getElem?, List.getElem?_take_of_lt (by decide),
          List.getElem?_drop] at hbatch
        exact hbatch
      -- the batch follows a header that both chains have
      have hprev : chain.index first.prevBlockhash = some base := by
        obtain ⟨hlength, hget⟩ := List.getElem?_eq_some_iff.mp hfirst
        have hlink := List.isChain_iff_getElem.mp hhonest.valid.isChain base hlength
        rw [hget] at hlink
        have hours : chain.headers[base]? = some branch[base] := by
          rw [Fork.getElem?_of_lt_shared hbase]
          exact List.getElem?_eq_getElem (by omega)
        exact (hsound.index _ _).mpr ⟨_, hours, hlink.symm⟩
      rw [HeaderChain.extend, hbatch]
      dsimp only
      rw [hprev]
      dsimp only
      rw [hknown, drop_known branch hbase]
      cases hempty : (served branch base shared).isEmpty with
      | true =>
          rw [if_neg (hnothing (List.isEmpty_iff.mp hempty)), if_pos rfl]
      | false =>
          have hne : served branch base shared ≠ [] := by
            intro hnil
            rw [hnil] at hempty
            cases hempty
          have hfew : shared - (base + 1) < maxHeadersPerMessage := by
            by_contra hmany
            apply hne
            rw [served, List.drop_eq_nil_iff, List.length_take]
            omega
          have hplace : base + min maxHeadersPerMessage (shared - (base + 1)) + 1 = shared := by
            omega
          have hpow : ∀ header ∈ served branch base shared,
              checkHeaderPow crate header chain.chain = .ok () := by
            intro header hheader
            rw [hreached.sameAnchor.chain_eq]
            exact hhonest.pow header (mem_of_mem_served hheader)
          have hwhole := take_append_served hne
          have hall : chain.AllValid crate (branch.take (base + 1 + maxHeadersPerMessage)) :=
            (hreached.sameAnchor.allValid.mpr hhonest.valid).take _
          have hservedTimes : ∀ header ∈ served branch base shared,
              header.time.toNat ≤ now + maxFutureSecs := fun header hheader =>
            htimes header (mem_of_mem_served hheader)
          rw [if_neg Bool.false_ne_true, if_neg (Nat.not_lt.mpr hcapacity),
            show proveBatch crate chain.chain (served branch base shared) = .ok () from
              proveFrom_eq_ok.mpr hpow]
          dsimp only
          rw [hplace]
          by_cases htip : shared = chain.headers.length
          · have hmore : totalWork crate (chain.headers.drop shared) <
                totalWork crate (served branch base shared) := by
              rw [htip, List.drop_length]
              rw [htip] at hne
              exact totalWork_pos hcrate hne
            rw [if_pos hmore, if_pos htip]
            rw [show chain.headers.take (Fork.shared chain.headers branch) = chain.headers from
              List.take_of_length_le (Nat.le_of_eq htip.symm)] at hwhole
            obtain ⟨next, happend, hheaders⟩ := @appendFrom_of_valid crate chain _ now hclock
              chain.headers.length
              (hwhole ▸ hall) hsound.nonempty hservedTimes
            refine ⟨next, .appended (served branch base shared).length, ?_, (fun h => by cases h), ?_⟩
            · rw [happend]
            · rw [hheaders, ← hwhole]
          · rw [if_neg htip]
            have hbranch := reorganize_of_valid hcrate hsound
              (by rw [hreached.sameAnchor.chain_eq]; exact hfair) hreached.stored
              (fun header hheader => hplayBranch header (mem_of_mem_served hheader))
              (by rw [hplace]; exact Nat.lt_of_le_of_ne hsharedLe htip) hcapacity hne
              (by rw [hplace, hwhole]; exact hall) hpow hclock hservedTimes
            rw [hplace] at hbranch
            split
            · next hmore =>
                rw [if_pos hmore] at hbranch
                obtain ⟨next, hnext, hheaders⟩ := hbranch
                rw [hnext]
                exact ⟨next, _, rfl, (fun h => by cases h), hheaders.trans hwhole⟩
            · next hless =>
                rw [if_neg hless] at hbranch
                rw [hbranch]

end

end Urma.P2p
