import Urma.Runtime.Transfer

/-!
# Choosing coins

What the loop over the largest coins chooses covers a target that is linear in their number, and
coins are refused exactly when every prefix of them, up to the number a spend may have, is short of
it.
-/

namespace Urma.Runtime

open Chain Lib

variable {live : Coin → Except ServiceError Bool} {coins picked : List Coin}
  {minimum perInput total : ℕ} {liveness : Liveness}

/-! ## Choosing -/

/-- What coins are worth. -/
def worth (coins : List Coin) : ℕ :=
  (coins.map Coin.value).sum

theorem covered_of_fits {inputs : ℕ} (h : perInput * inputs + minimum ≤ u64Max) :
    covered total inputs minimum perInput =
      .ok (decide (perInput * inputs + minimum ≤ total)) := by
  have hproduct : perInput * inputs ≤ u64Max := by omega
  simp [covered, checkedMul, checkedAdd, contextService, hproduct, h]

theorem covered_of_overflow {inputs : ℕ} (h : ¬perInput * inputs + minimum ≤ u64Max) :
    covered total inputs minimum perInput = .error (.message "funding target overflow") := by
  rw [covered, checkedMul]
  split
  · simp [checkedAdd, contextService, h]
  · rfl

theorem covered_eq_true {inputs : ℕ} (h : covered total inputs minimum perInput = .ok true) :
    perInput * inputs + minimum ≤ total := by
  by_cases hfits : perInput * inputs + minimum ≤ u64Max
  · rw [covered_of_fits hfits, Except.ok.injEq, decide_eq_true_eq] at h
    exact h
  · rw [covered_of_overflow hfits] at h
    cases h

/-- What the loop chooses: at most so many coins as a spend may have, and their total. -/
theorem chooseFrom_spec {before picked' : List Coin} {total' : ℕ}
    (h : chooseFrom live minimum perInput liveness coins before total = .ok (picked', total'))
    (htotal : total = worth before) (hlength : before.length ≤ walletMaxInputs) :
    total' = worth picked' ∧ picked'.length ≤ walletMaxInputs := by
  induction coins generalizing before total with
  | nil =>
      cases h
      exact ⟨htotal, hlength⟩
  | cons coin coins ih =>
      rw [chooseFrom] at h
      obtain ⟨isCovered, -, h⟩ := Except.bind_eq_ok.mp h
      split at h
      · cases h
        exact ⟨htotal, hlength⟩
      · obtain ⟨_, hfew, h⟩ := Except.bind_eq_ok.mp h
        rw [ensureService_eq_ok, decide_eq_true_eq] at hfew
        obtain ⟨isLive, -, h⟩ := Except.bind_eq_ok.mp h
        split at h
        · exact ih h htotal hlength
        · obtain ⟨sum, hsum, h⟩ := Except.bind_eq_ok.mp h
          have hvalue : sum = total + coin.value := by
            rw [contextService_eq_ok, checkedAdd] at hsum
            split at hsum
            · cases hsum
              rfl
            · cases hsum
          refine ih h ?_ ?_
          · rw [hvalue, htotal, worth, worth, List.map_append, List.sum_append]
            rfl
          · rw [List.length_append, List.length_singleton]
            exact hfew

/-- **What is chosen covers the targets.** -/
theorem choose_spec (h : choose live coins minimum perInput liveness = .ok (picked, total)) :
    total = worth picked ∧ picked.length ≤ walletMaxInputs ∧
      perInput * picked.length + minimum ≤ total := by
  rw [choose] at h
  obtain ⟨⟨picked', total'⟩, hloop, h⟩ := Except.bind_eq_ok.mp h
  obtain ⟨isCovered, hcovered, h⟩ := Except.bind_eq_ok.mp h
  obtain ⟨_, hensure, h⟩ := Except.bind_eq_ok.mp h
  cases h
  obtain ⟨htotal, hlength⟩ := chooseFrom_spec hloop rfl (Nat.zero_le _)
  rw [ensureService_eq_ok] at hensure
  rw [hensure] at hcovered
  exact ⟨htotal, hlength, covered_eq_true hcovered⟩

/-! ## Refusing -/

/-- The reports that coins do not cover a spend. -/
def IsUncovered (error : ServiceError) : Prop :=
  error = .message tooManyInputs ∨ error = .message notCovered

/-- The last check of `choose`. -/
def lastCheck (minimum perInput : ℕ) (last : List Coin × ℕ) :
    Except ServiceError (List Coin × ℕ) := do
  let isCovered ← covered last.2 last.1.length minimum perInput
  ensureService isCovered notCovered
  .ok last

theorem choose_eq : choose live coins minimum perInput liveness =
    chooseFrom live minimum perInput liveness coins [] 0 >>= lastCheck minimum perInput := rfl

/-- So many coins and so much from them is within range and not enough. -/
def Short (minimum perInput total inputs : ℕ) : Prop :=
  total ≤ u64Max ∧ perInput * inputs + minimum ≤ u64Max ∧ total < perInput * inputs + minimum

theorem not_isUncovered_target : ¬IsUncovered (.message "funding target overflow") := by
  intro h
  rcases h with h | h
  · exact absurd (congrArg ServiceError.text h) (by decide)
  · exact absurd (congrArg ServiceError.text h) (by decide)

theorem not_isUncovered_total : ¬IsUncovered (.message "funding overflow") := by
  intro h
  rcases h with h | h
  · exact absurd (congrArg ServiceError.text h) (by decide)
  · exact absurd (congrArg ServiceError.text h) (by decide)

/-- The coins before, so much in all, and the coins to come are refused. -/
def Refused (result : Except ServiceError (List Coin × ℕ)) : Prop :=
  ∃ error, IsUncovered error ∧ result = .error error

theorem not_refused_ok {last : List Coin × ℕ} : ¬Refused (.ok last) := by
  intro h
  obtain ⟨error, -, herror⟩ := h
  cases herror

theorem not_refused_error {error : ServiceError} (h : ¬IsUncovered error) :
    ¬Refused (.error error) := by
  intro hrefused
  obtain ⟨other, hother, herror⟩ := hrefused
  cases herror
  exact h hother

/-- The last check refuses what is short. -/
theorem lastCheck_refused (htotal : total ≤ u64Max) :
    Refused (lastCheck minimum perInput (picked, total)) ↔
      Short minimum perInput total picked.length := by
  rw [lastCheck]
  by_cases hfits : perInput * picked.length + minimum ≤ u64Max
  · rw [covered_of_fits hfits, Except.ok_bind]
    by_cases hcovered : perInput * picked.length + minimum ≤ total
    · rw [decide_eq_true hcovered]
      refine iff_of_false not_refused_ok ?_
      intro hshort
      exact absurd hcovered (Nat.not_le.mpr hshort.2.2)
    · rw [decide_eq_false hcovered]
      exact iff_of_true ⟨_, Or.inr rfl, rfl⟩ ⟨htotal, hfits, Nat.lt_of_not_le hcovered⟩
  · rw [covered_of_overflow hfits]
    exact iff_of_false (not_refused_error not_isUncovered_target) fun hshort => hfits hshort.2.1

/-- **Coins that were just scanned are refused** exactly when every prefix of them, up to the number
a spend may have, is short. -/
theorem refused_iff {before : List Coin} (hlength : before.length ≤ walletMaxInputs)
    (htotal : total ≤ u64Max) :
    Refused (chooseFrom live minimum perInput .scanned coins before total >>=
        lastCheck minimum perInput) ↔
      ∀ j ≤ coins.length, before.length + j ≤ walletMaxInputs →
        Short minimum perInput (total + worth (coins.take j)) (before.length + j) := by
  induction coins generalizing before total with
  | nil =>
      rw [chooseFrom, Except.ok_bind, lastCheck_refused htotal]
      constructor
      · intro hshort j hj _
        rw [Nat.le_zero.mp hj]
        exact hshort
      · intro hall
        exact hall 0 (Nat.le_refl _) hlength
  | cons coin coins ih =>
      rw [chooseFrom]
      by_cases hshort : Short minimum perInput total before.length
      · have hcovered := @covered_of_fits minimum perInput total before.length hshort.2.1
        rw [decide_eq_false (Nat.not_le.mpr hshort.2.2)] at hcovered
        simp only [hcovered, Except.ok_bind, Bool.false_eq_true, if_false]
        by_cases hfew : before.length < walletMaxInputs
        · simp only [ensureService, decide_eq_true hfew, if_true, Except.ok_bind, stillLive,
            Bool.not_true, Bool.false_eq_true, if_false]
          by_cases hsum : total + coin.value ≤ u64Max
          · simp only [checkedAdd, if_pos hsum, contextService, Except.ok_bind]
            rw [ih (by rw [List.length_append]; exact hfew) hsum, List.length_append,
              List.length_singleton]
            constructor
            · intro hall j hj hbound
              cases j with
              | zero => exact hshort
              | succ j =>
                  have hnext := hall j (Nat.le_of_succ_le_succ hj) (by omega)
                  rw [List.take_succ_cons, worth, List.map_cons, List.sum_cons, ← Nat.add_assoc,
                    Nat.add_comm j 1, ← Nat.add_assoc]
                  exact hnext
            · intro hall j hj hbound
              have hnext := hall (j + 1) (Nat.succ_le_succ hj) (by omega)
              rw [List.take_succ_cons, worth, List.map_cons, List.sum_cons, ← Nat.add_assoc,
                Nat.add_comm j 1, ← Nat.add_assoc] at hnext
              exact hnext
          · simp only [checkedAdd, if_neg hsum, contextService]
            refine iff_of_false (not_refused_error not_isUncovered_total) ?_
            intro hall
            have hone := (hall 1 (Nat.succ_le_succ (Nat.zero_le _)) hfew).1
            rw [List.take_succ_cons, List.take_zero] at hone
            exact hsum hone
        · have hmany : before.length = walletMaxInputs := by omega
          simp only [ensureService, decide_eq_false hfew, Bool.false_eq_true, if_false]
          refine iff_of_true ⟨_, Or.inl rfl, rfl⟩ ?_
          intro j _ hbound
          have hzero : j = 0 := by omega
          rw [hzero]
          exact hshort
      · refine iff_of_false ?_ ?_
        · by_cases hfits : perInput * before.length + minimum ≤ u64Max
          · have henough : perInput * before.length + minimum ≤ total := by
              by_contra hless
              exact hshort ⟨htotal, hfits, Nat.lt_of_not_le hless⟩
            rw [covered_of_fits hfits, decide_eq_true henough]
            exact fun hrefused => hshort ((lastCheck_refused htotal).mp hrefused)
          · rw [covered_of_overflow hfits]
            exact not_refused_error not_isUncovered_target
        · intro hall
          exact hshort (hall 0 (Nat.zero_le _) hlength)

end Urma.Runtime
