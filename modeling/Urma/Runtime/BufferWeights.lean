import Urma.Runtime.DiskPublish

/-!
# What the buffer of a walk counts

Quantities of a plan by the states of its transactions: what is in the mempool, and what is reserved
for the reveals still owed. A total changes by what it changes at one pair, and the buffer that is
seeded from observations counts these totals.
-/

namespace Urma.Runtime

/-! ## What the observations weigh -/

/-- A quantity of the pairs of a plan, by the states of their transactions. -/
def total (quantity : BufferedPair → State → State → ℕ) : List BufferedPair → List State → ℕ
  | pair :: pairs, commit :: reveal :: states =>
      quantity pair commit reveal + total quantity pairs states
  | _, _ => 0

/-- The weight of a pair that is in the mempool. -/
def pendingWeight (pair : BufferedPair) (commit reveal : State) : ℕ :=
  (if commit == .mempool then pair.commitWeight else 0) +
    if reveal == .mempool then pair.revealWeight else 0

/-- The weight of a reveal that its submitted commit still owes. -/
def owedWeight (pair : BufferedPair) (commit reveal : State) : ℕ :=
  if commit.isAvailable && !reveal.isAvailable then pair.revealWeight else 0

/-- Every unconfirmed submitted transaction, and the reveals still owed by submitted commits. -/
def reservedWeight (pair : BufferedPair) (commit reveal : State) : ℕ :=
  pendingWeight pair commit reveal + owedWeight pair commit reveal

/-- The commits of a pair that are in the mempool. -/
def pendingCommit (_ : BufferedPair) (commit _ : State) : ℕ :=
  if commit == .mempool then 1 else 0

/-- Their virtual bytes. -/
def pendingVbytes (pair : BufferedPair) (commit _ : State) : ℕ :=
  if commit == .mempool then Buffer.vbytes pair.commitWeight else 0

theorem total_mono {quantity quantity' : BufferedPair → State → State → ℕ}
    (h : ∀ pair commit reveal, quantity pair commit reveal ≤ quantity' pair commit reveal)
    (pairs : List BufferedPair) (states : List State) :
    total quantity pairs states ≤ total quantity' pairs states := by
  fun_induction total quantity pairs states with
  | case1 pair pairs commit reveal states ih =>
      rw [total]
      exact Nat.add_le_add (h pair commit reveal) ih
  | case2 pairs states hother => exact Nat.zero_le _

/-- **One pair at a time.** A total changes by what it changes at the pair whose states change. -/
theorem total_set (quantity : BufferedPair → State → State → ℕ) {pairs : List BufferedPair}
    {states states' : List State} {index : ℕ} {pair : BufferedPair}
    {commit reveal commit' reveal' : State} (hpair : pairs[index]? = some pair)
    (hcommit : states[index * 2]? = some commit) (hreveal : states[index * 2 + 1]? = some reveal)
    (hcommit' : states'[index * 2]? = some commit')
    (hreveal' : states'[index * 2 + 1]? = some reveal')
    (hothers : ∀ k, k ≠ index * 2 → k ≠ index * 2 + 1 → states'[k]? = states[k]?) :
    total quantity pairs states' + quantity pair commit reveal =
      total quantity pairs states + quantity pair commit' reveal' := by
  induction index generalizing pairs states states' with
  | zero =>
      match pairs, states, states' with
      | first :: pairs, a :: b :: rest, a' :: b' :: rest' =>
          cases hpair
          cases hcommit
          cases hreveal
          cases hcommit'
          cases hreveal'
          have hrest : rest' = rest := by
            apply List.ext_getElem?
            intro k
            exact hothers (k + 2) (by omega) (by omega)
          subst hrest
          simp only [total]
          omega
      | [], _, _ => simp at hpair
      | _, [], _ => simp at hcommit
      | _, [_], _ => simp at hreveal
      | _, _, [] => simp at hcommit'
      | _, _, [_] => simp at hreveal'
  | succ index ih =>
      have hodd : (index + 1) * 2 + 1 = index * 2 + 1 + 1 + 1 := by omega
      have heven : (index + 1) * 2 = index * 2 + 1 + 1 := by omega
      rw [hodd] at hreveal hreveal'
      rw [heven] at hcommit hcommit'
      match pairs, states, states' with
      | first :: pairs, a :: b :: rest, a' :: b' :: rest' =>
          have ha : a' = a := by simpa using hothers 0 (by omega) (by omega)
          have hb : b' = b := by simpa using hothers 1 (by omega) (by omega)
          subst ha hb
          have hrest := @ih pairs rest rest' hpair hcommit hreveal hcommit' hreveal' fun k hk hk' =>
            hothers (k + 2) (by omega) (by omega)
          simp only [total]
          omega
      | [], _, _ => simp at hpair
      | _, [], _ => simp at hcommit
      | _, [_], _ => simp at hcommit
      | _, _, [] => simp at hcommit'
      | _, _, [_] => simp at hcommit'

/-! ## The buffer of a walk that starts -/

/-- What the buffer counts of one pair. -/
theorem seed_eq (buffer : Buffer) (pair : BufferedPair) (commit reveal : State) :
    buffer.seed pair commit reveal =
      { weight := buffer.weight + reservedWeight pair commit reveal
        broadcastWeight := buffer.broadcastWeight + pendingWeight pair commit reveal
        commits := buffer.commits + pendingCommit pair commit reveal
        commitVbytes := buffer.commitVbytes + pendingVbytes pair commit reveal } := by
  cases commit <;> cases reveal <;>
    simp [Buffer.seed, reservedWeight, pendingWeight, owedWeight, pendingCommit, pendingVbytes,
      State.isAvailable, Nat.add_assoc]

theorem foldl_seed (pairs : List BufferedPair) (observations : List Observation)
    (buffer : Buffer) :
    (pairs.zip (twos observations)).foldl
        (fun buffer row => buffer.seed row.1 row.2.1.state row.2.2.state) buffer =
      { weight := buffer.weight +
          total reservedWeight pairs (observations.map Observation.state)
        broadcastWeight := buffer.broadcastWeight +
          total pendingWeight pairs (observations.map Observation.state)
        commits := buffer.commits +
          total pendingCommit pairs (observations.map Observation.state)
        commitVbytes := buffer.commitVbytes +
          total pendingVbytes pairs (observations.map Observation.state) } := by
  induction pairs generalizing observations buffer with
  | nil => simp [total]
  | cons pair pairs ih =>
      match observations with
      | [] => simp [twos, total]
      | [_] => simp [twos, total]
      | commit :: reveal :: observations =>
          simp only [twos, List.zip_cons_cons, List.foldl_cons, List.map_cons, total]
          rw [ih, seed_eq]
          simp only [Nat.add_assoc]

/-- **The buffer counts what was observed**: what it reserves, what is in the mempool, and the
commits among it. -/
theorem new_eq (pairs : List BufferedPair) (observations : List Observation) :
    Buffer.new pairs observations =
      { weight := total reservedWeight pairs (observations.map Observation.state)
        broadcastWeight := total pendingWeight pairs (observations.map Observation.state)
        commits := total pendingCommit pairs (observations.map Observation.state)
        commitVbytes := total pendingVbytes pairs (observations.map Observation.state) } := by
  rw [Buffer.new, foldl_seed]
  simp only [Nat.zero_add]

end Urma.Runtime
