import Urma.Lib.Best
import Urma.Runtime.Prepare

/-!
# The coins of a wallet

`urma_runtime::wallet`: the coins that a node reports are ranked by value, and only so many are
kept. What the wallet shows are the largest of them that the node confirms to be unspent; the others
are counted as skipped.
-/

namespace Urma.Runtime

open Std
open Chain Lib

/-! ## Data -/

/-- `config::WALLET_VERIFY_OUTPUTS`. -/
def walletVerifyOutputs : ℕ := 64

/-- `config::WALLET_CHECKS`. -/
def walletChecks : ℕ := 2 * walletVerifyOutputs

/-- `wallet::Coin`. -/
structure Coin where
  outpoint : OutPoint
  value : ℕ
  height : ℕ
  path : KeyPath
  deriving DecidableEq

/-- `wallet::WalletView`. -/
structure WalletView where
  coins : List Coin
  nextChange : ℕ
  reported : ℕ
  verified : Bool
  skipped : ℕ
  deriving DecidableEq

/-- `wallet::Candidates`. -/
structure Candidates where
  coins : List Coin
  reported : ℕ
  deriving DecidableEq

/-! ## Candidates -/

/-- The order of `(Reverse(held.value), held.outpoint)`. -/
def Coin.rank : Coin → Coin → Ordering :=
  compareLex (fun a b => compareOn Coin.value b a)
    (compareLex (compareOn fun coin => coin.outpoint.txid) (compareOn fun coin => coin.outpoint.vout))

/-- Two coins of one outpoint. -/
def Coin.same (a b : Coin) : Bool :=
  a.outpoint == b.outpoint

namespace Candidates

/-- `Candidates::new`. -/
def new : Candidates := ⟨[], 0⟩

/-- `Candidates::add`. -/
def add (candidates : Candidates) (coin : Coin) : Candidates :=
  if candidates.coins.any fun held => held.outpoint == coin.outpoint then candidates
  else
    let position := Best.partitionPoint (fun held => Coin.rank held coin == .lt) candidates.coins
    { coins :=
        if position < walletChecks then (candidates.coins.insertIdx position coin).take walletChecks
        else candidates.coins
      reported := candidates.reported + 1 }

/-- `Candidates::largest`. -/
def largest (candidates : Candidates) : List Coin :=
  candidates.coins

/-- The candidates after the coins that a node reports. -/
def gather (coins : List Coin) : Candidates :=
  coins.foldl add new

end Candidates

/-! ## The wallet -/

/-- What `wallet` asks of the node and the account. -/
structure WalletNode where
  /-- `verify_network`. -/
  verifyNetwork : Except ServiceError Unit
  /-- `account.chain().genesis()`. -/
  accountGenesis : Except ServiceError Bytes32
  /-- `self.chain().genesis()`. -/
  nodeGenesis : Except ServiceError Bytes32
  /-- The coins that `routed_coins` or `local_coins` adds, in their order. -/
  coins : Except ServiceError (List Coin)
  /-- `live`. -/
  live : Coin → Except ServiceError Bool

/-- The loop of `wallet` over the largest candidates. -/
def examine (live : Coin → Except ServiceError Bool) :
    List Coin → List Coin → ℕ → Except ServiceError (List Coin × ℕ)
  | [], found, checked => .ok (found, checked)
  | coin :: rest, found, checked =>
      if found.length = walletVerifyOutputs then .ok (found, checked)
      else do
        let isLive ← live coin
        examine live rest (if isLive then found ++ [coin] else found) (checked + 1)

/-- The first unused change index of these coins. -/
def nextChange (coins : List Coin) : ℕ :=
  (coins.filter fun coin => coin.path.branch == .internal).foldl
    (fun next coin => max next (coin.path.index + 1)) 0

/-- `Node::wallet`. -/
def wallet (node : WalletNode) : Except ServiceError WalletView := do
  node.verifyNetwork
  let accountGenesis ← node.accountGenesis
  let nodeGenesis ← node.nodeGenesis
  ensureService (accountGenesis == nodeGenesis) "funding account belongs to another chain"
  let coins ← node.coins
  let candidates := Candidates.gather coins
  let (live, checked) ← examine node.live candidates.largest [] 0
  .ok {
    coins := live
    nextChange := nextChange live
    reported := candidates.reported
    verified := true
    skipped := candidates.reported - checked }

/-! ## What the candidates keep -/

instance : TransCmp Coin.rank :=
  inferInstanceAs (TransCmp (compareLex (fun a b => compareOn Coin.value b a)
    (compareLex (compareOn fun coin => coin.outpoint.txid)
      (compareOn fun coin => coin.outpoint.vout))))

/-- Coins of one outpoint are one coin. -/
def Consistent (coins : List Coin) : Prop :=
  ∀ a ∈ coins, ∀ b ∈ coins, a.outpoint = b.outpoint → a = b

/-- The largest distinct coins. -/
def bestCoins (coins : List Coin) : List Coin :=
  Best.best Coin.rank walletChecks coins

/-- The number of distinct outpoints. -/
def outpoints (coins : List Coin) : ℕ :=
  (coins.map Coin.outpoint).dedup.length

/-- **No coin comes again that is behind so many others**: what is offered again is still kept. -/
def OfferedAgainInTime (coins : List Coin) : Prop :=
  ∀ before coin after, coins = before ++ coin :: after → coin ∈ before →
    (before.filter fun other => Coin.rank other coin == .lt).dedup.length < walletChecks

variable {coins others : List Coin}

/-- Coins of one rank have one outpoint. -/
theorem outpoint_eq_of_rank {a b : Coin} (h : Coin.rank a b = .eq) : a.outpoint = b.outpoint := by
  simp only [Coin.rank, compareLex_eq_eq, compareOn] at h
  have htxid : a.outpoint.txid = b.outpoint.txid := LawfulEqOrd.eq_of_compare h.2.1
  have hvout : a.outpoint.vout = b.outpoint.vout := LawfulEqOrd.eq_of_compare h.2.2
  calc a.outpoint = ⟨a.outpoint.txid, a.outpoint.vout⟩ := rfl
    _ = ⟨b.outpoint.txid, b.outpoint.vout⟩ := by rw [htxid, hvout]
    _ = b.outpoint := rfl

theorem Consistent.apart (h : Consistent coins) : Best.Apart Coin.rank Coin.same coins where
  eq_of_cmp a ha b hb hrank := h a ha b hb (outpoint_eq_of_rank hrank)
  same_iff a ha b hb := by
    rw [Coin.same, beq_iff_eq]
    exact ⟨h a ha b hb, fun heq => heq ▸ rfl⟩

theorem Consistent.mono (h : Consistent coins) (hsub : ∀ coin ∈ others, coin ∈ coins) :
    Consistent others :=
  fun a ha b hb => h a (hsub a ha) b (hsub b hb)

/-- Consistent coins are as many as their outpoints. -/
theorem Consistent.outpoints (h : Consistent coins) :
    outpoints coins = coins.dedup.length := by
  induction coins with
  | nil => rfl
  | cons coin rest ih =>
      have hrest := ih (h.mono fun other hother => List.mem_cons_of_mem _ hother)
      have hmem : coin.outpoint ∈ rest.map Coin.outpoint ↔ coin ∈ rest := by
        constructor
        · intro hmem
          obtain ⟨other, hother, heq⟩ := List.mem_map.mp hmem
          rw [← h other (List.mem_cons_of_mem _ hother) coin List.mem_cons_self heq]
          exact hother
        · exact List.mem_map_of_mem
      rw [Runtime.outpoints] at hrest
      rw [Runtime.outpoints, List.map_cons, Best.distinct_cons, Best.distinct_cons, hrest,
        if_congr hmem rfl rfl]

namespace Candidates

/-- **One step**: the coin is offered to the kept ones, and is counted if it is not among them. -/
theorem add_eq (candidates : Candidates) (coin : Coin) :
    candidates.add coin =
      ⟨Best.offer Coin.rank Coin.same walletChecks candidates.coins coin,
        candidates.reported + if candidates.coins.any (Coin.same · coin) then 0 else 1⟩ := by
  have hsame : (candidates.coins.any fun held => held.outpoint == coin.outpoint) =
      candidates.coins.any (Coin.same · coin) := rfl
  rw [add, hsame, Best.offer]
  cases candidates.coins.any (Coin.same · coin) with
  | true => rfl
  | false => rfl

/-- **A run**: the offers one after another, and the count of those that were not kept. -/
theorem foldl_add (candidates : Candidates) (coins : List Coin) :
    coins.foldl add candidates =
      ⟨coins.foldl (Best.offer Coin.rank Coin.same walletChecks) candidates.coins,
        candidates.reported +
          Best.counted Coin.rank Coin.same walletChecks candidates.coins coins⟩ := by
  induction coins generalizing candidates with
  | nil => rfl
  | cons coin rest ih =>
      rw [List.foldl_cons, ih, add_eq, Best.counted, Nat.add_assoc]
      rfl

theorem gather_coins (coins : List Coin) :
    (gather coins).coins = coins.foldl (Best.offer Coin.rank Coin.same walletChecks) [] := by
  rw [gather, foldl_add]
  rfl

theorem gather_reported (coins : List Coin) :
    (gather coins).reported = Best.counted Coin.rank Coin.same walletChecks [] coins := by
  rw [gather, foldl_add]
  exact Nat.zero_add _

/-- What is kept is the best of what was offered. -/
theorem gather_isBest (h : Consistent coins) :
    Best.IsBest Coin.rank walletChecks coins (gather coins).coins := by
  have hnil : Best.IsBest Coin.rank walletChecks ([] : List Coin) [] := Best.isBest_nil
  have hapart : Best.Apart Coin.rank Coin.same (coins ++ []) := by
    rw [List.append_nil]
    exact h.apart
  have hstream := hnil.stream hapart
  rw [List.append_nil] at hstream
  rw [gather_coins]
  exact hstream

theorem gather_largest (h : Consistent coins) : (gather coins).largest = bestCoins coins :=
  (gather_isBest h).unique (Best.isBest_best h.apart) fun _ => Iff.rfl

/-- **The count of the reported coins** is at least that of the outpoints, and equals it exactly
when no coin comes again too late. -/
theorem gather_reported_iff (h : Consistent coins) :
    outpoints coins ≤ (gather coins).reported ∧
      ((gather coins).reported = outpoints coins ↔ OfferedAgainInTime coins) := by
  have hnil : Best.IsBest Coin.rank walletChecks ([] : List Coin) [] := Best.isBest_nil
  have hapart : Best.Apart Coin.rank Coin.same (coins ++ []) := by
    rw [List.append_nil]
    exact h.apart
  obtain ⟨hle, hiff⟩ := Best.counted_eq_iff hnil hapart
  rw [List.append_nil, List.dedup_nil, List.length_nil, Nat.zero_add] at hle hiff
  rw [h.outpoints, gather_reported]
  refine ⟨hle, hiff.trans ?_⟩
  simp only [Best.Remembered, OfferedAgainInTime, List.append_nil]

/-- There are no more kept coins than outpoints. -/
theorem largest_length_le (h : Consistent coins) : (gather coins).largest.length ≤ outpoints coins := by
  have hbest := gather_isBest h
  rw [h.outpoints]
  exact ((Best.nodup_of_sorted hbest.sorted).subperm fun coin hcoin =>
    List.mem_dedup.mpr (hbest.mem coin hcoin)).length_le

end Candidates

/-! ## What the wallet skips -/

/-- No more coins are checked than there are. -/
theorem examine_checked_le {live : Coin → Except ServiceError Bool} {found found' : List Coin}
    {checked checked' : ℕ} (h : examine live coins found checked = .ok (found', checked')) :
    checked' ≤ checked + coins.length := by
  induction coins generalizing found checked with
  | nil =>
      cases h
      exact Nat.le_refl _
  | cons coin rest ih =>
      rw [examine] at h
      split at h
      · cases h
        exact Nat.le_add_right _ _
      · obtain ⟨isLive, _, hrest⟩ := Except.bind_eq_ok.mp h
        have hle := ih hrest
        rw [List.length_cons]
        omega

/-- What a wallet shows, of the coins that were reported. -/
theorem wallet_eq_ok {node : WalletNode} {view : WalletView} (h : wallet node = .ok view)
    (hcoins : node.coins = .ok coins) :
    ∃ checked, examine node.live (Candidates.gather coins).largest [] 0 = .ok (view.coins, checked) ∧
      view.skipped = (Candidates.gather coins).reported - checked := by
  simp only [wallet, Except.bind_eq_ok, Prod.exists] at h
  obtain ⟨_, _, _, _, _, _, _, _, coins', hcoins', live, checked, hexamine, hview⟩ := h
  rw [hcoins] at hcoins'
  cases hcoins'
  cases hview
  exact ⟨checked, hexamine, rfl⟩

/-- **The candidates are the best distinct coins**, whatever order they come in and however often.
The count of the reported ones, and with it the count of those the wallet skips, is that of the
outpoints if and only if no coin is offered again behind 128 better ones. -/
theorem candidates_exact (h : Consistent coins) :
    (Candidates.gather coins).largest = bestCoins coins ∧
    (∀ other, (∀ coin, coin ∈ other ↔ coin ∈ coins) →
      (Candidates.gather other).largest = (Candidates.gather coins).largest) ∧
    ((Candidates.gather coins).reported = outpoints coins ↔ OfferedAgainInTime coins) ∧
    ∀ node view, node.coins = .ok coins → wallet node = .ok view →
      ∃ checked, examine node.live (bestCoins coins) [] 0 = .ok (view.coins, checked) ∧
        checked ≤ outpoints coins ∧
        (view.skipped = outpoints coins - checked ↔ OfferedAgainInTime coins) := by
  obtain ⟨hle, hiff⟩ := Candidates.gather_reported_iff h
  refine ⟨Candidates.gather_largest h, ?_, hiff, ?_⟩
  · intro other hsame
    have hother : Consistent other := h.mono fun coin hcoin => (hsame coin).mp hcoin
    exact (Candidates.gather_isBest hother).unique (Candidates.gather_isBest h) hsame
  · intro node view hcoins hwallet
    obtain ⟨checked, hexamine, hskipped⟩ := wallet_eq_ok hwallet hcoins
    have hchecked := examine_checked_le hexamine
    have hlargest := Candidates.largest_length_le h
    rw [Candidates.gather_largest h] at hexamine
    refine ⟨checked, hexamine, by omega, ?_⟩
    rw [hskipped, ← hiff]
    omega

namespace Candidates.Sample

/-- A coin for each index, of ascending value. -/
def coinAt (index : ℕ) : Coin where
  outpoint := ⟨⟨Vector.replicate 32 4⟩, UInt32.ofNat index⟩
  value := 1000 + index
  height := 1
  path := KeyPath.receive

/-- 128 coins that are larger than the first. -/
def larger : List Coin :=
  (List.range 128).map fun index => coinAt (index + 1)

/-- The first coin is offered, the larger ones, and the first one again. -/
def offered : List Coin :=
  coinAt 0 :: (larger ++ [coinAt 0])

theorem coinAt_consistent {i j : ℕ} (hi : i < 129) (hj : j < 129)
    (h : (coinAt i).outpoint = (coinAt j).outpoint) : coinAt i = coinAt j := by
  have hvout : UInt32.ofNat i = UInt32.ofNat j := congrArg OutPoint.vout h
  have hnat := congrArg UInt32.toNat hvout
  rw [UInt32.toNat_ofNat_of_lt' (by show i < 4294967296; omega),
    UInt32.toNat_ofNat_of_lt' (by show j < 4294967296; omega)] at hnat
  rw [hnat]

theorem consistent_of_coinAt {coins : List Coin}
    (h : ∀ coin ∈ coins, ∃ index < 129, coin = coinAt index) : Consistent coins := by
  intro a ha b hb heq
  obtain ⟨i, hi, rfl⟩ := h a ha
  obtain ⟨j, hj, rfl⟩ := h b hb
  exact coinAt_consistent hi hj heq

theorem offered_consistent : Consistent offered := by
  apply consistent_of_coinAt
  intro coin hcoin
  rcases List.mem_cons.mp hcoin with rfl | hcoin
  · exact ⟨0, by decide, rfl⟩
  · rcases List.mem_append.mp hcoin with hcoin | hcoin
    · obtain ⟨index, hindex, rfl⟩ := List.mem_map.mp hcoin
      rw [List.mem_range] at hindex
      exact ⟨index + 1, by omega, rfl⟩
    · exact ⟨0, by decide, List.mem_singleton.mp hcoin⟩

theorem larger_nodup : larger.Nodup := by
  refine List.Nodup.map ?_ List.nodup_range
  intro i j h
  have hvalue : 1000 + (i + 1) = 1000 + (j + 1) := congrArg Coin.value h
  omega

theorem rank_larger {coin : Coin} (h : coin ∈ larger) : Coin.rank coin (coinAt 0) = .lt := by
  obtain ⟨index, _, rfl⟩ := List.mem_map.mp h
  have hvalue : compareOn Coin.value (coinAt 0) (coinAt (index + 1)) = .lt := by
    show compare (1000 + 0) (1000 + (index + 1)) = .lt
    rw [Nat.compare_eq_lt]
    omega
  rw [Coin.rank, compareLex, hvalue]
  rfl

/-- The first coin comes again behind 128 larger ones. -/
theorem offered_too_late : ¬ OfferedAgainInTime offered := by
  intro h
  have hfew := h (coinAt 0 :: larger) (coinAt 0) [] rfl List.mem_cons_self
  have hfirst : (Coin.rank (coinAt 0) (coinAt 0) == .lt) = false := by
    have hself : Coin.rank (coinAt 0) (coinAt 0) = .eq := ReflCmp.compare_self
    rw [hself]
    rfl
  have hfilter : (coinAt 0 :: larger).filter (fun other => Coin.rank other (coinAt 0) == .lt) =
      larger := by
    rw [List.filter_cons, hfirst, if_neg Bool.false_ne_true, List.filter_eq_self]
    intro coin hcoin
    rw [rank_larger hcoin]
    rfl
  rw [hfilter, larger_nodup.dedup, larger, List.length_map, List.length_range] at hfew
  exact absurd hfew (by decide)

end Candidates.Sample

/-- One coin that is reported twice is one. -/
theorem candidates_exact_twice :
    (Candidates.gather [Candidates.Sample.coinAt 0, Candidates.Sample.coinAt 0]).largest =
        bestCoins [Candidates.Sample.coinAt 0, Candidates.Sample.coinAt 0] ∧
      ((Candidates.gather [Candidates.Sample.coinAt 0, Candidates.Sample.coinAt 0]).reported =
          outpoints [Candidates.Sample.coinAt 0, Candidates.Sample.coinAt 0] ↔
        OfferedAgainInTime [Candidates.Sample.coinAt 0, Candidates.Sample.coinAt 0]) := by
  have hconsistent : Consistent [Candidates.Sample.coinAt 0, Candidates.Sample.coinAt 0] := by
    apply Candidates.Sample.consistent_of_coinAt
    intro coin hcoin
    simp only [List.mem_cons, List.not_mem_nil, or_false, or_self] at hcoin
    exact ⟨0, by decide, hcoin⟩
  obtain ⟨hlargest, _, hreported, _⟩ := candidates_exact hconsistent
  exact ⟨hlargest, hreported⟩

/-- A coin that comes again behind 128 larger ones is counted twice. -/
theorem candidates_exact_false :
    Consistent Candidates.Sample.offered ∧
      (Candidates.gather Candidates.Sample.offered).reported ≠
        outpoints Candidates.Sample.offered :=
  ⟨Candidates.Sample.offered_consistent, fun h => Candidates.Sample.offered_too_late
    ((Candidates.gather_reported_iff Candidates.Sample.offered_consistent).2.mp h)⟩

end Urma.Runtime
