import Mathlib.Tactic.Ring
import Urma.Chain.Pow

/-!
# The required difficulty

What a retarget computes: the product of the old target and the time the window took is reduced
modulo `2 ^ 256` and divided exactly. What `expected_bits` reads of the headers before: never
more than the full list holds, and never anything a shorter list would answer otherwise.
-/

namespace Urma.Chain

/-! ## Numbers in words

Every word of a number is below `2 ^ 64`; a list of words writes a number in that base. -/

/-- Each word fits 64 bits. -/
def Words (words : List ℕ) : Prop :=
  ∀ word ∈ words, word < 2 ^ 64

theorem fromLimbs_append (low high : List ℕ) :
    fromLimbs (low ++ high) = fromLimbs low + 2 ^ (64 * low.length) * fromLimbs high := by
  induction low with
  | nil => simp [fromLimbs]
  | cons word low ih =>
      have hpow : 2 ^ (64 * (word :: low).length) = 2 ^ 64 * 2 ^ (64 * low.length) := by
        rw [List.length_cons, Nat.mul_succ, Nat.add_comm, Nat.pow_add]
      rw [List.cons_append, fromLimbs, fromLimbs, ih, hpow]
      ring

/-- **Splitting into words loses nothing** of a number below `2 ^ 256`. -/
theorem fromLimbs_limbs {target : ℕ} (h : target < 2 ^ 256) : fromLimbs (limbs target) = target := by
  show target / 2 ^ (64 * 0) % 2 ^ 64 + 2 ^ 64 * (target / 2 ^ (64 * 1) % 2 ^ 64 +
    2 ^ 64 * (target / 2 ^ (64 * 2) % 2 ^ 64 + 2 ^ 64 * (target / 2 ^ (64 * 3) % 2 ^ 64 +
      2 ^ 64 * 0))) = target
  omega

theorem words_limbs (target : ℕ) : Words (limbs target) := by
  intro word hword
  obtain ⟨i, _, rfl⟩ := List.mem_map.mp hword
  exact Nat.mod_lt _ (by decide)

/-! ## Multiplication -/

theorem mulLimbs_length (factor : ℕ) (words : List ℕ) (carry : ℕ) :
    (mulLimbs factor words carry).length = words.length := by
  induction words generalizing carry with
  | nil => rfl
  | cons word words ih => rw [mulLimbs, List.length_cons, List.length_cons, ih]

theorem words_mulLimbs (factor : ℕ) (words : List ℕ) (carry : ℕ) :
    Words (mulLimbs factor words carry) := by
  induction words generalizing carry with
  | nil => intro word hword; cases hword
  | cons word words ih =>
      intro product hproduct
      rw [mulLimbs] at hproduct
      rcases List.mem_cons.mp hproduct with rfl | hproduct
      · exact Nat.mod_lt _ (by decide)
      · exact ih _ product hproduct

/-- **The product in words** is the product modulo what the words can write. -/
theorem fromLimbs_mulLimbs (factor : ℕ) (words : List ℕ) (carry : ℕ) :
    fromLimbs (mulLimbs factor words carry) =
      (fromLimbs words * factor + carry) % 2 ^ (64 * words.length) := by
  induction words generalizing carry with
  | nil => rw [mulLimbs, List.length_nil, Nat.mul_zero, Nat.pow_zero, Nat.mod_one]; rfl
  | cons word words ih =>
      have hpow : 2 ^ (64 * (word :: words).length) = 2 ^ 64 * 2 ^ (64 * words.length) := by
        rw [List.length_cons, Nat.mul_succ, Nat.add_comm, Nat.pow_add]
      have hsplit : (word + 2 ^ 64 * fromLimbs words) * factor + carry =
          (word * factor + carry) + 2 ^ 64 * (fromLimbs words * factor) := by ring
      rw [mulLimbs, fromLimbs, ih, fromLimbs, hpow, Nat.mod_mul, hsplit,
        Nat.add_mul_mod_self_left, Nat.add_mul_div_left _ _ (by decide : 0 < 2 ^ 64),
        Nat.add_comm (fromLimbs words * factor)]

/-- `mul_mod_2_256` is what its name says. -/
theorem fromLimbs_mulMod {target : ℕ} (factor : ℕ) (h : target < 2 ^ 256) :
    fromLimbs (mulMod (limbs target) factor) = target * factor % 2 ^ 256 := by
  rw [mulMod, fromLimbs_mulLimbs, fromLimbs_limbs h, Nat.add_zero]
  rfl

/-! ## Division -/

/-- Long division from the most significant word: the quotients fit their words, and with the
remainder they give the number back. -/
theorem divLimbs_eq_ok {divisor : ℕ} (hpos : 0 < divisor) {words : List ℕ}
    (hwords : Words words) (remainder : ℕ) (hremainder : remainder < divisor) :
    ∃ quotients, divLimbs divisor words remainder = .ok quotients ∧
      fromLimbs quotients.reverse =
        (remainder * 2 ^ (64 * words.length) + fromLimbs words.reverse) / divisor ∧
      quotients.length = words.length := by
  induction words generalizing remainder with
  | nil =>
      refine ⟨[], rfl, ?_, rfl⟩
      have hzero : remainder / divisor = 0 := Nat.div_eq_of_lt hremainder
      simpa [fromLimbs] using hzero.symm
  | cons word words ih =>
      have hword : word < 2 ^ 64 := hwords word List.mem_cons_self
      obtain ⟨quotients, hquotients, hvalue, hlength⟩ :=
        ih (fun w hw => hwords w (List.mem_cons_of_mem word hw))
          ((remainder * 2 ^ 64 + word) % divisor) (Nat.mod_lt _ hpos)
      have hcurrent : (remainder * 2 ^ 64 + word) / divisor < 2 ^ 64 := by
        rw [Nat.div_lt_iff_lt_mul hpos]
        calc remainder * 2 ^ 64 + word < (remainder + 1) * 2 ^ 64 := by omega
          _ ≤ divisor * 2 ^ 64 := Nat.mul_le_mul_right _ hremainder
          _ = 2 ^ 64 * divisor := Nat.mul_comm _ _
      refine ⟨(remainder * 2 ^ 64 + word) / divisor :: quotients, ?_, ?_, ?_⟩
      · simp only [divLimbs, if_neg (Nat.not_le.mpr hcurrent), hquotients, Except.ok_bind]
      · have hdivide : remainder * 2 ^ 64 + word = (remainder * 2 ^ 64 + word) % divisor +
            divisor * ((remainder * 2 ^ 64 + word) / divisor) := (Nat.mod_add_div _ _).symm
        have hpow : 2 ^ (64 * (word :: words).length) = 2 ^ 64 * 2 ^ (64 * words.length) := by
          rw [List.length_cons, Nat.mul_succ, Nat.add_comm, Nat.pow_add]
        have hnumber : remainder * 2 ^ (64 * (word :: words).length) +
              fromLimbs (word :: words).reverse =
            ((remainder * 2 ^ 64 + word) % divisor * 2 ^ (64 * words.length) +
              fromLimbs words.reverse) +
              divisor * (2 ^ (64 * words.length) * ((remainder * 2 ^ 64 + word) / divisor)) := by
          have hone : fromLimbs [word] = word := by simp [fromLimbs]
          rw [hpow, List.reverse_cons, fromLimbs_append, List.length_reverse, hone]
          calc remainder * (2 ^ 64 * 2 ^ (64 * words.length)) +
                (fromLimbs words.reverse + 2 ^ (64 * words.length) * word)
              = (remainder * 2 ^ 64 + word) * 2 ^ (64 * words.length) +
                  fromLimbs words.reverse := by ring
            _ = ((remainder * 2 ^ 64 + word) % divisor +
                  divisor * ((remainder * 2 ^ 64 + word) / divisor)) * 2 ^ (64 * words.length) +
                  fromLimbs words.reverse := by rw [← hdivide]
            _ = _ := by ring
        have hone : fromLimbs [(remainder * 2 ^ 64 + word) / divisor] =
            (remainder * 2 ^ 64 + word) / divisor := by simp [fromLimbs]
        rw [hnumber, Nat.add_mul_div_left _ _ hpos, List.reverse_cons, fromLimbs_append,
          List.length_reverse, hone, hvalue, hlength]
      · rw [List.length_cons, List.length_cons, hlength]

/-- **`div_u64` is exact**: it never overflows a word, and gives the floor of the quotient. -/
theorem divU64_eq_ok {divisor : ℕ} (hpos : 0 < divisor) {words : List ℕ} (hwords : Words words) :
    ∃ quotients, divU64 words divisor = .ok quotients ∧
      fromLimbs quotients = fromLimbs words / divisor := by
  have hreverse : Words words.reverse := fun word hword => hwords word (List.mem_reverse.mp hword)
  obtain ⟨quotients, hquotients, hvalue, _⟩ := divLimbs_eq_ok hpos hreverse 0 hpos
  refine ⟨quotients.reverse, ?_, ?_⟩
  · rw [divU64, hquotients]
    rfl
  · rw [hvalue, Nat.zero_mul, Nat.zero_add, List.reverse_reverse]

/-! ## The retarget -/

section Retarget

variable {crate : PowCrate}

/-- The product a retarget divides, over the natural numbers. -/
def windowProduct (crate : PowCrate) (last first : Header) (timespan : ℕ) : ℕ :=
  crate.fromCompact last.bits * clampSpan last first timespan

theorem clampSpan_le (last first : Header) (timespan : ℕ) :
    clampSpan last first timespan ≤ timespan * 4 := by
  rw [clampSpan]
  omega

theorem le_clampSpan (last first : Header) (timespan : ℕ) :
    timespan / 4 ≤ clampSpan last first timespan := by
  rw [clampSpan]
  omega

theorem words_mulMod (words : List ℕ) (factor : ℕ) : Words (mulMod words factor) :=
  words_mulLimbs factor words 0

/-- **A retarget** of a target that fits: the product modulo `2 ^ 256`, divided and capped. -/
theorem retarget_eq_ok {last first : Header} {timespan limit : ℕ} (hpos : 0 < timespan)
    (hold : crate.fromCompact last.bits < 2 ^ 256) :
    retarget crate last first timespan limit =
      .ok (min limit (windowProduct crate last first timespan % 2 ^ 256 / timespan)) := by
  obtain ⟨scaled, hscaled, hvalue⟩ := divU64_eq_ok hpos
    (words_mulMod (limbs (crate.fromCompact last.bits)) (clampSpan last first timespan))
  rw [fromLimbs_mulMod _ hold] at hvalue
  have hmin : (if limit < fromLimbs scaled then limit else fromLimbs scaled) =
      min limit (fromLimbs scaled) := by
    rw [Nat.min_def]
    split <;> split <;> omega
  rw [retarget, hscaled, Except.ok_bind]
  show Except.ok (if limit < fromLimbs scaled then limit else fromLimbs scaled) = _
  rw [hmin, hvalue, windowProduct]

/-- Four times a timespan at a chain's pow limit is less than a third above `2 ^ 256`. -/
theorem powLimit_mul_lt (hcompact : crate.fromCompact = Standard.fromCompact) {chain : Chain}
    (hretargets : chain.params.retargets = true) :
    3 * (powLimit crate chain * chain.params.targetTimespan) < 2 ^ 256 := by
  rw [powLimit, hcompact]
  cases chain with
  | bitcoinRegtest => cases hretargets
  | bitcoinMainnet | bitcoinTestnet4 | litecoinMainnet | litecoinTestnet => decide +kernel

theorem targetTimespan_bounds (chain : Chain) :
    302400 ≤ chain.params.targetTimespan ∧ chain.params.targetTimespan ≤ 1209600 := by
  cases chain <;> decide

/-- What a retarget gives when no bit of the product is lost. -/
def exactTarget (crate : PowCrate) (chain : Chain) (last first : Header) : ℕ :=
  min (powLimit crate chain)
    (windowProduct crate last first chain.params.targetTimespan / chain.params.targetTimespan)

/-- What it gives when the product is taken modulo `2 ^ 256`. -/
def wrappedTarget (crate : PowCrate) (chain : Chain) (last first : Header) : ℕ :=
  min (powLimit crate chain)
    (windowProduct crate last first chain.params.targetTimespan % 2 ^ 256 /
      chain.params.targetTimespan)

variable {chain : Chain} {last first : Header}

theorem windowProduct_le (hold : crate.fromCompact last.bits ≤ powLimit crate chain) :
    windowProduct crate last first chain.params.targetTimespan ≤
      4 * (powLimit crate chain * chain.params.targetTimespan) := by
  calc windowProduct crate last first chain.params.targetTimespan
      ≤ powLimit crate chain * (chain.params.targetTimespan * 4) :=
        Nat.mul_le_mul hold (clampSpan_le last first _)
    _ = 4 * (powLimit crate chain * chain.params.targetTimespan) := by ring

/-- **The wrapped product tells itself apart**: the exact target is then the pow limit, and the
wrapped one is below it. -/
theorem wrappedTarget_eq_iff (hcompact : crate.fromCompact = Standard.fromCompact)
    (hretargets : chain.params.retargets = true)
    (hold : crate.fromCompact last.bits ≤ powLimit crate chain) :
    wrappedTarget crate chain last first = exactTarget crate chain last first ↔
      windowProduct crate last first chain.params.targetTimespan < 2 ^ 256 := by
  have hpos : 0 < chain.params.targetTimespan := by
    have := (targetTimespan_bounds chain).1
    omega
  have hlimit := powLimit_mul_lt hcompact hretargets
  have hproduct := @windowProduct_le crate chain last first hold
  rw [wrappedTarget, exactTarget]
  generalize windowProduct crate last first chain.params.targetTimespan = product at *
  generalize powLimit crate chain = limit at *
  constructor
  · intro heq
    by_contra hwrap
    have hexact : limit ≤ product / chain.params.targetTimespan := by
      rw [Nat.le_div_iff_mul_le hpos]
      omega
    have hmod : product % 2 ^ 256 = product - 2 ^ 256 := by
      rw [Nat.mod_eq_sub_mod (by omega), Nat.mod_eq_of_lt (by omega)]
    have hwrapped : product % 2 ^ 256 / chain.params.targetTimespan < limit := by
      rw [Nat.div_lt_iff_lt_mul hpos, hmod]
      omega
    rw [Nat.min_eq_left hexact, Nat.min_eq_right hwrapped.le] at heq
    omega
  · intro hfits
    rw [Nat.mod_eq_of_lt hfits]

/-- **Retargets are exact modulo `2 ^ 256`**: the product is reduced, the division is the floor,
and the reduction changes the target exactly when the product does not fit; on the Bitcoin chains
it always fits. -/
theorem retarget_modular (hcompact : crate.fromCompact = Standard.fromCompact)
    (hretargets : chain.params.retargets = true)
    (hold : crate.fromCompact last.bits ≤ powLimit crate chain) :
    retarget crate last first chain.params.targetTimespan (powLimit crate chain) =
        .ok (wrappedTarget crate chain last first) ∧
      (wrappedTarget crate chain last first = exactTarget crate chain last first ↔
        windowProduct crate last first chain.params.targetTimespan < 2 ^ 256) ∧
      (chain = .bitcoinMainnet ∨ chain = .bitcoinTestnet4 →
        windowProduct crate last first chain.params.targetTimespan < 2 ^ 256) ∧
      ∀ words, Words words → ∃ quotients,
        divU64 words chain.params.targetTimespan = .ok quotients ∧
          fromLimbs quotients = fromLimbs words / chain.params.targetTimespan := by
  have hspan := (targetTimespan_bounds chain).1
  have hpos : 0 < chain.params.targetTimespan := by omega
  have hlimit := powLimit_mul_lt hcompact hretargets
  have hfits : crate.fromCompact last.bits < 2 ^ 256 := by
    have hmul := Nat.mul_le_mul_left (powLimit crate chain) hpos
    omega
  refine ⟨retarget_eq_ok hpos hfits, wrappedTarget_eq_iff hcompact hretargets hold, ?_,
    fun words hwords => divU64_eq_ok hpos hwords⟩
  intro hbitcoin
  have hproduct := @windowProduct_le crate chain last first hold
  have hroom : 4 * (powLimit crate chain * chain.params.targetTimespan) < 2 ^ 256 := by
    rw [powLimit, hcompact]
    rcases hbitcoin with rfl | rfl <;> decide +kernel
  omega

end Retarget

namespace Sample

/-- A header at the pow limit of the Litecoin chains, at a time. -/
def limitHeader (time : UInt32) : Header where
  version := 2
  prevBlockhash := Vector.replicate 32 0
  merkleRoot := Vector.replicate 32 0
  time
  bits := 0x1e0fffff
  nonce := 0

end Sample

/-- **A slow window at the pow limit wraps**: the product does not fit, and the target falls. -/
theorem not_retarget_exact :
    ¬ ∀ (crate : PowCrate) (chain : Chain) (last first : Header),
      crate.fromCompact = Standard.fromCompact → chain.params.retargets = true →
      crate.fromCompact last.bits ≤ powLimit crate chain →
        retarget crate last first chain.params.targetTimespan (powLimit crate chain) =
          .ok (exactTarget crate chain last first) := by
  intro h
  have hexact := h PowCrate.standard .litecoinMainnet (Sample.limitHeader 1209600)
    (Sample.limitHeader 0) rfl rfl (by decide +kernel)
  have hwrapped : retarget PowCrate.standard (Sample.limitHeader 1209600) (Sample.limitHeader 0)
      Chain.litecoinMainnet.params.targetTimespan (powLimit PowCrate.standard .litecoinMainnet) =
        .ok (wrappedTarget PowCrate.standard .litecoinMainnet (Sample.limitHeader 1209600)
          (Sample.limitHeader 0)) :=
    retarget_eq_ok (by decide) (by decide +kernel)
  rw [hwrapped, Except.ok.injEq, wrappedTarget_eq_iff rfl rfl (by decide +kernel)] at hexact
  exact absurd hexact (by decide +kernel)

/-- A window at the pow limit that took its time keeps the limit. -/
theorem retarget_modular_on_time :
    retarget PowCrate.standard (Sample.limitHeader 302400) (Sample.limitHeader 0) 302400
        (powLimit PowCrate.standard .litecoinMainnet) =
      .ok (Standard.fromCompact 0x1e0fffff) := by
  have hmodular := (@retarget_modular PowCrate.standard .litecoinMainnet
    (Sample.limitHeader 302400) (Sample.limitHeader 0) rfl rfl (by decide +kernel)).1
  have htarget : wrappedTarget PowCrate.standard .litecoinMainnet (Sample.limitHeader 302400)
      (Sample.limitHeader 0) = Standard.fromCompact 0x1e0fffff := by decide +kernel
  rw [htarget] at hmodular
  exact hmodular

/-! ## How much history is read -/

section History

variable {interval height : ℕ} {limitBits bits : UInt32} {header : Header}

/-- A header on a boundary, or with bits of its own, ends the walk. -/
theorem lastRegularBits_stop (h : ¬(height % interval ≠ 0 ∧ header.bits = limitBits))
    (older : List Header) :
    lastRegularBits interval limitBits (header :: older) height = .ok header.bits := by
  cases older with
  | nil => rw [lastRegularBits, if_neg h]
  | cons next older => rw [lastRegularBits, if_neg h]; simp

/-- Any other header sends it one header back. -/
theorem lastRegularBits_step (h : height % interval ≠ 0 ∧ header.bits = limitBits)
    {older : List Header} (hne : older ≠ []) :
    lastRegularBits interval limitBits (header :: older) height =
      lastRegularBits interval limitBits older (height - 1) := by
  cases older with
  | nil => exact absurd rfl hne
  | cons next older => rw [lastRegularBits, if_pos h]; simp

/-- **The walk answers on the newest headers as on more of them.** -/
theorem lastRegularBits_append {newer : List Header} (older : List Header)
    (h : lastRegularBits interval limitBits newer height = .ok bits) :
    lastRegularBits interval limitBits (newer ++ older) height = .ok bits := by
  induction newer generalizing height with
  | nil => cases h
  | cons header newer ih =>
      rw [List.cons_append]
      by_cases hlimit : height % interval ≠ 0 ∧ header.bits = limitBits
      · cases newer with
        | nil =>
            rw [lastRegularBits, if_pos hlimit] at h
            cases h
        | cons next newer =>
            rw [lastRegularBits_step hlimit (List.cons_ne_nil _ _)] at h
            rw [lastRegularBits_step hlimit (by simp)]
            exact ih h
      · rw [lastRegularBits_stop hlimit] at h
        rw [lastRegularBits_stop hlimit, h]

/-- **Down to height zero the walk always ends**: zero is a boundary. -/
theorem lastRegularBits_total {headers : List Header} (h : headers.length = height + 1) :
    ∃ bits, lastRegularBits interval limitBits headers height = .ok bits := by
  induction headers generalizing height with
  | nil => cases h
  | cons header older ih =>
      by_cases hlimit : height % interval ≠ 0 ∧ header.bits = limitBits
      · have hheight : height ≠ 0 := by
          rintro rfl
          exact hlimit.1 (Nat.zero_mod interval)
        have holder : older.length = height - 1 + 1 := by
          rw [List.length_cons] at h
          omega
        have hne : older ≠ [] := by
          rintro rfl
          cases holder
        rw [lastRegularBits_step hlimit hne]
        exact ih holder
      · exact ⟨header.bits, lastRegularBits_stop hlimit older⟩

end History

section Windows

variable {crate : PowCrate} {chain : Chain}

theorem retargetInterval_pos (chain : Chain) : 0 < chain.params.retargetInterval := by
  cases chain <;> decide

/-- A retarget never looks back further than one interval. -/
theorem lookback_le (chain : Chain) (nextHeight : ℕ) :
    lookback chain.params nextHeight ≤ chain.params.retargetInterval := by
  rw [lookback]
  split
  · omega
  · cases chain <;> decide

theorem lookback_first (chain : Chain) :
    lookback chain.params chain.params.retargetInterval + 1 = chain.params.retargetInterval := by
  have hpos := retargetInterval_pos chain
  rw [lookback, if_pos rfl]
  omega

/-- A window always has its bits. -/
theorem windowBits_total (last first : Header) :
    ∃ bits, windowBits crate chain last first = .ok bits := by
  have hpos : 0 < chain.params.targetTimespan := by
    have := (targetTimespan_bounds chain).1
    omega
  obtain ⟨scaled, hscaled, _⟩ := divU64_eq_ok hpos (words_mulMod
    (limbs (crate.fromCompact last.bits)) (clampSpan last first chain.params.targetTimespan))
  rw [windowBits, retarget, hscaled]
  exact ⟨_, rfl⟩

/-- **A retarget on the newest headers is the one on more of them.** -/
theorem retargetBits_drop {headers : List Header} {last : Header} {nextHeight k : ℕ}
    {bits : UInt32} (h : retargetBits crate chain (headers.drop k) last nextHeight = .ok bits) :
    retargetBits crate chain headers last nextHeight = .ok bits := by
  rw [retargetBits] at h ⊢
  split at h
  · cases h
  · next hlength =>
      rw [List.length_drop] at hlength
      rw [dif_neg (by omega)]
      have hoffset : k + ((headers.drop k).length - (lookback chain.params nextHeight + 1)) =
          headers.length - (lookback chain.params nextHeight + 1) := by
        rw [List.length_drop]
        omega
      simp only [List.get_eq_getElem, List.getElem_drop, hoffset] at h ⊢
      exact h

/-- A whole number of intervals from height zero is enough for a retarget. -/
theorem retargetBits_total {headers : List Header} {last : Header} (hne : headers ≠ [])
    (hboundary : headers.length % chain.params.retargetInterval = 0) :
    ∃ bits, retargetBits crate chain headers last headers.length = .ok bits := by
  have hlong : lookback chain.params headers.length + 1 ≤ headers.length := by
    by_cases hfirst : headers.length = chain.params.retargetInterval
    · rw [hfirst, lookback_first]
    · have hle := lookback_le chain headers.length
      have hpos := List.length_pos_iff.mpr hne
      have htimes := Nat.div_add_mod headers.length chain.params.retargetInterval
      rw [hboundary, Nat.add_zero] at htimes
      have htwo : 2 ≤ headers.length / chain.params.retargetInterval := by
        rcases hcount : headers.length / chain.params.retargetInterval with _ | _ | n
        · rw [hcount] at htimes; omega
        · rw [hcount] at htimes; omega
        · omega
      have hpos := retargetInterval_pos chain
      have hmul := Nat.mul_le_mul_left chain.params.retargetInterval htwo
      omega
  rw [retargetBits, dif_neg (Nat.not_lt.mpr hlong)]
  exact windowBits_total _ _

end Windows

/-! ## History independence -/

section Independence

variable {crate : PowCrate} {chain : Chain} {headers : List Header} {nextTime : UInt32}

/-- What is answered on the newest headers is answered on the full list. -/
theorem expectedBits_drop {k : ℕ} {bits : UInt32} (hk : k < headers.length)
    (h : expectedBits crate chain (headers.drop k) k nextTime = .ok bits) :
    expectedBits crate chain headers 0 nextTime = .ok bits := by
  have hlast : (headers.drop k).getLast? = headers.getLast? := by
    rw [List.getLast?_drop, if_neg (Nat.not_le.mpr hk)]
  have hheight : k + ((headers.drop k).length - 1) = 0 + (headers.length - 1) := by
    rw [List.length_drop]
    omega
  rw [expectedBits] at h ⊢
  rw [hlast] at h
  cases hnewest : headers.getLast? with
  | none => rw [hnewest] at h; cases h
  | some last =>
      rw [hnewest] at h
      simp only [hheight] at h ⊢
      split at h
      · cases h
      rw [if_neg (by assumption)]
      split at h
      · next hfixed => rw [if_pos hfixed, h]
      rw [if_neg (by assumption)]
      split at h
      · rw [if_pos (by assumption)]
        split at h
        · next hfixed => rw [if_pos hfixed, h]
        rw [if_neg (by assumption)]
        split at h
        · cases h
        rw [if_neg (by assumption)]
        split at h
        · next hlate => rw [if_pos hlate, h]
        rw [if_neg (by assumption)]
        have hreverse : headers.reverse = (headers.drop k).reverse ++ (headers.take k).reverse := by
          rw [← List.reverse_append, List.take_append_drop]
        rw [hreverse]
        exact lastRegularBits_append _ h
      · rw [if_neg (by assumption)]
        exact retargetBits_drop h

/-- **On the full list nothing is missing**: only an empty list, the end of the heights and the
end of the times are errors. -/
theorem expectedBits_full :
    (∃ bits, expectedBits crate chain headers 0 nextTime = .ok bits) ∨
      expectedBits crate chain headers 0 nextTime = .error .emptyWindow ∨
      expectedBits crate chain headers 0 nextTime = .error .heightOverflow ∨
      expectedBits crate chain headers 0 nextTime = .error .timeOverflow := by
  rw [expectedBits]
  cases hnewest : headers.getLast? with
  | none => exact Or.inr (Or.inl rfl)
  | some last =>
      have hne : headers ≠ [] := by
        rintro rfl
        cases hnewest
      have hpos := List.length_pos_iff.mpr hne
      have hnext : 0 + (headers.length - 1) + 1 = headers.length := by omega
      simp only [hnext]
      split
      · exact Or.inr (Or.inr (Or.inl rfl))
      split
      · exact Or.inl ⟨_, rfl⟩
      split
      · split
        · exact Or.inl ⟨_, rfl⟩
        split
        · exact Or.inr (Or.inr (Or.inr rfl))
        split
        · exact Or.inl ⟨_, rfl⟩
        exact Or.inl (lastRegularBits_total (by rw [List.length_reverse]; omega))
      · next hboundary =>
          exact Or.inl (retargetBits_total hne (by omega))

/-- **How much history is supplied does not matter**: the newest headers are answered as the
full list is, and on the full list no context is missing. -/
theorem expected_bits_history_free (crate : PowCrate) (chain : Chain) (headers : List Header)
    (nextTime : UInt32) :
    (∀ (k : ℕ) (bits : UInt32), k < headers.length →
      expectedBits crate chain (headers.drop k) k nextTime = .ok bits →
        expectedBits crate chain headers 0 nextTime = .ok bits) ∧
    (∀ needed got, expectedBits crate chain headers 0 nextTime ≠
      .error (.shortWindow needed got)) ∧
    ∀ firstHeight, expectedBits crate chain headers 0 nextTime ≠
      .error (.missingDifficultyContext firstHeight) := by
  refine ⟨fun k bits hk h => expectedBits_drop hk h, fun needed got h => ?_,
    fun firstHeight h => ?_⟩
  · rcases @expectedBits_full crate chain headers nextTime with ⟨bits, hok⟩ | he | he | he
    · rw [hok] at h; cases h
    all_goals rw [he] at h; cases h
  · rcases @expectedBits_full crate chain headers nextTime with ⟨bits, hok⟩ | he | he | he
    · rw [hok] at h; cases h
    all_goals rw [he] at h; cases h

end Independence

/-- The second header of a regtest chain alone is answered as the two of them are. -/
theorem expected_bits_history_free_regtest :
    expectedBits PowCrate.standard .bitcoinRegtest
      [Sample.limitHeader 0, Sample.limitHeader 600] 0 1200 = .ok 0x1e0fffff :=
  (expected_bits_history_free PowCrate.standard .bitcoinRegtest
    [Sample.limitHeader 0, Sample.limitHeader 600] 1200).1 1 _ (by decide) rfl

end Urma.Chain
