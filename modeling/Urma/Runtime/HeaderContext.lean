import Mathlib.Data.List.Chain
import Urma.Runtime.HeaderInvariant

/-!
# The bounded context is enough

A chain opened at a bootstrap keeps a bounded number of the headers before its anchor. The rules
look back over one retarget window and over eleven times, and the bound covers both: at any height
and any fork the verdict on a header is the one all headers from genesis on would give, and no
verdict is that the context is too short.
-/

namespace Urma.Runtime

open Chain

variable {crate : PowCrate} {network : Chain} {headers : List Header}

/-! ## What the parameters promise -/

/-- Every chain retargets in intervals, and looks back over less than two of them. -/
theorem params_interval (network : Chain) :
    0 < network.params.retargetInterval ∧
      network.params.retargetLookback + 1 ≤ 2 * network.params.retargetInterval := by
  cases network <;> decide

theorem interval_le_bound (network : Chain) :
    network.params.retargetInterval ≤ contextHeaders network + 1 := by
  rw [contextHeaders]
  omega

theorem lookback_lt_bound (network : Chain) (nextHeight : ℕ) :
    lookback network.params nextHeight + 1 ≤ contextHeaders network + 1 := by
  rw [lookback, contextHeaders]
  split <;> omega

theorem medianTimeSpan_le_bound (network : Chain) : medianTimeSpan ≤ contextHeaders network + 1 := by
  rw [contextHeaders]
  omega

/-- The end of a list that is long enough for the rules, or the whole list. -/
def Enough (network : Chain) (headers : List Header) (start : ℕ) : Prop :=
  start = 0 ∨ start + (contextHeaders network + 1) ≤ headers.length

/-! ## Difficulty -/

theorem lastRegularBits_stop {interval height : ℕ} {limitBits : UInt32} {header : Header}
    {older : List Header} (h : ¬ (height % interval ≠ 0 ∧ header.bits = limitBits)) :
    lastRegularBits interval limitBits (header :: older) height = .ok header.bits := by
  cases older with
  | nil => rw [lastRegularBits, if_neg h]
  | cons next older => rw [lastRegularBits, if_neg h]; exact List.cons_ne_nil _ _

theorem lastRegularBits_back {interval height : ℕ} {limitBits : UInt32} {header : Header}
    {older : List Header} (h : height % interval ≠ 0 ∧ header.bits = limitBits)
    (hne : older ≠ []) :
    lastRegularBits interval limitBits (header :: older) height =
      lastRegularBits interval limitBits older (height - 1) := by
  rw [lastRegularBits, if_pos h]
  exact hne

/-- One below a number that is no multiple, the remainder is one less. -/
theorem mod_of_succ_mod {n interval : ℕ} (h : (n + 1) % interval ≠ 0) :
    n % interval + 1 = (n + 1) % interval := by
  rcases Nat.eq_zero_or_pos interval with rfl | hpos
  · rw [Nat.mod_zero, Nat.mod_zero]
  · have hsplit := Nat.div_add_mod (n + 1) interval
    have hlt := Nat.mod_lt (n + 1) hpos
    have hn : n = interval * ((n + 1) / interval) + ((n + 1) % interval - 1) := by omega
    have hmod : n % interval = (n + 1) % interval - 1 := by
      conv_lhs => rw [hn]
      rw [Nat.mul_add_mod, Nat.mod_eq_of_lt (by omega)]
    omega

/-- Going back from the newest header, a boundary is met within the interval. -/
theorem lastRegularBits_take {interval : ℕ} {limitBits : UInt32} {newest : List Header}
    {height count : ℕ} (hlength : newest.length = height + 1) (hcount : height % interval < count) :
    ∃ bits, lastRegularBits interval limitBits (newest.take count) height = .ok bits ∧
      lastRegularBits interval limitBits newest height = .ok bits := by
  induction newest generalizing height count with
  | nil => cases hlength
  | cons header older ih =>
      obtain ⟨rest, rfl⟩ : ∃ rest, count = rest + 1 := ⟨count - 1, by omega⟩
      rw [List.take_succ_cons]
      by_cases hback : height % interval ≠ 0 ∧ header.bits = limitBits
      · -- not on a boundary, so there is an older header, and one step less to go
        obtain ⟨below, rfl⟩ : ∃ below, height = below + 1 := by
          cases height with
          | zero => exact absurd (Nat.zero_mod interval) hback.1
          | succ below => exact ⟨below, rfl⟩
        have hmod := mod_of_succ_mod hback.1
        have hlength' : older.length = below + 1 := Nat.succ.inj hlength
        have hne : older ≠ [] := by
          rw [← List.length_pos_iff]
          omega
        have hneTake : older.take rest ≠ [] := by
          rw [← List.length_pos_iff, List.length_take]
          omega
        rw [lastRegularBits_back hback hne, lastRegularBits_back hback hneTake, Nat.add_sub_cancel]
        exact ih hlength' (by omega)
      · exact ⟨header.bits, lastRegularBits_stop hback, lastRegularBits_stop hback⟩

theorem divLimbs_error {divisor remainder : ℕ} {words : List ℕ} {cause : PowError}
    (h : divLimbs divisor words remainder = .error cause) : cause = .width := by
  induction words generalizing remainder with
  | nil => cases h
  | cons limb words ih =>
      rw [divLimbs] at h
      split at h
      · cases h
        rfl
      · cases hrest : divLimbs divisor words ((remainder * 2 ^ 64 + limb) % divisor) with
        | error error =>
            rw [hrest] at h
            cases h
            exact ih hrest
        | ok quotients =>
            rw [hrest] at h
            cases h

/-- The only error of a retarget that has its window is that of a width. -/
theorem retarget_error {last first : Header} {timespan limit : ℕ} {cause : PowError}
    (h : retarget crate last first timespan limit = .error cause) : cause = .width := by
  rw [retarget, divU64] at h
  cases hdiv : divLimbs timespan
      (mulMod (limbs (crate.fromCompact last.bits)) (clampSpan last first timespan)).reverse 0 with
  | error error =>
      rw [hdiv] at h
      cases h
      exact divLimbs_error hdiv
  | ok quotients =>
      rw [hdiv] at h
      cases h

theorem windowBits_error {last first : Header} {cause : PowError}
    (h : windowBits crate network last first = .error cause) : cause = .width := by
  rw [windowBits] at h
  cases hretarget : retarget crate last first network.params.targetTimespan
      (powLimit crate network) with
  | error error =>
      rw [hretarget] at h
      cases h
      exact retarget_error hretarget
  | ok target =>
      rw [hretarget] at h
      cases h

/-- From genesis on there are always headers enough to retarget. -/
theorem lookback_lt_height {height : ℕ} (hpos : 0 < height)
    (hboundary : height % network.params.retargetInterval = 0) :
    lookback network.params height + 1 ≤ height := by
  obtain ⟨hinterval, htwo⟩ := params_interval network
  obtain ⟨turns, hturns⟩ := Nat.dvd_of_mod_eq_zero hboundary
  rw [lookback]
  split
  · omega
  · next hlater =>
      have hmore : 2 ≤ turns := by
        rcases turns with _ | _ | turns
        · rw [Nat.mul_zero] at hturns
          omega
        · rw [Nat.zero_add, Nat.mul_one] at hturns
          exact absurd hturns hlater
        · omega
      have hheight := Nat.mul_le_mul_left network.params.retargetInterval hmore
      rw [← hturns, Nat.mul_comm] at hheight
      omega

/-- A retarget at the end of a list depends on its last headers only, and these are there. -/
theorem retargetBits_drop {start : ℕ} {last : Header} (henough : Enough network headers start)
    (hboundary : headers.length % network.params.retargetInterval = 0) (hne : headers ≠ []) :
    retargetBits crate network (headers.drop start) last headers.length =
        retargetBits crate network headers last headers.length ∧
      ∀ cause, retargetBits crate network headers last headers.length = .error cause →
        cause = .width := by
  have hlength := List.length_pos_iff.mpr hne
  have hneeded : lookback network.params headers.length + 1 ≤ (headers.drop start).length := by
    rw [List.length_drop]
    rcases henough with rfl | hbound
    · exact lookback_lt_height hlength hboundary
    · have hless := lookback_lt_bound network headers.length
      omega
  have hfull : ¬ headers.length < lookback network.params headers.length + 1 := by
    rw [List.length_drop] at hneeded
    omega
  rw [retargetBits, retargetBits, dif_neg (by omega), dif_neg hfull]
  constructor
  · apply congrArg
    rw [List.get_eq_getElem, List.get_eq_getElem, List.getElem_drop]
    congr 1
    show start + ((headers.drop start).length - _) = headers.length - _
    rw [List.length_drop] at hneeded ⊢
    omega
  · intro cause h
    exact windowBits_error h

/-- The errors that say there are too few headers. -/
def PowError.Short : PowError → Prop
  | .shortWindow _ _ => True
  | .missingDifficultyContext _ => True
  | _ => False

/-- **The difficulty depends on the end of the headers only**, and with all headers from genesis
on, or enough of them, it is never that there are too few. -/
theorem expectedBits_drop {start : ℕ} (henough : Enough network headers start) (hne : headers ≠ [])
    (hstart : start < headers.length) (nextTime : UInt32) :
    expectedBits crate network (headers.drop start) start nextTime =
        expectedBits crate network headers 0 nextTime ∧
      ∀ cause, expectedBits crate network headers 0 nextTime = .error cause →
        ¬ PowError.Short cause := by
  obtain ⟨hinterval, _⟩ := params_interval network
  have hlength := List.length_pos_iff.mpr hne
  obtain ⟨last, hlast⟩ : ∃ last, headers.getLast? = some last :=
    ⟨_, List.getLast?_eq_some_getLast hne⟩
  have hlastDrop : (headers.drop start).getLast? = some last := by
    rw [List.getLast?_drop, if_neg (by omega), hlast]
  have hheight : start + ((headers.drop start).length - 1) = headers.length - 1 := by
    rw [List.length_drop]
    omega
  have hnext : headers.length - 1 + 1 = headers.length := by omega
  rw [expectedBits, expectedBits, hlast, hlastDrop]
  dsimp only
  rw [hheight, Nat.zero_add, hnext]
  split
  · exact ⟨rfl, fun cause h => by cases h; exact id⟩
  · split
    · exact ⟨rfl, fun cause h => by cases h⟩
    · split
      · split
        · exact ⟨rfl, fun cause h => by cases h⟩
        · split
          · exact ⟨rfl, fun cause h => by cases h; exact id⟩
          · split
            · exact ⟨rfl, fun cause h => by cases h⟩
            · -- back from the newest header to the last boundary
              have hcount : (headers.length - 1) % network.params.retargetInterval <
                  headers.length - start := by
                rcases henough with rfl | hbound
                · have hle := Nat.mod_le (headers.length - 1) network.params.retargetInterval
                  omega
                · have hlt := Nat.mod_lt (headers.length - 1) hinterval
                  have hless := interval_le_bound network
                  omega
              obtain ⟨bits, htake, hall⟩ := @lastRegularBits_take network.params.retargetInterval
                network.params.powLimitBits headers.reverse (headers.length - 1) _
                (by rw [List.length_reverse]; omega) hcount
              rw [List.reverse_drop, htake, hall]
              exact ⟨rfl, fun cause h => by cases h⟩
      · next hboundary =>
          obtain ⟨hsame, hwidth⟩ := @retargetBits_drop crate network headers start last henough
            (not_not.mp hboundary) hne
          refine ⟨hsame, fun cause h => ?_⟩
          rw [hwidth cause h]
          exact id

/-! ## Median time -/

theorem medianTime_drop {start : ℕ} (henough : Enough network headers start) :
    medianTime (headers.drop start) = medianTime headers := by
  have hwindow : (headers.drop start).drop
      (max (headers.drop start).length medianTimeSpan - medianTimeSpan) =
        headers.drop (max headers.length medianTimeSpan - medianTimeSpan) := by
    rw [List.drop_drop, List.length_drop]
    rcases henough with rfl | hbound
    · rw [Nat.zero_add, Nat.sub_zero]
    · have hspan := medianTimeSpan_le_bound network
      congr 1
      omega
  rw [medianTime, medianTime, hwindow]

/-! ## The context of a bootstrap -/

/-- The context with all ancestors, from genesis on. -/
def HeaderChain.fullContext (chain : HeaderChain) (history window : List Header) :
    Except HeaderError (ℕ × List Header) := do
  let _ ← contextHeader (checkedAdd chain.startHeight window.length)
    "header context height overflow"
  .ok (0, history ++ window)

variable {chain : HeaderChain} {history window : List Header}

/-- A chain that was opened at a bootstrap on top of a history. -/
structure HeaderChain.OnHistory (chain : HeaderChain) (history : List Header) : Prop where
  startHeight : chain.startHeight = history.length
  trustedNext : chain.trustedNext = none
  ancestors : chain.ancestors =
    some (history.drop (history.length - contextHeaders chain.chain))

/-- The context of a window is the end of the history and the window, with its height. -/
theorem precedingContext_eq (h : chain.OnHistory history) (hwindow : window ≠ []) :
    ∃ start, Enough chain.chain (history ++ window) start ∧ start < (history ++ window).length ∧
      chain.precedingContext window =
        (do
          let _ ← contextHeader (checkedAdd chain.startHeight window.length)
            "header context height overflow"
          .ok (start, (history ++ window).drop start)) := by
  have hlength := List.length_pos_iff.mpr hwindow
  generalize hcontext : contextHeaders chain.chain = context
  refine ⟨history.length + window.length - (context + 1), ?_, ?_, ?_⟩
  · rw [Enough, List.length_append, hcontext]
    omega
  · rw [List.length_append]
    omega
  · rw [HeaderChain.precedingContext, h.ancestors, hcontext]
    dsimp only
    cases hsum : checkedAdd chain.startHeight window.length with
    | none => rfl
    | some nextHeight =>
        obtain ⟨hfits, rfl⟩ := checkedAdd_eq_some.mp hsum
        have htail : (if context + 1 ≤ window.length then window.drop (window.length - (context + 1))
            else
              (history.drop (history.length - context)).drop
                ((history.drop (history.length - context)).length -
                  min (context + 1 - window.length)
                    (history.drop (history.length - context)).length) ++ window) =
            (history ++ window).drop (history.length + window.length - (context + 1)) := by
          split
          · next hlong =>
              have hstart : history.length + window.length - (context + 1) =
                  history.length + (window.length - (context + 1)) := by omega
              rw [hstart, List.drop_append, List.drop_of_length_le (Nat.le_add_right _ _),
                List.nil_append, Nat.add_sub_cancel_left]
          · next hshort =>
              rw [List.drop_drop, List.length_drop, List.drop_append_of_le_length (by omega)]
              congr 2
              omega
        show (do
          let firstHeight ← contextHeader (checkedSub _ _) _
          Except.ok (firstHeight, _)) = Except.ok _
        rw [htail]
        have hsub : checkedSub (chain.startHeight + window.length)
            ((history ++ window).drop (history.length + window.length - (context + 1))).length =
              some (history.length + window.length - (context + 1)) := by
          rw [checkedSub_eq_some, List.length_drop, List.length_append, h.startHeight]
          omega
        rw [hsub]
        rfl

/-! ## Verdicts -/

/-- The result is not that the local context is too short. -/
def Sufficient {α : Type} (result : Except HeaderError α) : Prop :=
  ∀ cause, result ≠ .error (.headerContext cause)

theorem Sufficient.bind {α β : Type} {x : Except HeaderError α} {f : α → Except HeaderError β}
    (h : Sufficient x) (hf : ∀ a, x = .ok a → Sufficient (f a)) : Sufficient (x >>= f) := by
  cases x with
  | error error =>
      intro cause heq
      cases heq
      exact h cause rfl
  | ok a => exact hf a rfl

theorem ensureHeader_sufficient (condition : Bool) (message : String) :
    Sufficient (ensureHeader condition message) := by
  intro cause h
  cases condition <;> cases h

theorem contextHeader_sufficient {α : Type} (value : Option α) (message : String) :
    Sufficient (contextHeader value message) := by
  intro cause h
  cases value <;> cases h

theorem difficultyError_of_not_short {cause : PowError} (h : ¬ PowError.Short cause) :
    difficultyError cause = .invalid cause.text := by
  cases cause with
  | shortWindow needed got => exact absurd trivial h
  | missingDifficultyContext height => exact absurd trivial h
  | _ => rfl

theorem checkBits_drop {start : ℕ} (htrusted : chain.trustedNext = none)
    (henough : Enough chain.chain headers start) (hstart : start < headers.length)
    (header : Header) :
    chain.checkBits crate window start (headers.drop start) header =
        chain.checkBits crate window 0 headers header ∧
      Sufficient (chain.checkBits crate window 0 headers header) := by
  have hunpinned : ¬ (window.length = 1 ∧ chain.trustedNext.isSome) := by
    rw [htrusted]
    exact fun h => by cases h.2
  have hne : headers ≠ [] := by
    rintro rfl
    cases hstart
  obtain ⟨hsame, hshort⟩ := @expectedBits_drop crate chain.chain headers start henough hne hstart
    header.time
  rw [HeaderChain.checkBits, HeaderChain.checkBits, if_neg hunpinned, if_neg hunpinned, hsame]
  refine ⟨rfl, ?_⟩
  cases hbits : expectedBits crate chain.chain headers 0 header.time with
  | error cause =>
      intro cause' h
      have herror : difficultyError cause = .headerContext cause' := Except.error.inj h
      rw [difficultyError_of_not_short (hshort cause hbits)] at herror
      cases herror
  | ok required => exact ensureHeader_sufficient _ _

/-- **One header**: the bounded context gives the verdict of the full one, and never that the
context is too short. -/
theorem validateContext_eq_full (h : chain.OnHistory history) (hwindow : window ≠ [])
    (header : Header) :
    chain.validateContext crate window header =
        chain.validateAgainst crate window header (chain.fullContext history window) ∧
      Sufficient (chain.validateContext crate window header) := by
  obtain ⟨start, henough, hstart, hpreceding⟩ := precedingContext_eq h hwindow
  obtain ⟨hbits, hsufficient⟩ := @checkBits_drop crate (history ++ window) chain window start
    h.trustedNext henough hstart header
  have hmedian := medianTime_drop henough
  rw [HeaderChain.validateContext, hpreceding, HeaderChain.fullContext]
  have hsame : ∀ nextHeight : Except HeaderError ℕ,
      chain.validateAgainst crate window header
          (nextHeight >>= fun _ => .ok (start, (history ++ window).drop start)) =
        chain.validateAgainst crate window header
          (nextHeight >>= fun _ => .ok (0, history ++ window)) := by
    intro nextHeight
    rw [HeaderChain.validateAgainst, HeaderChain.validateAgainst]
    cases nextHeight with
    | error error => rfl
    | ok nextHeight =>
        simp only [Except.ok_bind]
        rw [hbits, hmedian]
  refine ⟨hsame _, ?_⟩
  rw [hsame, HeaderChain.validateAgainst]
  apply (contextHeader_sufficient _ _).bind
  intro last _
  apply (ensureHeader_sufficient _ _).bind
  intro _ _
  apply Sufficient.bind
  · exact (contextHeader_sufficient _ _).bind fun _ _ cause h => by cases h
  · rintro ⟨firstHeight, context⟩ hcontext
    obtain ⟨_, _, hpair⟩ := Except.bind_eq_ok.mp hcontext
    cases hpair
    exact hsufficient.bind fun _ _ => ensureHeader_sufficient _ _

/-! ## Runs -/

theorem appendFrom_sameAnchor {original now : ℕ} (fresh : List Header) :
    chain.SameAnchor (chain.appendFrom crate original now fresh).1 := by
  induction fresh generalizing chain with
  | nil => exact .refl chain
  | cons header fresh ih =>
      rw [HeaderChain.appendFrom]
      split
      · exact push_sameAnchor.trans ih
      · exact ⟨rfl, rfl, rfl, rfl⟩

theorem reorganize_sameAnchor {base now : ℕ} {fresh : List Header} {next : HeaderChain}
    (h : chain.reorganize crate base fresh now = .ok (some next)) : chain.SameAnchor next := by
  simp only [HeaderChain.reorganize, Except.bind_eq_ok] at h
  obtain ⟨candidate, _, challenger, _, incumbent, _, h⟩ := h
  split at h
  · cases h
  · cases h
    exact ⟨rfl, rfl, rfl, rfl⟩

/-- No call touches what the context is taken from. -/
theorem extend_sameAnchor (batch : List Header) (now : ℕ) :
    chain.SameAnchor (chain.extend crate batch now).1 := by
  rw [HeaderChain.extend]
  split
  · exact .refl chain
  · split
    · exact .refl chain
    · dsimp only
      split
      · exact .refl chain
      · split
        · exact .refl chain
        · split
          · exact .refl chain
          · split
            · split <;> next heq => exact congrArg Prod.fst heq ▸ appendFrom_sameAnchor _
            · split
              · exact .refl chain
              · exact .refl chain
              · next hreorganized => exact reorganize_sameAnchor hreorganized

theorem run_sameAnchor (calls : List (List Header × ℕ)) : chain.SameAnchor (chain.run crate calls) := by
  induction calls generalizing chain with
  | nil => exact .refl chain
  | cons call calls ih => exact (extend_sameAnchor call.1 call.2).trans ih

theorem HeaderChain.SameAnchor.onHistory {next : HeaderChain} (h : chain.SameAnchor next)
    (hhistory : chain.OnHistory history) : next.OnHistory history where
  startHeight := h.startHeight_eq.trans hhistory.startHeight
  trustedNext := h.trustedNext_eq.trans hhistory.trustedNext
  ancestors := by rw [h.ancestors_eq, h.chain_eq, hhistory.ancestors]

/-! ## Bootstraps of a full chain -/

theorem linked_iff : ∀ {headers : List Header}, linked crate headers = true ↔
    headers.IsChain fun previous next => next.prevBlockhash = crate.blockHash previous
  | [] => ⟨fun _ => .nil, fun _ => rfl⟩
  | [header] => ⟨fun _ => .singleton header, fun _ => rfl⟩
  | previous :: next :: rest => by
      rw [linked, Bool.and_eq_true, beq_iff_eq, List.isChain_cons_cons, linked_iff]

/-- Headers from genesis on, linked and with their work done. -/
structure FullChain (crate : PowCrate) (genesis : Chain → Bytes32) (network : Chain)
    (headers : List Header) : Prop where
  genesis : headers.head?.map crate.blockHash = some (genesis network)
  linked : headers.IsChain fun previous next => next.prevBlockhash = crate.blockHash previous
  pow : ∀ header ∈ headers, checkHeaderPow crate header network = .ok ()

/-- The last headers before any header of a full chain are a bootstrap. -/
theorem bootstrap_of_fullChain {genesis : Chain → Bytes32} {anchor : Header}
    (h : FullChain crate genesis network (history ++ [anchor])) :
    HeaderBootstrap.new crate genesis network history.length anchor
        (history.drop (history.length - contextHeaders network)) =
      .ok ⟨network, history.length, anchor,
        history.drop (history.length - contextHeaders network)⟩ := by
  generalize hstart : history.length - contextHeaders network = start
  have hle : start ≤ history.length := by omega
  have hcount : (history.drop start).length = min history.length (contextHeaders network) := by
    rw [List.length_drop]
    omega
  have hfirst : (history.length != (history.drop start).length ||
      crate.blockHash ((history.drop start).headD anchor) == genesis network) = true := by
    rw [Bool.or_eq_true, bne_iff_ne, beq_iff_eq]
    by_cases hall : history.length = (history.drop start).length
    · refine Or.inr ?_
      have hzero : start = 0 := by
        rw [List.length_drop] at hall
        omega
      have hgenesis := h.genesis
      rw [hzero, List.drop_zero]
      cases history with
      | nil => exact Option.some.inj hgenesis
      | cons first rest => exact Option.some.inj hgenesis
    · exact Or.inl hall
  have hlinked : linked crate (history.drop start ++ [anchor]) = true := by
    rw [linked_iff, ← List.drop_append_of_le_length hle]
    exact h.linked.drop start
  have hancestors : proveBatch crate network (history.drop start) = .ok () :=
    proveFrom_eq_ok.mpr fun header hheader =>
      h.pow header (List.mem_append_left _ (List.mem_of_mem_drop hheader))
  have hanchor : proveBatch crate network [anchor] = .ok () :=
    proveFrom_eq_ok.mpr fun header hheader => h.pow header (List.mem_append_right _ hheader)
  rw [HeaderBootstrap.new, hcount, beq_self_eq_true, ← hcount, hfirst, hlinked, hancestors, hanchor]
  rfl

/-- **The bounded context is sufficient**: on top of any full chain, in any run, a header after any
part of the stored chain and any headers of an extension gets the verdict that all headers from
genesis on would give it, and that is never that the local context is too short. -/
theorem bounded_context_sufficient {genesis : Chain → Bytes32} {anchor : Header}
    (hfull : FullChain crate genesis network (history ++ [anchor])) :
    ∃ bootstrap, HeaderBootstrap.new crate genesis network history.length anchor
        (history.drop (history.length - contextHeaders network)) = .ok bootstrap ∧
      ∀ (calls : List (List Header × ℕ)) (fork : ℕ) (fresh : List Header) (header : Header),
        let chain := (HeaderChain.openBootstrap crate bootstrap).run crate calls
        let window := chain.headers.take (fork + 1) ++ fresh
        chain.validateContext crate window header =
            chain.validateAgainst crate window header (chain.fullContext history window) ∧
          ∀ cause, chain.validateContext crate window header ≠ .error (.headerContext cause) := by
  refine ⟨_, bootstrap_of_fullChain hfull, ?_⟩
  intro calls fork fresh header chain window
  have hopened : (HeaderChain.openBootstrap crate ⟨network, history.length, anchor,
      history.drop (history.length - contextHeaders network)⟩).OnHistory history :=
    ⟨rfl, rfl, rfl⟩
  have hhistory : chain.OnHistory history := (run_sameAnchor calls).onHistory hopened
  cases hwindow : window with
  | nil => exact ⟨rfl, fun cause h => by cases h⟩
  | cons first rest => exact validateContext_eq_full hhistory (List.cons_ne_nil _ _) header

/-- The anchor alone, at height zero. -/
theorem bounded_context_sufficient_genesis :
    ∃ bootstrap, HeaderBootstrap.new PowCrate.standard
        (fun _ => PowCrate.standard.blockHash Sample.anchor) .bitcoinRegtest 0 Sample.anchor [] =
          .ok bootstrap ∧
      ∀ (fresh : List Header) (header : Header) cause,
        (HeaderChain.openBootstrap PowCrate.standard bootstrap).validateContext PowCrate.standard
          (Sample.anchor :: fresh) header ≠ .error (.headerContext cause) := by
  have hpow : checkHeaderPow PowCrate.standard Sample.anchor .bitcoinRegtest = .ok () := by
    decide +kernel
  have hfull : FullChain PowCrate.standard
      (fun _ => PowCrate.standard.blockHash Sample.anchor) .bitcoinRegtest ([] ++ [Sample.anchor]) :=
    ⟨rfl, .singleton _, fun header hheader => by rw [List.mem_singleton.mp hheader]; exact hpow⟩
  obtain ⟨bootstrap, hnew, hverdicts⟩ := bounded_context_sufficient hfull
  refine ⟨bootstrap, hnew, fun fresh header => ?_⟩
  have hbootstrap : bootstrap = ⟨.bitcoinRegtest, 0, Sample.anchor, []⟩ := by
    rw [bootstrap_of_fullChain hfull] at hnew
    exact (Except.ok.inj hnew).symm
  subst hbootstrap
  exact (hverdicts [] 0 fresh header).2

end Urma.Runtime
