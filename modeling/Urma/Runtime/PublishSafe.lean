import Mathlib.Data.List.Nodup
import Urma.Runtime.DiskPublish

/-!
# What a walk may submit

What the node has answered in a walk decides what may be submitted: the observations of a
transaction are the answers of `presenceCached`, and the calls of a walk are clear when none of
them blocks. Each function of the session is described by what it adds to the calls.
-/

namespace Urma.Runtime

open Chain Lib Program

variable (crates : PublishCrates) (checks : PlanChecks) (node : Node) (plan : DiskPlan)

/-! ## Observations -/

/-- The transaction id of a raw transaction. -/
def txidOf (raw : String) : Option Txid :=
  match decodeStandard crates raw with
  | .ok transaction => some (crates.reveal.consensus.computeTxid transaction)
  | .error _ => none

/-- What a call observes of a transaction. -/
def observation (txid : Txid) : Call Request Request.Answer → Option Presence
  | ⟨.presenceCached asked, .ok presence⟩ => if asked = txid then some presence else none
  | _ => none

/-- The observations of a transaction, one after another. -/
def observations (txid : Txid) (calls : Calls) : List Presence :=
  calls.filterMap (observation txid)

/-- The raw transactions of a plan, commits and reveals in turn. -/
def DiskPlan.raws (plan : DiskPlan) : List String :=
  plan.records.flatMap fun pair => [pair.commit, pair.reveal]

/-- No two transactions of the plan have one id. -/
def DiskPlan.Distinct (plan : DiskPlan) : Prop :=
  (plan.raws.map (txidOf crates)).Nodup

/-- The walk has observed the transaction so, and this is its last observation of it. Without
distinct ids the last observation may be that of another transaction of the plan. -/
def Observed (good : Presence → Prop) (calls : Calls) (raw : String) : Prop :=
  ∃ txid, txidOf crates raw = some txid ∧
    (∃ presence ∈ observations txid calls, good presence) ∧
    (plan.Distinct crates → ∃ presence, (observations txid calls).getLast? = some presence ∧
      good presence)

/-- Confirmed or in the mempool. -/
def Available (presence : Presence) : Prop :=
  presence ≠ .missing

def IsConfirmed (presence : Presence) : Prop :=
  ∃ height blockHash, presence = .confirmed height blockHash

/-! ## Answers that block -/

/-- A source fails to say where a transaction is. -/
def Fails : Call Request Request.Answer → Prop
  | ⟨.presenceCached _, .error _⟩ => True
  | ⟨.presence _, .error _⟩ => True
  | _ => False

/-- One of the inputs was answered to be in the mempool. -/
def ParentPending (calls : Calls) (transaction : Transaction) : Prop :=
  ∃ input ∈ transaction.input,
    ⟨.presence input.previousOutput.txid, .ok Presence.mempool⟩ ∈ calls

/-- The preflight refuses a transaction. A refusal for missing inputs does not count while one of
them was answered to be in the mempool, nor does a refusal without a reason. -/
def Refuses (calls : Calls) (raw : String) (answer : Request.Answer (.testMempoolAccept raw)) :
    Prop :=
  ∀ transaction, decodeStandard crates raw = .ok transaction →
    match mempoolCheck node (crates.reveal.consensus.computeTxid transaction) answer with
    | .error _ => True
    | .ok .allowed => False
    | .ok (.unavailable _) => False
    | .ok (.rejected reason) =>
        reason ≠ "" ∧ ¬(missingInputs reason = true ∧ ParentPending calls transaction)

/-- The transaction was observed confirmed or in the mempool. -/
def Seen (calls : Calls) (raw : String) : Prop :=
  ∃ txid, txidOf crates raw = some txid ∧ ∃ presence ∈ observations txid calls, Available presence

/-- **No answer so far blocks the walk**: no source has failed, the chain is that of the start, no
preflight has refused a transaction, and what was submitted was observed afterwards, but for what
is still under way. -/
structure ClearBut (underWay : String → Prop) (calls : Calls) : Prop where
  sources : ∀ call ∈ calls, ¬Fails call
  chain : ∀ height answer, ⟨.blockHash height, answer⟩ ∈ calls →
    ∃ hash : String, answer = .ok hash ∧ ⟨.tip, .ok (height, hash)⟩ ∈ calls
  preflights : ∀ before raw answer after,
    calls = before ++ ⟨.testMempoolAccept raw, answer⟩ :: after →
      ¬Refuses crates node before raw answer
  submissions : ∀ before raw answer after,
    calls = before ++ ⟨.sendRawTransaction raw, answer⟩ :: after →
      underWay raw ∨ Seen crates after raw

/-- No answer so far blocks the walk. -/
abbrev Clear (calls : Calls) : Prop :=
  ClearBut crates node (fun _ => False) calls

/-! ## What may be submitted -/

/-- The role of a record, `none` where it does not verify. -/
def pairRole (pair : PublicPlan) : Option Role :=
  match recordOf crates checks pair with
  | .ok record => some (roleOf record)
  | .error _ => none

/-- A commit may be submitted when the commit before it is available. -/
def CommitReady (calls : Calls) (index : ℕ) : Prop :=
  ∀ previous pair, previous + 1 = index → plan.records[previous]? = some pair →
    Observed crates plan Available calls pair.commit

/-- A reveal may be submitted when its commit is confirmed and the reveals it depends on are
available: those of all data parts for a leaf, and of all leaves as well for the root. -/
structure RevealReady (calls : Calls) (pair : PublicPlan) : Prop where
  commit : Observed crates plan IsConfirmed calls pair.commit
  leaf : pairRole crates checks pair = some .leaf → ∀ other ∈ plan.records,
    pairRole crates checks other = some .data → Observed crates plan Available calls other.reveal
  root : pairRole crates checks pair = some .root → ∀ other ∈ plan.records,
    pairRole crates checks other = some .data ∨ pairRole crates checks other = some .leaf →
      Observed crates plan Available calls other.reveal

/-- What may be submitted after some calls. -/
structure Permitted (calls : Calls) (raw : String) : Prop where
  clear : Clear crates node calls
  ready : ∃ index pair, plan.records[index]? = some pair ∧
    ((raw = pair.commit ∧ CommitReady crates plan calls index) ∨
      (raw = pair.reveal ∧ RevealReady crates checks plan calls pair))

/-- Every call may be made, but a submission only when it is permitted. -/
def submitGuard (calls : Calls) : Request → Prop
  | .sendRawTransaction raw => Permitted crates checks node plan calls raw
  | _ => True

/-! ## Calls one by one -/

variable {crates checks node plan} {calls more : Calls} {raw : String} {txid : Txid}
  {underWay : String → Prop} {good : Presence → Prop}

theorem observations_append (txid : Txid) (calls more : Calls) :
    observations txid (calls ++ more) = observations txid calls ++ observations txid more :=
  List.filterMap_append

/-- Only one transaction is observed by the calls added. -/
def Extends (txid : Txid) (calls calls' : Calls) : Prop :=
  ∃ more, calls' = calls ++ more ∧ ∀ other, other ≠ txid → observations other more = []

/-- No transaction is observed by the calls added. -/
def Still (calls calls' : Calls) : Prop :=
  ∃ more, calls' = calls ++ more ∧ ∀ other, observations other more = []

theorem Extends.refl (txid : Txid) (calls : Calls) : Extends txid calls calls :=
  ⟨[], (List.append_nil _).symm, fun _ _ => rfl⟩

theorem Still.refl (calls : Calls) : Still calls calls :=
  ⟨[], (List.append_nil _).symm, fun _ => rfl⟩

theorem Extends.trans {a b c : Calls} (h : Extends txid a b) (h' : Extends txid b c) :
    Extends txid a c := by
  obtain ⟨more, rfl, hmore⟩ := h
  obtain ⟨rest, rfl, hrest⟩ := h'
  refine ⟨more ++ rest, List.append_assoc _ _ _, ?_⟩
  intro other hother
  rw [observations_append, hmore other hother, hrest other hother, List.nil_append]

theorem Still.trans {a b c : Calls} (h : Still a b) (h' : Still b c) : Still a c := by
  obtain ⟨more, rfl, hmore⟩ := h
  obtain ⟨rest, rfl, hrest⟩ := h'
  refine ⟨more ++ rest, List.append_assoc _ _ _, ?_⟩
  intro other
  rw [observations_append, hmore other, hrest other, List.nil_append]

theorem Still.extends {a b : Calls} (h : Still a b) : Extends txid a b := by
  obtain ⟨more, hmore, hobserved⟩ := h
  exact ⟨more, hmore, fun other _ => hobserved other⟩

theorem Still.observations_eq {a b : Calls} (h : Still a b) (txid : Txid) :
    observations txid b = observations txid a := by
  obtain ⟨more, rfl, hmore⟩ := h
  rw [observations_append, hmore, List.append_nil]

/-- One call that is no observation. -/
theorem Still.call {call : Call Request Request.Answer}
    (h : ∀ other, observation other call = none) :
    Still calls (calls ++ [call]) := by
  refine ⟨[call], rfl, ?_⟩
  intro other
  rw [observations, List.filterMap_cons_none (h other), List.filterMap_nil]

/-- One call that observes a transaction. -/
theorem extends_presence (answer : Request.Answer (.presenceCached txid)) :
    Extends txid calls (calls ++ [⟨.presenceCached txid, answer⟩]) := by
  refine ⟨[⟨.presenceCached txid, answer⟩], rfl, ?_⟩
  intro other hother
  cases answer with
  | error error => rfl
  | ok presence =>
      show List.filterMap _ _ = []
      rw [List.filterMap_cons_none, List.filterMap_nil]
      exact if_neg fun heq => hother heq.symm

@[simp] theorem observations_presence (presence : Presence) :
    observations txid [⟨.presenceCached txid, .ok presence⟩] = [presence] := by
  simp [observations, observation]

theorem getLast?_observations (presence : Presence) :
    (observations txid (calls ++ [⟨.presenceCached txid, .ok presence⟩])).getLast? =
      some presence := by
  rw [observations_append, observations_presence, List.getLast?_concat]

/-- An observation of one transaction is not lost by calls about another. -/
theorem Observed.extend {calls' : Calls} (h : Observed crates plan good calls raw)
    (hextends : Extends txid calls calls')
    (hother : plan.Distinct crates → txidOf crates raw ≠ some txid) :
    Observed crates plan good calls' raw := by
  obtain ⟨own, hown, ⟨presence, hpresence, hgood⟩, hlast⟩ := h
  obtain ⟨more, rfl, hmore⟩ := hextends
  refine ⟨own, hown, ⟨presence, ?_, hgood⟩, ?_⟩
  · rw [observations_append]
    exact List.mem_append_left _ hpresence
  · intro hdistinct
    have hne : own ≠ txid := by
      rintro rfl
      exact hother hdistinct hown
    rw [observations_append, hmore own hne, List.append_nil]
    exact hlast hdistinct

/-- The last observation is an observation. -/
theorem observed_of_getLast? {presence : Presence} (htxid : txidOf crates raw = some txid)
    (hlast : (observations txid calls).getLast? = some presence) (hgood : good presence) :
    Observed crates plan good calls raw :=
  ⟨txid, htxid, ⟨presence, List.mem_of_getLast? hlast, hgood⟩, fun _ => ⟨presence, hlast, hgood⟩⟩

/-! ## Staying clear -/

/-- Where a call stands in a list with one call more. -/
theorem split_concat {α : Type} {xs before after : List α} {x y : α}
    (h : xs ++ [x] = before ++ y :: after) :
    (after = [] ∧ x = y ∧ xs = before) ∨
      ∃ rest, after = rest ++ [x] ∧ xs = before ++ y :: rest := by
  rcases List.eq_nil_or_concat after with rfl | ⟨rest, last, rfl⟩
  · obtain ⟨hxs, hx⟩ := List.append_inj' h rfl
    cases hx
    exact Or.inl ⟨rfl, rfl, hxs⟩
  · have hshape : xs ++ [x] = (before ++ y :: rest) ++ [last] := by
      rw [h, List.append_assoc, List.cons_append, List.concat_eq_append]
    obtain ⟨hxs, hx⟩ := List.append_inj' hshape rfl
    cases hx
    exact Or.inr ⟨rest, List.concat_eq_append, hxs⟩

theorem Seen.append (h : Seen crates calls raw) : Seen crates (calls ++ more) raw := by
  obtain ⟨txid, htxid, presence, hpresence, havailable⟩ := h
  refine ⟨txid, htxid, presence, ?_, havailable⟩
  rw [observations_append]
  exact List.mem_append_left _ hpresence

/-- One call more: it must not fail, not show another chain, not refuse, and what it submits is
under way. -/
theorem ClearBut.call {underWay' : String → Prop} {call : Call Request Request.Answer}
    (h : ClearBut crates node underWay calls) (hsource : ¬Fails call)
    (hchain : ∀ height answer, call = ⟨.blockHash height, answer⟩ →
      ∃ hash : String, answer = .ok hash ∧ ⟨.tip, .ok (height, hash)⟩ ∈ calls)
    (hpreflight : ∀ raw answer, call = ⟨.testMempoolAccept raw, answer⟩ →
      ¬Refuses crates node calls raw answer)
    (hsubmission : ∀ raw answer, call = ⟨.sendRawTransaction raw, answer⟩ → underWay' raw)
    (hunderWay : ∀ raw, underWay raw → underWay' raw ∨ Seen crates [call] raw) :
    ClearBut crates node underWay' (calls ++ [call]) where
  sources := by
    intro other hother
    rcases List.mem_append.mp hother with hold | hnew
    · exact h.sources other hold
    · rw [List.mem_singleton.mp hnew]
      exact hsource
  chain := by
    intro height answer hmem
    rcases List.mem_append.mp hmem with hold | hnew
    · obtain ⟨hash, hanswer, htip⟩ := h.chain height answer hold
      exact ⟨hash, hanswer, List.mem_append_left _ htip⟩
    · obtain ⟨hash, hanswer, htip⟩ := hchain height answer (List.mem_singleton.mp hnew).symm
      exact ⟨hash, hanswer, List.mem_append_left _ htip⟩
  preflights := by
    intro before raw answer after hsplit
    rcases split_concat hsplit with ⟨_, hcall, rfl⟩ | ⟨rest, _, hcalls⟩
    · exact hpreflight raw answer hcall
    · exact h.preflights before raw answer rest hcalls
  submissions := by
    intro before raw answer after hsplit
    rcases split_concat hsplit with ⟨_, hcall, _⟩ | ⟨rest, rfl, hcalls⟩
    · exact Or.inl (hsubmission raw answer hcall)
    · rcases h.submissions before raw answer rest hcalls with hway | hseen
      · rcases hunderWay raw hway with hway' | hseen
        · exact Or.inl hway'
        · obtain ⟨txid, htxid, presence, hpresence, havailable⟩ := hseen
          refine Or.inr ⟨txid, htxid, presence, ?_, havailable⟩
          rw [observations_append]
          exact List.mem_append_right _ hpresence
      · exact Or.inr hseen.append

/-- The calls whose answers never block. -/
def Request.isQuiet : Request → Bool
  | .presenceCached _ | .presence _ | .blockHash _ | .testMempoolAccept _
  | .sendRawTransaction _ => false
  | _ => true

theorem still_quiet {request : Request} {answer : request.Answer} (hquiet : request.isQuiet) :
    Still calls (calls ++ [⟨request, answer⟩]) := by
  apply Still.call
  intro other
  cases request <;> first | rfl | cases hquiet

theorem ClearBut.quiet {request : Request} {answer : request.Answer}
    (h : ClearBut crates node underWay calls) (hquiet : request.isQuiet) :
    ClearBut crates node underWay (calls ++ [⟨request, answer⟩]) := by
  apply h.call
  · cases request <;> first | exact id | cases hquiet
  · intro height other hcall
    cases hcall
    cases hquiet
  · intro raw other hcall
    cases hcall
    cases hquiet
  · intro raw other hcall
    cases hcall
    cases hquiet
  · intro raw hway
    exact Or.inl hway

/-- A transaction is found, or missing. -/
theorem ClearBut.presence {presence : Presence} (h : ClearBut crates node underWay calls) :
    ClearBut crates node underWay (calls ++ [⟨.presence txid, .ok presence⟩]) := by
  apply h.call
  · exact id
  · intro height other hcall
    cases hcall
  · intro raw other hcall
    cases hcall
  · intro raw other hcall
    cases hcall
  · intro raw hway
    exact Or.inl hway

theorem ClearBut.presenceCached {presence : Presence} (h : ClearBut crates node underWay calls) :
    ClearBut crates node underWay (calls ++ [⟨.presenceCached txid, .ok presence⟩]) := by
  apply h.call
  · exact id
  · intro height other hcall
    cases hcall
  · intro raw other hcall
    cases hcall
  · intro raw other hcall
    cases hcall
  · intro raw hway
    exact Or.inl hway

/-- The chain is still that of the start. -/
theorem ClearBut.blockHash {height : ℕ} {hash : String}
    (h : ClearBut crates node underWay calls) (htip : ⟨.tip, .ok (height, hash)⟩ ∈ calls) :
    ClearBut crates node underWay (calls ++ [⟨.blockHash height, .ok hash⟩]) := by
  apply h.call
  · exact id
  · intro other answer hcall
    cases hcall
    exact ⟨hash, rfl, htip⟩
  · intro raw other hcall
    cases hcall
  · intro raw other hcall
    cases hcall
  · intro raw hway
    exact Or.inl hway

/-- A preflight that does not refuse. -/
theorem ClearBut.testMempoolAccept {answer : Request.Answer (.testMempoolAccept raw)}
    (h : ClearBut crates node underWay calls) (hanswer : ¬Refuses crates node calls raw answer) :
    ClearBut crates node underWay (calls ++ [⟨.testMempoolAccept raw, answer⟩]) := by
  apply h.call
  · exact id
  · intro height other hcall
    cases hcall
  · intro raw other hcall
    cases hcall
    exact hanswer
  · intro raw other hcall
    cases hcall
  · intro raw hway
    exact Or.inl hway

/-- What is submitted is under way. -/
theorem ClearBut.sendRawTransaction {answer : Request.Answer (.sendRawTransaction raw)}
    (h : Clear crates node calls) :
    ClearBut crates node (· = raw) (calls ++ [⟨.sendRawTransaction raw, answer⟩]) := by
  apply ClearBut.call h
  · exact id
  · intro height other hcall
    cases hcall
  · intro raw other hcall
    cases hcall
  · intro raw other hcall
    cases hcall
    rfl
  · intro raw hway
    cases hway

/-- What was under way is observed. -/
theorem ClearBut.observed {presence : Presence} (h : ClearBut crates node (· = raw) calls)
    (htxid : txidOf crates raw = some txid) (havailable : Available presence) :
    Clear crates node (calls ++ [⟨.presenceCached txid, .ok presence⟩]) := by
  apply ClearBut.call h
  · exact id
  · intro height other hcall
    cases hcall
  · intro raw other hcall
    cases hcall
  · intro raw other hcall
    cases hcall
  · rintro _ rfl
    refine Or.inr ⟨txid, htxid, presence, ?_, havailable⟩
    rw [observations_presence]
    exact List.mem_cons_self

theorem ClearBut.weaken {underWay' : String → Prop} (h : ClearBut crates node underWay calls)
    (hway : ∀ raw, underWay raw → underWay' raw) : ClearBut crates node underWay' calls where
  sources := h.sources
  chain := h.chain
  preflights := h.preflights
  submissions before raw answer after hsplit :=
    (h.submissions before raw answer after hsplit).imp (hway raw) id

end Urma.Runtime
