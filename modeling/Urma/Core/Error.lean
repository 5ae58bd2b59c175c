import Mathlib.Algebra.GroupWithZero.Nat
import Mathlib.Data.Nat.Notation

/-!
# Errors and checked arithmetic

`urma_core::error`: the error type every fallible function returns, and the
`ensure!` / `bail!` macros that build its `Invalid` variant. Only the variants
that the modelled functions can produce are kept; the causes wrapped from other
crates carry no data that any modelled function reads.

Heights, positions and byte counts are `Nat`. Where the source computes with a
fixed width, the operation is the checked one below, so an overflow is visible
as `none`.
-/

namespace Urma

/-- `urma_core::error::Error`. -/
inductive Error where
  | invalid (message : String)
  | unsupported (message : String)
  | capacity (message : String)
  | missing (message : String)
  | integer
  | slice
  | utf8
  | script
  | secp256k1
  | taproot
  | random
  | kdf
  deriving DecidableEq, Repr

/-- `ensure!`: an `Invalid` error unless the condition holds. -/
def ensure (condition : Bool) (message : String) : Except Error Unit :=
  if condition then .ok () else .error (.invalid message)

@[simp] theorem ensure_true (message : String) : ensure true message = .ok () := rfl

@[simp] theorem ensure_false (message : String) :
    ensure false message = .error (.invalid message) := rfl

/-- An `ensure!` passes exactly when its condition holds. -/
@[simp] theorem ensure_eq_ok {condition : Bool} {message : String} {u : Unit} :
    ensure condition message = .ok u ↔ condition = true := by
  cases condition <;> simp [ensure]

/-- `if !condition { return Err(Error::Unsupported(message)); }`. -/
def ensureSupported (condition : Bool) (message : String) : Except Error Unit :=
  if condition then .ok () else .error (.unsupported message)

@[simp] theorem ensureSupported_true (message : String) :
    ensureSupported true message = .ok () := rfl

@[simp] theorem ensureSupported_eq_ok {condition : Bool} {message : String} {u : Unit} :
    ensureSupported condition message = .ok u ↔ condition = true := by
  cases condition <;> simp [ensureSupported]

/-- `Option::context`: a `Missing` error when there is no value. -/
def context {α : Type} (value : Option α) (message : String) : Except Error α :=
  match value with
  | some value => .ok value
  | none => .error (.missing message)

@[simp] theorem context_some {α : Type} (a : α) (message : String) :
    context (some a) message = .ok a := rfl

@[simp] theorem context_eq_ok {α : Type} {value : Option α} {message : String} {a : α} :
    context value message = .ok a ↔ value = some a := by
  cases value <;> simp [context]

/-- `u64::MAX`. -/
def u64Max : Nat := 2 ^ 64 - 1

/-- `u32::MAX`. -/
def u32Max : Nat := 2 ^ 32 - 1

/-- `u16::MAX`. -/
def u16Max : Nat := 2 ^ 16 - 1

/-- `u8::MAX`. -/
def u8Max : Nat := 2 ^ 8 - 1

/-- `u64::checked_add`. -/
def checkedAdd (a b : Nat) : Option Nat :=
  if a + b ≤ u64Max then some (a + b) else none

/-- `u64::checked_sub`. -/
def checkedSub (a b : Nat) : Option Nat :=
  if b ≤ a then some (a - b) else none

/-- `u64::checked_mul`. -/
def checkedMul (a b : Nat) : Option Nat :=
  if a * b ≤ u64Max then some (a * b) else none

theorem checkedMul_eq_some {a b c : Nat} :
    checkedMul a b = some c ↔ a * b ≤ u64Max ∧ c = a * b := by
  unfold checkedMul
  split
  · next h => simp [h, eq_comm]
  · next h => simp [h]

theorem checkedAdd_eq_some {a b c : Nat} :
    checkedAdd a b = some c ↔ a + b ≤ u64Max ∧ c = a + b := by
  unfold checkedAdd
  split
  · next h => simp [h, eq_comm]
  · next h => simp [h]

theorem checkedSub_eq_some {a b c : Nat} :
    checkedSub a b = some c ↔ b ≤ a ∧ c = a - b := by
  unfold checkedSub
  split
  · next h => simp [h, eq_comm]
  · next h => simp [h]

/-! ## Peeling a computation apart

A successful `do` block is a chain of successful steps. -/

@[simp] theorem Except.ok_bind {ε α β : Type} (a : α) (f : α → Except ε β) :
    (Except.ok a >>= f) = f a := rfl

@[simp] theorem Except.error_bind {ε α β : Type} (e : ε) (f : α → Except ε β) :
    (Except.error e >>= f) = .error e := rfl

/-- A bind succeeds exactly when both of its halves do. -/
theorem Except.bind_eq_ok {ε α β : Type} {x : Except ε α} {f : α → Except ε β} {b : β} :
    (x >>= f) = .ok b ↔ ∃ a, x = .ok a ∧ f a = .ok b := by
  cases x with
  | error e =>
      constructor
      · intro h; cases h
      · rintro ⟨a, h, _⟩; cases h
  | ok a =>
      constructor
      · intro h; exact ⟨a, rfl, h⟩
      · rintro ⟨a', h, h'⟩; cases h; exact h'

/-- A check of every item passes exactly when it passes for each. -/
theorem Except.forM_eq_ok {ε α : Type} {xs : List α} {f : α → Except ε Unit} {u : Unit} :
    xs.forM f = .ok u ↔ ∀ x ∈ xs, f x = .ok () := by
  induction xs with
  | nil =>
      constructor
      · intro _ x hx; cases hx
      · intro _; rfl
  | cons x xs ih =>
      show (f x >>= fun _ => xs.forM f) = .ok u ↔ _
      rw [Except.bind_eq_ok]
      constructor
      · rintro ⟨_, hfirst, hrest⟩ y hy
        rcases List.mem_cons.mp hy with rfl | hy
        · exact hfirst
        · exact ih.mp hrest y hy
      · intro h
        exact ⟨(), h x List.mem_cons_self, ih.mpr (fun y hy => h y (List.mem_cons_of_mem x hy))⟩

/-- A map that succeeds keeps the length. -/
theorem Except.length_of_mapM_eq_ok {ε α β : Type} {xs : List α} {f : α → Except ε β}
    {ys : List β} (h : xs.mapM f = .ok ys) : ys.length = xs.length := by
  induction xs generalizing ys with
  | nil =>
      rw [List.mapM_nil] at h
      cases h
      rfl
  | cons x xs ih =>
      simp only [List.mapM_cons, Except.bind_eq_ok] at h
      obtain ⟨y, _, rest, hrest, hys⟩ := h
      cases hys
      rw [List.length_cons, List.length_cons, ih hrest]

/-- A partial function applied to every item succeeds when each item is in its domain. -/
theorem Except.mapM_eq_ok_map {ε α β : Type} {f : α → Except ε β} {P : α → Prop} {g : α → β}
    {xs : List α} {ys : List β} (h : ∀ x y, f x = .ok y ↔ P x ∧ y = g x) :
    xs.mapM f = .ok ys ↔ (∀ x ∈ xs, P x) ∧ ys = xs.map g := by
  induction xs generalizing ys with
  | nil =>
      rw [List.mapM_nil]
      constructor
      · intro heq
        cases heq
        exact ⟨fun _ hx => absurd hx List.not_mem_nil, rfl⟩
      · rintro ⟨_, rfl⟩
        rfl
  | cons x xs ih =>
      simp only [List.mapM_cons, Except.bind_eq_ok, h, ih]
      constructor
      · rintro ⟨_, ⟨hx, rfl⟩, _, ⟨hxs, rfl⟩, hys⟩
        cases hys
        refine ⟨?_, rfl⟩
        intro y hy
        rcases List.mem_cons.mp hy with rfl | hy
        · exact hx
        · exact hxs y hy
      · rintro ⟨hall, rfl⟩
        exact ⟨g x, ⟨hall x List.mem_cons_self, rfl⟩, xs.map g,
          ⟨fun y hy => hall y (List.mem_cons_of_mem x hy), rfl⟩, rfl⟩

/-- Reading every item by a reader that is exact on valid values gives the valid values whose
writings they are. -/
theorem Except.mapM_eq_ok_valid {ε α β : Type} {f : α → Except ε β} {Valid : β → Prop} {g : β → α}
    {xs : List α} {ys : List β} (h : ∀ x y, f x = .ok y ↔ Valid y ∧ x = g y) :
    xs.mapM f = .ok ys ↔ (∀ y ∈ ys, Valid y) ∧ xs = ys.map g := by
  induction xs generalizing ys with
  | nil =>
      rw [List.mapM_nil]
      constructor
      · intro heq
        cases heq
        exact ⟨fun _ hy => absurd hy List.not_mem_nil, rfl⟩
      · rintro ⟨_, heq⟩
        rw [List.map_eq_nil_iff.mp heq.symm]
        rfl
  | cons x xs ih =>
      simp only [List.mapM_cons, Except.bind_eq_ok, h, ih]
      constructor
      · rintro ⟨y, ⟨hy, rfl⟩, rest, ⟨hrest, rfl⟩, hys⟩
        cases hys
        refine ⟨?_, rfl⟩
        intro z hz
        rcases List.mem_cons.mp hz with rfl | hz
        · exact hy
        · exact hrest z hz
      · rintro ⟨hvalid, heq⟩
        cases ys with
        | nil => cases heq
        | cons y rest =>
            obtain ⟨hx, hxs⟩ := List.cons.inj heq
            exact ⟨y, ⟨hvalid y List.mem_cons_self, hx⟩, rest,
              ⟨fun z hz => hvalid z (List.mem_cons_of_mem y hz), hxs⟩, rfl⟩

/-- Reading every item by an exact reader gives the items whose writings they are. -/
theorem Except.mapM_eq_ok {ε α β : Type} {f : α → Except ε β} {g : β → α} {xs : List α}
    {ys : List β} (h : ∀ x y, f x = .ok y ↔ x = g y) : xs.mapM f = .ok ys ↔ xs = ys.map g := by
  have hvalid := @Except.mapM_eq_ok_valid ε α β f (fun _ => True) g xs ys
    (fun x y => by rw [h, true_and])
  rw [hvalid]
  exact and_iff_right fun _ _ => trivial

/-! ## Refusals

Some callers tell a refused input from a failure of the machinery: an `Invalid` or `Unsupported`
error speaks of the input, any other one does not. -/

/-- The computation fails, if it fails, by refusing its input. -/
def OnlyRefuses {α : Type} (x : Except Error α) : Prop :=
  ∀ error, x = .error error →
    ∃ reason, error = .invalid reason ∨ error = .unsupported reason

theorem OnlyRefuses.ok {α : Type} (a : α) : OnlyRefuses (.ok a) := by
  intro error h
  cases h

theorem OnlyRefuses.ensure (condition : Bool) (message : String) :
    OnlyRefuses (Urma.ensure condition message) := by
  intro error h
  cases condition with
  | false => cases h; exact ⟨message, Or.inl rfl⟩
  | true => cases h

theorem OnlyRefuses.ensureSupported (condition : Bool) (message : String) :
    OnlyRefuses (Urma.ensureSupported condition message) := by
  intro error h
  cases condition with
  | false => cases h; exact ⟨message, Or.inr rfl⟩
  | true => cases h

/-- A chain refuses only when each of its steps does. -/
theorem OnlyRefuses.bind {α β : Type} {x : Except Error α} {f : α → Except Error β}
    (hx : OnlyRefuses x) (hf : ∀ a, x = .ok a → OnlyRefuses (f a)) : OnlyRefuses (x >>= f) := by
  intro error h
  cases x with
  | error _ => cases h; exact hx error rfl
  | ok a => exact hf a rfl error h

end Urma
