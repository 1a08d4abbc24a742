import FeeVault.FixedPoint
import FeeVault.Lib.Outcome

namespace FeeVault

open Outcome

/-!
# Constants, errors and checks

`constants.rs`, `errors.rs` and the argument checks of `validator.rs`, together with the two
ways a call stops that are not contract errors: a trap of the checked arithmetic and a refusal
by the host or by the pool.  A call that stops is reverted, so `Except Failure` is the whole
effect of the contract besides its state.
-/

/-! ### Constants -/

/-- 1 with 7 decimal places. -/
def scalar7 : I128 := ⟨10000000, by decide⟩

/-- 1 with 12 decimal places. -/
def scalar12 : I128 := ⟨1000000000000, by decide⟩

/-- Seconds per year. -/
def secondsPerYear : I128 := ⟨31536000, by decide⟩

/-- The scale of fee values, as a number for arithmetic. -/
theorem scalar7_val : scalar7.val = 10000000 := rfl

/-- The scale of rates, as a number for arithmetic. -/
theorem scalar12_val : scalar12.val = 1000000000000 := rfl

/-- The length of a year, as a number for arithmetic. -/
theorem secondsPerYear_val : secondsPerYear.val = 31536000 := rfl

/-- The scale of fee values may be divided by. -/
theorem scalar7_pos : 0 < scalar7.val := by decide

/-- The scale of rates may be divided by. -/
theorem scalar12_pos : 0 < scalar12.val := by decide

/-! ### Errors -/

/-- The error codes for the contract. -/
inductive FeeVaultError where
  | balanceError            -- 10
  | reserveNotFound         -- 100
  | reserveAlreadyExists    -- 101
  | invalidAmount           -- 102
  | insufficientAccruedFees -- 103
  | invalidFeeModeValue     -- 104
  | insufficientReserves    -- 105
  | invalidBTokensMinted    -- 106
  | invalidBTokensBurnt     -- 107
  | invalidSharesMinted     -- 108
  deriving DecidableEq, Repr

/-- Why a call stops. -/
inductive Failure where
  /-- `panic_with_error!`. -/
  | contract (err : FeeVaultError)
  /-- Integer overflow, or `unwrap_optimized` on the `None` of a fixed-point operation. -/
  | arithmetic
  /-- A missing `require_auth`. -/
  | unauthorized
  /-- The pool refuses the request. -/
  | pool
  deriving DecidableEq, Repr

/-- `unwrap_optimized` on an arithmetic result. -/
def unwrapOptimized {α : Type} : Option α → Except Failure α
  | some a => .ok a
  | none => .error .arithmetic

/-- Require that an incoming amount is positive. -/
def requirePositive (amount : I128) (err : FeeVaultError) : Except Failure Unit :=
  if amount.val ≤ 0 then .error (.contract err) else .ok ()

/-! ### What success of a composed call says about its parts -/

variable {α β : Type}

@[simp] theorem bind_eq_ok {x : Except Failure α} {f : α → Except Failure β} {b : β} :
    x >>= f = .ok b ↔ ∃ a, x = .ok a ∧ f a = .ok b := by
  cases x <;> simp [bind, Except.bind]

@[simp] theorem map_eq_ok {x : Except Failure α} {f : α → β} {b : β} :
    x.map f = .ok b ↔ ∃ a, x = .ok a ∧ f a = b := by
  cases x <;> simp [Except.map]

@[simp] theorem ok_bind (a : α) (f : α → Except Failure β) :
    (Except.ok a : Except Failure α) >>= f = f a := rfl

@[simp] theorem pure_eq_ok (a : α) : (pure a : Except Failure α) = .ok a := rfl

@[simp] theorem unwrapOptimized_eq_ok {o : Option α} {a : α} :
    unwrapOptimized o = .ok a ↔ o = some a := by
  cases o <;> simp [unwrapOptimized]

@[simp] theorem requirePositive_eq_ok {amount : I128} {err : FeeVaultError} {u : Unit} :
    requirePositive amount err = .ok u ↔ 0 < amount.val := by
  unfold requirePositive
  split <;> simp_all

/-! ### How the checks fail -/

section Failures

variable {P : Failure → Prop}

/-- Taking the result out of a checked operation traps in the arithmetic or not at all. -/
theorem failsOnly_unwrap (hP : P .arithmetic) (o : Option α) :
    FailsOnly P (unwrapOptimized o) := by
  cases o with
  | some a => exact .ok a
  | none => exact .error hP

/-- A positive amount passes; any other is refused with the error given. -/
theorem failsOnly_positive {amount : I128} {err : FeeVaultError}
    (h : 0 < amount.val ∨ P (.contract err)) : FailsOnly P (requirePositive amount err) := by
  unfold requirePositive
  split
  · next hle => exact .error (h.resolve_left (not_lt.2 hle))
  · exact .ok ()

end Failures

end FeeVault
