import FeeVault.Lib.I128
import FeeVault.Lib.MulDiv

/-!
# The `soroban_fixed_point_math` crate

`FixedPoint` is the trait the contract calls on `i128`, which lives outside the repository.
It is a parameter of the whole development: four operations, and for each its documented
behaviour on a non-negative divisor — `None` exactly when the product of the two factors
overflows, the divisor is zero or the quotient does not fit, and otherwise the quotient rounded
as the name says.  `FixedPoint.reference` computes just that.
-/

/-- `FixedPoint for i128`. -/
class FixedPoint where
  fixedMulFloor : I128 → I128 → I128 → Option I128
  fixedMulCeil : I128 → I128 → I128 → Option I128
  fixedDivFloor : I128 → I128 → I128 → Option I128
  fixedDivCeil : I128 → I128 → I128 → Option I128
  mulFloor_spec : ∀ x y d q : I128, 0 ≤ d.val →
    (fixedMulFloor x y d = some q ↔
      FitsI128 (x * y) ∧ d.val ≠ 0 ∧ q.val = MulDiv.floor x y d)
  mulCeil_spec : ∀ x y d q : I128, 0 ≤ d.val →
    (fixedMulCeil x y d = some q ↔
      FitsI128 (x * y) ∧ d.val ≠ 0 ∧ q.val = MulDiv.ceil x y d)
  divFloor_spec : ∀ x y d q : I128, 0 ≤ y.val →
    (fixedDivFloor x y d = some q ↔
      FitsI128 (x * d) ∧ y.val ≠ 0 ∧ q.val = MulDiv.floor x d y)
  divCeil_spec : ∀ x y d q : I128, 0 ≤ y.val →
    (fixedDivCeil x y d = some q ↔
      FitsI128 (x * d) ∧ y.val ≠ 0 ∧ q.val = MulDiv.ceil x d y)

namespace FixedPoint

/-! ### The crate's documented behaviour, computed -/

/-- Checked product, then a rounded quotient. -/
def mulDiv (round : ℤ → ℤ → ℤ → ℤ) (x y d : I128) : Option I128 :=
  if FitsI128 (x.val * y.val) ∧ d.val ≠ 0 then I128.ofInt? (round x y d) else none

/-- The reference computation meets the documented behaviour of all four operations, once with
    each rounding and order of the factors. -/
theorem mulDiv_eq_some (round : ℤ → ℤ → ℤ → ℤ) (x y d q : I128) :
    mulDiv round x y d = some q ↔ FitsI128 (x * y) ∧ d.val ≠ 0 ∧ q.val = round x y d := by
  unfold mulDiv
  split
  · next h => simp [h.1, h.2]
  · next h => simpa using fun h1 h2 => absurd ⟨h1, h2⟩ h

/-- An implementation with the documented behaviour. -/
@[reducible] def reference : FixedPoint where
  fixedMulFloor := mulDiv MulDiv.floor
  fixedMulCeil := mulDiv MulDiv.ceil
  fixedDivFloor x y d := mulDiv MulDiv.floor x d y
  fixedDivCeil x y d := mulDiv MulDiv.ceil x d y
  mulFloor_spec x y d q _ := mulDiv_eq_some _ x y d q
  mulCeil_spec x y d q _ := mulDiv_eq_some _ x y d q
  divFloor_spec x y d q _ := mulDiv_eq_some _ x d y q
  divCeil_spec x y d q _ := mulDiv_eq_some _ x d y q

/-! ### Positive divisors -/

variable [FixedPoint] {x y d q : I128}

/-- `x * y / d` rounded down: on a positive divisor it is `None` only when the product overflows,
    since the quotient is what is asked for. -/
theorem mulFloor_eq_some (hd : 0 < d.val) :
    fixedMulFloor x y d = some q ↔ FitsI128 (x * y) ∧ q.val = MulDiv.floor x y d := by
  simp [mulFloor_spec x y d q hd.le, hd.ne']

/-- `x * y / d` rounded up, on a positive divisor. -/
theorem mulCeil_eq_some (hd : 0 < d.val) :
    fixedMulCeil x y d = some q ↔ FitsI128 (x * y) ∧ q.val = MulDiv.ceil x y d := by
  simp [mulCeil_spec x y d q hd.le, hd.ne']

/-- `x * d / y` rounded down: division by the fixed-point number `y` multiplies with the
    scale `d` first. -/
theorem divFloor_eq_some (hy : 0 < y.val) :
    fixedDivFloor x y d = some q ↔ FitsI128 (x * d) ∧ q.val = MulDiv.floor x d y := by
  simp [divFloor_spec x y d q hy.le, hy.ne']

/-- `x * d / y` rounded up, on a positive divisor. -/
theorem divCeil_eq_some (hy : 0 < y.val) :
    fixedDivCeil x y d = some q ↔ FitsI128 (x * d) ∧ q.val = MulDiv.ceil x d y := by
  simp [divCeil_spec x y d q hy.le, hy.ne']

/-! ### Products that fit

A rounded quotient of non-negative numbers is no larger than the product, so the product is all
there is to check. -/

section Fits

variable (hx : 0 ≤ x.val)
include hx

/-- So `fixed_mul_floor` answers whenever the product of non-negative factors fits. -/
theorem mulFloor_isSome (hy : 0 ≤ y.val) (hd : 0 < d.val) (h : FitsI128 (x * y)) :
    ∃ q, fixedMulFloor x y d = some q ∧ q.val = MulDiv.floor x y d := by
  have hfits := fitsI128_of_le (MulDiv.floor_nonneg hx hy hd)
    (MulDiv.floor_le_mul (mul_nonneg hx hy)) h
  exact ⟨⟨_, hfits⟩, (mulFloor_eq_some hd).2 ⟨h, rfl⟩, rfl⟩

/-- And `fixed_mul_ceil` does, its quotient being at most the product as well. -/
theorem mulCeil_isSome (hy : 0 ≤ y.val) (hd : 0 < d.val) (h : FitsI128 (x * y)) :
    ∃ q, fixedMulCeil x y d = some q ∧ q.val = MulDiv.ceil x y d := by
  have hfits := fitsI128_of_le (MulDiv.ceil_nonneg hx hy hd)
    (MulDiv.ceil_le_mul (mul_nonneg hx hy) hd) h
  exact ⟨⟨_, hfits⟩, (mulCeil_eq_some hd).2 ⟨h, rfl⟩, rfl⟩

/-- And `fixed_div_floor` does, with the scale as the second factor of the product. -/
theorem divFloor_isSome (hd : 0 ≤ d.val) (hy : 0 < y.val) (h : FitsI128 (x * d)) :
    ∃ q, fixedDivFloor x y d = some q ∧ q.val = MulDiv.floor x d y := by
  have hfits := fitsI128_of_le (MulDiv.floor_nonneg hx hd hy)
    (MulDiv.floor_le_mul (mul_nonneg hx hd)) h
  exact ⟨⟨_, hfits⟩, (divFloor_eq_some hy).2 ⟨h, rfl⟩, rfl⟩

end Fits

end FixedPoint
