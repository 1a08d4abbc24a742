import Mathlib.Algebra.Order.Ring.Int
import Mathlib.Data.Int.ConditionallyCompleteOrder
import Mathlib.Data.Rat.Floor
import Mathlib.Order.GaloisConnection.Defs
import Mathlib.Tactic.Linarith
import Mathlib.Tactic.Ring

namespace MulDiv

/-!
# Scaled integer division — `⌊x·y/d⌋` and `⌈x·y/d⌉`

The two rounded scalings every fixed-point ledger is built from, over `ℤ` with a
positive divisor:

* `le_floor_iff` / `ceil_le_iff` — the defining inequalities, cleared of the division;
* `ceil_le_iff_le_floor` — scaling up by `y/d` and back down by `d/y` are adjoint, so a
  ceiling on the way in and a floor on the way out lose nothing in between
  (`gc_ceil_floor`);
* `ceil_floor_eq` — the round trip is exact when the outer scale is the coarser one.
-/

/-- `⌊x · y / d⌋`, for a positive divisor. -/
def floor (x y d : ℤ) : ℤ := x * y / d

/-- `⌈x · y / d⌉`, for a positive divisor. -/
def ceil (x y d : ℤ) : ℤ := -(-(x * y) / d)

variable {x x' y d q : ℤ}

/-! ### The defining inequalities -/

/-- Defining inequality of the floor: it is at least `q` exactly when the product is at
    least `q` divisors. -/
theorem le_floor_iff (hd : 0 < d) : q ≤ floor x y d ↔ q * d ≤ x * y :=
  Int.le_ediv_iff_mul_le hd

/-- Defining inequality of the ceiling: it is at most `q` exactly when the product is at
    most `q` divisors. -/
theorem ceil_le_iff (hd : 0 < d) : ceil x y d ≤ q ↔ x * y ≤ q * d := by
  have h := Int.le_ediv_iff_mul_le (a := -q) (b := -(x * y)) hd
  rw [neg_mul, neg_le_neg_iff] at h
  rw [ceil, neg_le, h]

/-- The floor is below `q` exactly when the product is below `q` divisors,
    `le_floor_iff` negated. -/
theorem floor_lt_iff (hd : 0 < d) : floor x y d < q ↔ x * y < q * d := by
  rw [← not_le, le_floor_iff hd, not_le]

/-- The ceiling is above `q` exactly when the product is above `q` divisors,
    `ceil_le_iff` negated. -/
theorem lt_ceil_iff (hd : 0 < d) : q < ceil x y d ↔ q * d < x * y := by
  rw [← not_le, ceil_le_iff hd, not_le]

/-- Scaled back, the floor does not exceed the product. -/
theorem floor_mul_le (hd : 0 < d) : floor x y d * d ≤ x * y := (le_floor_iff hd).1 le_rfl

/-- Scaled back, the ceiling covers the product. -/
theorem le_ceil_mul (hd : 0 < d) : x * y ≤ ceil x y d * d := (ceil_le_iff hd).1 le_rfl

/-- The floor falls short of the product by less than one divisor. -/
theorem lt_floor_add_one_mul (hd : 0 < d) : x * y < (floor x y d + 1) * d :=
  (floor_lt_iff hd).1 (lt_add_one _)

/-- What the ceiling adds to the product. -/
theorem ceil_mul_eq (x y d : ℤ) : ceil x y d * d = x * y + -(x * y) % d := by
  have h := Int.mul_ediv_add_emod (-(x * y)) d
  rw [ceil]
  linarith [mul_comm (-(x * y) / d) d]

/-- The floor of the exact quotient. -/
theorem floor_div_eq (x y : ℤ) (hd : 0 < d) : ⌊(x * y / d : ℚ)⌋ = floor x y d := by
  lift d to ℕ using hd.le
  exact_mod_cast Rat.floor_intCast_div_natCast (x * y) d

/-! ### Signs and sizes -/

@[simp] theorem floor_zero_left (y d : ℤ) : floor 0 y d = 0 := by simp [floor]

@[simp] theorem floor_zero_right (x y : ℤ) : floor x y 0 = 0 := Int.ediv_zero _

/-- Rounding down a product of non-negative factors does not go below zero. -/
theorem floor_nonneg (hx : 0 ≤ x) (hy : 0 ≤ y) (hd : 0 < d) : 0 ≤ floor x y d := by
  rw [le_floor_iff hd, zero_mul]
  exact mul_nonneg hx hy

/-- Rounding up a product of non-negative factors does not go below zero either. -/
theorem ceil_nonneg (hx : 0 ≤ x) (hy : 0 ≤ y) (hd : 0 < d) : 0 ≤ ceil x y d := by
  have h := lt_of_lt_of_le (neg_one_lt_zero (R := ℤ)) (mul_nonneg hx hy)
  have : -1 < ceil x y d := by rw [lt_ceil_iff hd]; linarith
  omega

/-- Rounding up never loses a positive product, however large the divisor: where the floor may
    give nothing, the ceiling gives at least one. -/
theorem ceil_pos (hx : 0 < x) (hy : 0 < y) (hd : 0 < d) : 0 < ceil x y d := by
  rw [lt_ceil_iff hd, zero_mul]
  exact mul_pos hx hy

/-- Scaling by at least one never shrinks, even rounded down. -/
theorem le_floor_self (hx : 0 ≤ x) (hd : 0 < d) (hdy : d ≤ y) : x ≤ floor x y d := by
  rw [le_floor_iff hd]
  exact mul_le_mul_of_nonneg_left hdy hx

/-- Scaling by at least one never shrinks when rounded up. -/
theorem le_ceil_self (hx : 0 ≤ x) (hd : 0 < d) (hdy : d ≤ y) : x ≤ ceil x y d := by
  refine le_of_mul_le_mul_right ?_ hd
  exact le_trans (mul_le_mul_of_nonneg_left hdy hx) (le_ceil_mul hd)

/-- Scaling by at most one never grows. -/
theorem floor_le_self (hx : 0 ≤ x) (hd : 0 < d) (hyd : y ≤ d) : floor x y d ≤ x := by
  have h : floor x y d * d ≤ x * d :=
    le_trans (floor_mul_le hd) (mul_le_mul_of_nonneg_left hyd hx)
  exact le_of_mul_le_mul_right h hd

/-- A quotient of a non-negative product is no larger than it. -/
theorem floor_le_mul (h0 : 0 ≤ x * y) : floor x y d ≤ x * y := Int.ediv_le_self d h0

/-- The ceiling of a quotient does not exceed the product either, the divisor being at least one:
    a product that fits has both quotients fit. -/
theorem ceil_le_mul (h0 : 0 ≤ x * y) (hd : 0 < d) : ceil x y d ≤ x * y := by
  rw [ceil_le_iff hd]
  exact le_mul_of_one_le_right h0 hd

/-- A product below the divisor leaves nothing. -/
theorem floor_eq_zero (h0 : 0 ≤ x * y) (hlt : x * y < d) : floor x y d = 0 :=
  Int.ediv_eq_zero_of_lt h0 hlt

/-! ### The adjunction -/

/-- Rounding `x` up through `y/d` stays below `q` exactly when `x` is below `q` rounded
    down through `d/y`. -/
theorem ceil_le_iff_le_floor (hy : 0 < y) (hd : 0 < d) :
    ceil x y d ≤ q ↔ x ≤ floor q d y := by
  rw [ceil_le_iff hd, le_floor_iff hy]

/-- Scaling up and scaling back down form a Galois connection. -/
theorem gc_ceil_floor (hy : 0 < y) (hd : 0 < d) :
    GaloisConnection (fun x => ceil x y d) (fun q => floor q d y) :=
  fun _ _ => ceil_le_iff_le_floor hy hd

/-- Rounding down and then up again never exceeds the start. -/
theorem ceil_floor_le (hy : 0 < y) (hd : 0 < d) : ceil (floor q d y) y d ≤ q :=
  (gc_ceil_floor hy hd).l_u_le q

/-- **Exact round trip.**  When the scale `d/y` is at least one, rounding down through it
    and up through its inverse gives the start back. -/
theorem ceil_floor_eq (hy : 0 < y) (hyd : y ≤ d) : ceil (floor q d y) y d = q := by
  have hd : 0 < d := lt_of_lt_of_le hy hyd
  refine le_antisymm (ceil_floor_le hy hd) ?_
  have hlt := lt_floor_add_one_mul (x := q) (y := d) hy
  have : q - 1 < ceil (floor q d y) y d := by
    rw [lt_ceil_iff hd]
    linarith [sub_mul q 1 d, add_mul (floor q d y) 1 y]
  omega

/-- Both scalings are monotone in the scaled amount. -/
theorem floor_mono (hy : 0 ≤ y) (hd : 0 < d) (h : x ≤ x') : floor x y d ≤ floor x' y d := by
  rw [le_floor_iff hd]
  exact le_trans (floor_mul_le hd) (mul_le_mul_of_nonneg_right h hy)

/-- The ceiling is monotone in the scaled amount, as the floor is. -/
theorem ceil_mono (hy : 0 ≤ y) (hd : 0 < d) (h : x ≤ x') : ceil x y d ≤ ceil x' y d := by
  rw [ceil_le_iff hd]
  exact le_trans (mul_le_mul_of_nonneg_right h hy) (le_ceil_mul hd)

/-! ### Scaling in pieces -/

/-- Rounding down piece by piece loses at least as much as rounding the sum. -/
theorem sum_floor_le (hd : 0 < d) (xs : List ℤ) :
    (xs.map fun x => floor x y d).sum ≤ floor xs.sum y d := by
  induction xs with
  | nil => simp
  | cons x xs ih =>
    have hx := floor_mul_le (x := x) (y := y) hd
    have hxs := floor_mul_le (x := xs.sum) (y := y) hd
    rw [List.map_cons, List.sum_cons, List.sum_cons]
    refine (add_le_add_right ih _).trans ?_
    rw [le_floor_iff hd]
    linarith

/-- … but less than one a piece. -/
theorem sum_le_sum_floor (hd : 0 < d) (xs : List ℤ) :
    xs.sum * y + xs.length ≤ ((xs.map fun x => floor x y d).sum + xs.length) * d := by
  induction xs with
  | nil => simp
  | cons x xs ih =>
    have hx := lt_floor_add_one_mul (x := x) (y := y) hd
    rw [List.map_cons, List.sum_cons, List.sum_cons, List.length_cons]
    push_cast
    linarith

/-- Rounding up piece by piece gains at least as much as rounding the sum. -/
theorem ceil_sum_le (hd : 0 < d) (xs : List ℤ) :
    ceil xs.sum y d ≤ (xs.map fun x => ceil x y d).sum := by
  induction xs with
  | nil => simp [ceil]
  | cons x xs ih =>
    have hx := le_ceil_mul (x := x) (y := y) hd
    have hxs := le_ceil_mul (x := xs.sum) (y := y) hd
    rw [List.map_cons, List.sum_cons, List.sum_cons]
    refine le_trans ?_ (add_le_add_right ih _)
    rw [ceil_le_iff hd]
    linarith

/-! ### Floors of rationals -/

/-- A rational that moved by `d`, or by less than one short of it, has a floor that
    moved by `d` or `d - 1`. -/
theorem floor_eq_or {u v : ℚ} {d : ℤ} (hlt : u + d - 1 < v) (hle : v ≤ u + d) :
    ⌊v⌋ = ⌊u⌋ + d ∨ ⌊v⌋ = ⌊u⌋ + d - 1 := by
  have hupper := Int.floor_le_floor hle
  have hlower := Int.floor_le_floor hlt.le
  rw [Int.floor_add_intCast] at hupper
  rw [Int.floor_sub_one, Int.floor_add_intCast] at hlower
  omega

example : floor 7 3 2 = 10 ∧ ceil 7 3 2 = 11 := by decide

end MulDiv
