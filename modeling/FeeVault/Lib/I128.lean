import Mathlib.Algebra.Order.Ring.Int
import Mathlib.Tactic.Ring

/-!
# Signed 128-bit integers with checked arithmetic

An `I128` is an integer together with its range, so every value that exists fits.  The
operations return `none` when the exact result does not, as arithmetic compiled with overflow
checks stops there.  Each has one specification, an equation in `ℤ` (`checkedAdd_eq_some`, …);
proofs about code go through these and then live in `ℤ`.
-/

/-- The exact result of an operation is representable. -/
def FitsI128 (z : ℤ) : Prop := -2 ^ 127 ≤ z ∧ z < 2 ^ 127

instance (z : ℤ) : Decidable (FitsI128 z) := inferInstanceAs (Decidable (_ ∧ _))

/-- A non-negative number below one that is representable is representable: what rounding down or
    taking a part leaves needs no check of its own. -/
theorem fitsI128_of_le {z w : ℤ} (h0 : 0 ≤ z) (hzw : z ≤ w) (hw : FitsI128 w) : FitsI128 z :=
  ⟨le_trans (by norm_num) h0, lt_of_le_of_lt hzw hw.2⟩

/-- A non-negative number below `2 ^ 127` is representable, the form in which bounds on amounts
    reach the checked operations. -/
theorem fitsI128_of_lt {z : ℤ} (h0 : 0 ≤ z) (hz : z < 2 ^ 127) : FitsI128 z :=
  ⟨le_trans (by norm_num) h0, hz⟩

/-- A signed 128-bit integer. -/
@[ext] structure I128 where
  /-- The integer it stands for. -/
  val : ℤ
  fits : FitsI128 val
  deriving DecidableEq

namespace I128

instance : Coe I128 ℤ := ⟨I128.val⟩

instance : LE I128 := ⟨fun x y => x.val ≤ y.val⟩
instance : LT I128 := ⟨fun x y => x.val < y.val⟩
instance (x y : I128) : Decidable (x ≤ y) := inferInstanceAs (Decidable (x.val ≤ y.val))
instance (x y : I128) : Decidable (x < y) := inferInstanceAs (Decidable (x.val < y.val))

instance : Zero I128 := ⟨⟨0, by decide⟩⟩

variable {x y z : I128} {a : ℤ}

@[simp] theorem le_iff : x ≤ y ↔ x.val ≤ y.val := Iff.rfl
@[simp] theorem lt_iff : x < y ↔ x.val < y.val := Iff.rfl
@[simp] theorem val_zero : (0 : I128).val = 0 := rfl

/-- The comparison with zero that code makes is one in `ℤ`. -/
theorem eq_zero_iff : x = 0 ↔ x.val = 0 := by rw [I128.ext_iff, val_zero]

/-- The value `a`, when it is representable. -/
def ofInt? (a : ℤ) : Option I128 := if h : FitsI128 a then some ⟨a, h⟩ else none

@[simp] theorem ofInt?_eq_some : ofInt? a = some x ↔ x.val = a := by
  unfold ofInt?
  split
  · next h => rw [Option.some.injEq, I128.ext_iff, eq_comm]
  · next h => simpa using fun hx : x.val = a => h (hx ▸ x.fits)

/-! ### Checked operations -/

/-- `x + y`. -/
def checkedAdd (x y : I128) : Option I128 := ofInt? (x.val + y.val)

/-- `x - y`. -/
def checkedSub (x y : I128) : Option I128 := ofInt? (x.val - y.val)

/-- `x * y`. -/
def checkedMul (x y : I128) : Option I128 := ofInt? (x.val * y.val)

/-- `x / y`, truncated toward zero. -/
def checkedDiv (x y : I128) : Option I128 :=
  if y.val = 0 then none else ofInt? (x.val.tdiv y.val)

@[simp] theorem checkedAdd_eq_some : x.checkedAdd y = some z ↔ z.val = x.val + y.val :=
  ofInt?_eq_some

@[simp] theorem checkedSub_eq_some : x.checkedSub y = some z ↔ z.val = x.val - y.val :=
  ofInt?_eq_some

@[simp] theorem checkedMul_eq_some : x.checkedMul y = some z ↔ z.val = x.val * y.val :=
  ofInt?_eq_some

/-- The specification of division where code uses it, on a non-negative dividend and a positive
    divisor: the quotient always fits, and truncating it is rounding it down. -/
theorem checkedDiv_eq_some (hx : 0 ≤ x.val) (hy : 0 < y.val) :
    x.checkedDiv y = some z ↔ z.val = x.val / y.val := by
  rw [checkedDiv, if_neg hy.ne', ofInt?_eq_some, Int.tdiv_eq_ediv_of_nonneg hx]

/-! ### Operations whose result fits -/

/-- An addition whose exact result is representable goes through, with that result. -/
theorem checkedAdd_isSome (h : FitsI128 (x.val + y.val)) :
    ∃ z, x.checkedAdd y = some z ∧ z.val = x.val + y.val :=
  ⟨⟨_, h⟩, checkedAdd_eq_some.2 rfl, rfl⟩

/-- Taking a part from a number goes through without a bound on either, since the rest lies
    between zero and the number. -/
theorem checkedSub_isSome (hy : 0 ≤ y.val) (hyx : y.val ≤ x.val) :
    ∃ z, x.checkedSub y = some z ∧ z.val = x.val - y.val :=
  ⟨⟨_, fitsI128_of_le (sub_nonneg.2 hyx) (sub_le_self _ hy) x.fits⟩, checkedSub_eq_some.2 rfl, rfl⟩

/-- A multiplication whose exact result is representable goes through, with that result. -/
theorem checkedMul_isSome (h : FitsI128 (x.val * y.val)) :
    ∃ z, x.checkedMul y = some z ∧ z.val = x.val * y.val :=
  ⟨⟨_, h⟩, checkedMul_eq_some.2 rfl, rfl⟩

/-- A division of a non-negative number by a positive one goes through, since the quotient is no
    larger than the dividend. -/
theorem checkedDiv_isSome (hx : 0 ≤ x.val) (hy : 0 < y.val) :
    ∃ z, x.checkedDiv y = some z ∧ z.val = x.val / y.val :=
  ⟨⟨_, fitsI128_of_le (Int.ediv_nonneg hx hy.le) (Int.ediv_le_self _ hx) x.fits⟩,
    (checkedDiv_eq_some hx hy).2 rfl, rfl⟩

/-! ### Unsigned 64-bit time stamps -/

/-- `x as i128`. -/
def ofUInt64 (x : UInt64) : I128 :=
  ⟨x.toNat, by have := x.toNat_lt; unfold FitsI128; omega⟩

@[simp] theorem ofUInt64_val (x : UInt64) : (ofUInt64 x).val = x.toNat := rfl

end I128

/-- `x - y` on unsigned 64-bit integers, `none` below zero. -/
def UInt64.checkedSub (x y : UInt64) : Option UInt64 := if y ≤ x then some (x - y) else none

/-- A time stamp can be taken from any later one, and from itself. -/
theorem UInt64.checkedSub_of_le {x y : UInt64} (h : y ≤ x) : x.checkedSub y = some (x - y) :=
  if_pos h

/-- The elapsed time, as a number: added to the earlier time stamp it gives the later one, so a
    difference that exists has not wrapped. -/
theorem UInt64.toNat_of_checkedSub {x y z : UInt64} (h : x.checkedSub y = some z) :
    z.toNat + y.toNat = x.toNat := by
  unfold UInt64.checkedSub at h
  split at h
  · next hle =>
    obtain rfl := Option.some.inj h
    rw [UInt64.toNat_sub_of_le _ _ hle]
    have := UInt64.le_iff_toNat_le.1 hle
    omega
  · cases h

/-- A time stamp that did not go back, in `ℤ`. -/
theorem UInt64.toNat_sub_nonneg {x y : UInt64} (h : y ≤ x) : 0 ≤ (x.toNat : ℤ) - y.toNat :=
  sub_nonneg.2 (Int.ofNat_le.2 (UInt64.le_iff_toNat_le.1 h))
