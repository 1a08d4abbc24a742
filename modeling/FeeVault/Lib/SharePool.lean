import FeeVault.Lib.MulDiv
import Mathlib.Algebra.Order.Field.Rat
import Mathlib.Algebra.Order.Field.Basic
import Mathlib.Tactic.FieldSimp
import Mathlib.Tactic.GCongr
import Mathlib.Tactic.Positivity

/-!
# Share pools — pro-rata ownership with rounding against the mover

A `SharePool` is a pair of totals, the `shares` issued and the `assets` they own.  The
invariant that keeps its ledger sane travels with the value: assets never exceed shares,
and a pool without assets has no shares either.

* `deposit` / `withdraw` / `skim` — the three movements.  Minted shares are rounded down,
  burned shares up; `skim` takes assets away from everybody.
* `cross_le_deposit` / `cross_le_withdraw` — the price `assets / shares` never falls under
  a deposit or a withdrawal, stated without division.
* `mul_shares_le_deposit` / `mul_shares_le_withdraw` — nor does it fall below a fixed floor,
  restarts from the empty pool included.
* `claim_deposit_le` / `claim_withdraw_le` — what a group of holders can claim after its own
  movement is bounded by what it could claim before, plus what it paid in.
* `floor_deposit` / `floor_withdraw` — and, rounded down, it is off by one asset at most.
* `Deposits.shares_le` / `Withdrawals.burned_le` — moving in pieces never pays, since the price the
  first piece finds is a floor under the prices of the others.
-/

/-- Totals of a pool that issues shares against assets. -/
@[ext] structure SharePool where
  /-- Shares issued. -/
  shares : ℤ
  /-- Assets owned by the shares. -/
  assets : ℤ
  assets_nonneg : 0 ≤ assets
  assets_le_shares : assets ≤ shares
  shares_eq_zero : assets = 0 → shares = 0

namespace SharePool

variable (p : SharePool) {x f a : ℤ}

/-- Shares are not negative: there are at least as many as assets. -/
theorem shares_nonneg : 0 ≤ p.shares := le_trans p.assets_nonneg p.assets_le_shares

/-- The pool is empty on both sides or on neither, so a check of either total is a check
    of both. -/
theorem assets_eq_zero_iff : p.assets = 0 ↔ p.shares = 0 := by
  refine ⟨p.shares_eq_zero, ?_⟩
  intro h
  have h1 := p.assets_nonneg
  have h2 := p.assets_le_shares
  omega

/-- Shares that exist own something, so conversions may divide by the assets. -/
theorem assets_pos (h : 0 < p.shares) : 0 < p.assets := by
  have h1 := p.assets_nonneg
  have h2 := p.assets_eq_zero_iff
  omega

/-- The test that conversions branch on, in the form the bounds need. -/
theorem shares_pos_of_ne (h : p.shares ≠ 0) : 0 < p.shares :=
  lt_of_le_of_ne p.shares_nonneg h.symm

/-- The pool nobody holds. -/
def empty : SharePool := ⟨0, 0, le_rfl, le_rfl, fun _ => rfl⟩

/-! ### Conversions -/

/-- Shares minted for `x` assets, rounded down; the first holder gets one share an asset. -/
def minted (x : ℤ) : ℤ :=
  if p.shares = 0 then x else MulDiv.floor x p.shares p.assets

/-- Shares burned for `x` assets, rounded up. -/
def burned (x : ℤ) : ℤ :=
  if p.shares = 0 then x else MulDiv.ceil x p.shares p.assets

/-- A share is worth at most one asset, so a deposit mints no less than its amount: one that pays
    something gets something. -/
theorem le_minted (hx : 0 ≤ x) : x ≤ p.minted x := by
  unfold minted
  split
  · exact le_rfl
  · next h =>
    have hS := p.shares_pos_of_ne h
    exact MulDiv.le_floor_self hx (p.assets_pos hS) p.assets_le_shares

/-- And a withdrawal burns no less than its amount. -/
theorem le_burned (hx : 0 ≤ x) : x ≤ p.burned x := by
  unfold burned
  split
  · exact le_rfl
  · next h =>
    have hS := p.shares_pos_of_ne h
    exact MulDiv.le_ceil_self hx (p.assets_pos hS) p.assets_le_shares

/-- Minting never costs the pool: the shares handed out are covered by the assets paid. -/
theorem minted_mul_assets_le : p.minted x * p.assets ≤ x * p.shares := by
  unfold minted
  split
  · next h => rw [p.assets_eq_zero_iff.2 h, h]
  · next h =>
    exact MulDiv.floor_mul_le (p.assets_pos (p.shares_pos_of_ne h))

/-- Burning never costs the pool: the assets paid out are covered by the shares taken. -/
theorem mul_shares_le_burned : x * p.shares ≤ p.burned x * p.assets := by
  unfold burned
  split
  · next h => rw [p.assets_eq_zero_iff.2 h, h]
  · next h =>
    exact MulDiv.le_ceil_mul (p.assets_pos (p.shares_pos_of_ne h))

/-- On a pool with holders, burning at most `a` shares is withdrawing at most what `a`
    shares are worth. -/
theorem burned_le_iff (hS : 0 < p.shares) :
    p.burned x ≤ a ↔ x ≤ MulDiv.floor a p.assets p.shares := by
  rw [burned, if_neg hS.ne']
  exact MulDiv.ceil_le_iff_le_floor hS (p.assets_pos hS)

/-- The shares burned for `x` assets are all of them once `x` is all the assets. -/
theorem burned_assets : p.burned p.assets = p.shares := by
  unfold burned
  split
  · next h => rw [h, p.assets_eq_zero_iff.2 h]
  · next h =>
    have hT := p.assets_pos (p.shares_pos_of_ne h)
    rw [MulDiv.ceil, mul_comm, ← neg_mul, Int.mul_ediv_cancel _ hT.ne', neg_neg]

/-- What `a` shares are worth, rounded down, never exceeds the assets. -/
theorem floor_le_assets (hS : 0 < p.shares) (haS : a ≤ p.shares) :
    MulDiv.floor a p.assets p.shares ≤ p.assets := by
  have h := MulDiv.floor_mono p.assets_nonneg hS haS
  rwa [MulDiv.floor, MulDiv.floor, Int.mul_ediv_cancel_left _ hS.ne'] at h

/-- Rounded down holder by holder, no more than all shares are worth no more than all assets, … -/
theorem sum_floor_le_assets {as : List ℤ} (hle : as.sum ≤ p.shares) :
    (as.map fun a => MulDiv.floor a p.assets p.shares).sum ≤ p.assets := by
  rcases p.shares_nonneg.eq_or_lt with hS | hS
  · simp [← hS, p.assets_nonneg]
  · exact (MulDiv.sum_floor_le hS as).trans (p.floor_le_assets hS hle)

/-- … and all shares are short of them by one asset a holder at most. -/
theorem assets_le_sum_floor {as : List ℤ} (hall : as.sum = p.shares) :
    p.assets ≤ (as.map fun a => MulDiv.floor a p.assets p.shares).sum + as.length := by
  have hlen : (0 : ℤ) ≤ as.length := Int.natCast_nonneg _
  rcases p.shares_nonneg.eq_or_lt with hS | hS
  · simp [← hS, p.assets_eq_zero_iff.2 hS.symm]
  · have hsum := MulDiv.sum_le_sum_floor (y := p.assets) hS as
    rw [hall, mul_comm p.shares] at hsum
    exact le_of_mul_le_mul_right (by linarith) hS

/-- A holder who takes out all that the shares are worth, rounded down, keeps shares worth less
    than one asset, if any. -/
theorem rest_lt (hS : 0 < p.shares) (haS : a ≤ p.shares)
    (hrest : p.burned (MulDiv.floor a p.assets p.shares) < a) :
    (a - p.burned (MulDiv.floor a p.assets p.shares)) *
        (p.assets - MulDiv.floor a p.assets p.shares) <
      p.shares - p.burned (MulDiv.floor a p.assets p.shares) := by
  have hT := p.assets_pos hS
  have hlt := MulDiv.lt_floor_add_one_mul (x := a) (y := p.assets) hS
  have hle := p.floor_le_assets hS haS
  have hburn := p.mul_shares_le_burned (x := MulDiv.floor a p.assets p.shares)
  have hall := p.burned_assets
  generalize MulDiv.floor a p.assets p.shares = z at *
  -- something is left over, since burning for all the assets burns all the shares
  have hleft : 1 ≤ p.assets - z := by
    by_contra hnot
    obtain rfl : z = p.assets := by omega
    omega
  generalize p.burned z = m at *
  refine lt_of_mul_lt_mul_left ?_ hT.le
  have h1 : 0 < (z + 1) * p.shares - a * p.assets := by linarith
  have h2 : 0 ≤ m * p.assets - z * p.shares := by linarith
  nlinarith [mul_pos h1 (lt_of_lt_of_le one_pos hleft), mul_nonneg h2 (sub_nonneg.2 hleft)]

/-! ### Movements -/

/-- Pay `x` assets in for `minted x` shares. -/
def deposit (x : ℤ) (hx : 0 ≤ x) : SharePool where
  shares := p.shares + p.minted x
  assets := p.assets + x
  assets_nonneg := add_nonneg p.assets_nonneg hx
  assets_le_shares := add_le_add p.assets_le_shares (p.le_minted hx)
  shares_eq_zero h := by
    have hT : p.assets = 0 := by have := p.assets_nonneg; omega
    have hS := p.shares_eq_zero hT
    rw [minted, if_pos hS]
    omega

/-- Take `x` assets out for `burned x` shares. -/
def withdraw (x : ℤ) (hxT : x ≤ p.assets) : SharePool where
  shares := p.shares - p.burned x
  assets := p.assets - x
  assets_nonneg := sub_nonneg.2 hxT
  assets_le_shares := by
    rcases p.shares_nonneg.eq_or_lt with h | h
    · rw [burned, if_pos h.symm]
      exact sub_le_sub_right p.assets_le_shares x
    · -- what is left over is the same share of a pool that holds more shares than assets
      have hT := p.assets_pos h
      have hb : p.burned x ≤ p.shares - (p.assets - x) := by
        rw [burned, if_neg h.ne', MulDiv.ceil_le_iff hT]
        nlinarith [p.assets_le_shares, mul_le_mul_of_nonneg_right p.assets_le_shares
          (sub_nonneg.2 hxT)]
      omega
  shares_eq_zero h := by
    obtain rfl : x = p.assets := by omega
    rw [burned_assets, sub_self]

/-- Take `f` assets from all holders alike, short of emptying the pool. -/
def skim (f : ℤ) (hf : 0 ≤ f) (hfT : f < p.assets ∨ f = 0) : SharePool where
  shares := p.shares
  assets := p.assets - f
  assets_nonneg := by have := p.assets_nonneg; omega
  assets_le_shares := by have := p.assets_le_shares; omega
  shares_eq_zero h := p.shares_eq_zero (by omega)

@[simp] theorem deposit_shares (hx : 0 ≤ x) :
    (p.deposit x hx).shares = p.shares + p.minted x := rfl
@[simp] theorem deposit_assets (hx : 0 ≤ x) : (p.deposit x hx).assets = p.assets + x := rfl
@[simp] theorem withdraw_shares (hxT : x ≤ p.assets) :
    (p.withdraw x hxT).shares = p.shares - p.burned x := rfl
@[simp] theorem withdraw_assets (hxT : x ≤ p.assets) :
    (p.withdraw x hxT).assets = p.assets - x := rfl
@[simp] theorem skim_shares (hf : 0 ≤ f) (hfT : f < p.assets ∨ f = 0) :
    (p.skim f hf hfT).shares = p.shares := rfl
@[simp] theorem skim_assets (hf : 0 ≤ f) (hfT : f < p.assets ∨ f = 0) :
    (p.skim f hf hfT).assets = p.assets - f := rfl

/-! ### The price never falls under a movement -/

/-- **Deposits do not dilute.** -/
theorem cross_le_deposit (hx : 0 ≤ x) :
    p.assets * (p.deposit x hx).shares ≤ (p.deposit x hx).assets * p.shares := by
  have h := p.minted_mul_assets_le (x := x)
  simp only [deposit_shares, deposit_assets]
  linarith [mul_add p.assets p.shares (p.minted x), add_mul p.assets x p.shares,
    mul_comm (p.minted x) p.assets]

/-- **Withdrawals do not dilute.** -/
theorem cross_le_withdraw (hxT : x ≤ p.assets) :
    p.assets * (p.withdraw x hxT).shares ≤ (p.withdraw x hxT).assets * p.shares := by
  have h := p.mul_shares_le_burned (x := x)
  simp only [withdraw_shares, withdraw_assets]
  linarith [mul_sub p.assets p.shares (p.burned x), sub_mul p.assets x p.shares,
    mul_comm (p.burned x) p.assets]

/-! ### A floor under the price

`c · shares ≤ d · assets` says that a share is worth at least `c / d` assets.  Movements keep it
wherever it allows the price `1` the first holder pays. -/

section Floor

variable {c d : ℤ}

/-- Above the floor no more is minted than the floor allows: a deposit pays the price it finds,
    and in the empty pool the price `1`. -/
theorem mul_minted_le (hx : 0 ≤ x) (hc : 0 ≤ c) (hcd : c ≤ d)
    (h : c * p.shares ≤ d * p.assets) : c * p.minted x ≤ d * x := by
  by_cases hS : p.shares = 0
  · rw [minted, if_pos hS]
    exact mul_le_mul_of_nonneg_right hcd hx
  · have hT : 0 < p.assets := p.assets_pos (p.shares_pos_of_ne hS)
    refine le_of_mul_le_mul_right ?_ hT
    calc c * p.minted x * p.assets
        = c * (p.minted x * p.assets) := mul_assoc ..
      _ ≤ c * (x * p.shares) := mul_le_mul_of_nonneg_left p.minted_mul_assets_le hc
      _ = x * (c * p.shares) := mul_left_comm ..
      _ ≤ x * (d * p.assets) := mul_le_mul_of_nonneg_left h hx
      _ = d * x * p.assets := by ring

/-- **Deposits keep the floor**, also the first one, which restarts an empty pool at the
    price `1`. -/
theorem mul_shares_le_deposit (hx : 0 ≤ x) (hc : 0 ≤ c) (hcd : c ≤ d)
    (h : c * p.shares ≤ d * p.assets) :
    c * (p.deposit x hx).shares ≤ d * (p.deposit x hx).assets := by
  have hm := p.mul_minted_le hx hc hcd h
  rw [deposit_shares, deposit_assets, mul_add, mul_add]
  exact add_le_add h hm

/-- **Withdrawals keep the floor**, since they do not lower the price of the pool they find. -/
theorem mul_shares_le_withdraw (hxT : x ≤ p.assets) (hc : 0 ≤ c) (hcd : c ≤ d)
    (h : c * p.shares ≤ d * p.assets) :
    c * (p.withdraw x hxT).shares ≤ d * (p.withdraw x hxT).assets := by
  rcases p.assets_nonneg.eq_or_lt with hT | hT
  · -- an empty pool: the price is `1` on both sides
    have hS := p.shares_eq_zero hT.symm
    have hx : 0 ≤ -x := by omega
    rw [withdraw_shares, withdraw_assets, burned, if_pos hS, hS, ← hT, zero_sub]
    exact mul_le_mul_of_nonneg_right hcd hx
  · have hcross := p.cross_le_withdraw hxT
    refine le_of_mul_le_mul_right ?_ hT
    calc c * (p.withdraw x hxT).shares * p.assets
        = c * (p.assets * (p.withdraw x hxT).shares) := by ring
      _ ≤ c * ((p.withdraw x hxT).assets * p.shares) := mul_le_mul_of_nonneg_left hcross hc
      _ = (p.withdraw x hxT).assets * (c * p.shares) := mul_left_comm ..
      _ ≤ (p.withdraw x hxT).assets * (d * p.assets) :=
          mul_le_mul_of_nonneg_left h (p.withdraw x hxT).assets_nonneg
      _ = d * (p.withdraw x hxT).assets * p.assets := by ring

end Floor

/-! ### What a group of holders can claim -/

/-- Assets that `a` of the shares are worth, as an exact rational (`0` on the empty pool). -/
def claim (a : ℤ) : ℚ := a * p.assets / p.shares

/-- Holders are never in debt to the pool. -/
theorem claim_nonneg (ha : 0 ≤ a) : 0 ≤ p.claim a := by
  have hT : (0 : ℚ) ≤ p.assets := by exact_mod_cast p.assets_nonneg
  have hS : (0 : ℚ) ≤ p.shares := by exact_mod_cast p.shares_nonneg
  have ha' : (0 : ℚ) ≤ a := by exact_mod_cast ha
  exact div_nonneg (mul_nonneg ha' hT) hS

/-- All shares together claim all assets, in the empty pool too. -/
theorem claim_shares : p.claim p.shares = p.assets := by
  rcases eq_or_ne p.shares 0 with h | h
  · simp [claim, h, p.assets_eq_zero_iff.2 h]
  · have : (p.shares : ℚ) ≠ 0 := by exact_mod_cast h
    rw [claim, mul_div_right_comm, div_self this, one_mul]

/-- Claims are linear in the shares: what a group claims is what all claim less what the
    others do. -/
theorem claim_sub (a b : ℤ) : p.claim (a - b) = p.claim a - p.claim b := by
  simp only [claim, Int.cast_sub, sub_mul, sub_div]

/-- A claim is worth no less in a pool whose price is no lower. -/
theorem claim_le_claim {q : SharePool} (hq : 0 < q.shares) (ha : 0 ≤ a)
    (h : p.assets * q.shares ≤ q.assets * p.shares) : p.claim a ≤ q.claim a := by
  rcases p.shares_nonneg.eq_or_lt with hS | hS
  · rw [claim, ← hS, Int.cast_zero, div_zero]
    exact q.claim_nonneg ha
  · have hS' : (0 : ℚ) < p.shares := by exact_mod_cast hS
    have hq' : (0 : ℚ) < q.shares := by exact_mod_cast hq
    have h' : (p.assets * q.shares : ℚ) ≤ q.assets * p.shares := by exact_mod_cast h
    have ha' : (0 : ℚ) ≤ a := by exact_mod_cast ha
    rw [claim, claim, div_le_div_iff₀ hS' hq', mul_assoc, mul_assoc]
    exact mul_le_mul_of_nonneg_left h' ha'

/-- The rest of the holders keep their claim, so the depositors gain at most their deposit. -/
theorem claim_deposit_le (hx : 0 ≤ x) (haS : a ≤ p.shares) :
    (p.deposit x hx).claim (a + p.minted x) ≤ p.claim a + x := by
  set q := p.deposit x hx with hq
  rcases q.shares_nonneg.eq_or_lt with hS | hS
  · have hx' : (0 : ℚ) ≤ x := by exact_mod_cast hx
    have hpS : p.shares = 0 := by
      have h1 := p.le_minted hx
      have h2 := p.shares_nonneg
      rw [hq, deposit_shares] at hS
      omega
    rw [claim, ← hS, claim, hpS]
    simpa using hx'
  · have hrest := p.claim_le_claim hS (sub_nonneg.2 haS) (p.cross_le_deposit hx)
    have hsplit : a + p.minted x = q.shares - (p.shares - a) := by
      rw [hq, deposit_shares]; ring
    rw [hsplit, claim_sub, claim_shares, hq, deposit_assets, ← hq]
    rw [claim_sub, claim_shares] at hrest
    push_cast
    linarith

/-- The rest of the holders keep their claim, so what the withdrawers take comes out of
    their own. -/
theorem claim_withdraw_le (hxT : x ≤ p.assets) (haS : a ≤ p.shares) (hba : p.burned x ≤ a) :
    (p.withdraw x hxT).claim (a - p.burned x) + x ≤ p.claim a := by
  set q := p.withdraw x hxT with hq
  have hsplit : a - p.burned x = q.shares - (p.shares - a) := by
    rw [hq, withdraw_shares]; ring
  rcases q.shares_nonneg.eq_or_lt with hS | hS
  · -- the whole pool leaves, and the withdrawers held all of it
    have ha : a = p.shares := by rw [hq, withdraw_shares] at hS; omega
    have hx' : (x : ℚ) ≤ p.assets := by exact_mod_cast hxT
    rw [claim, ← hS, ha, claim_shares, Int.cast_zero, div_zero, zero_add]
    exact hx'
  · have hrest := p.claim_le_claim hS (sub_nonneg.2 haS) (p.cross_le_withdraw hxT)
    rw [hsplit, claim_sub, claim_shares, hq, withdraw_assets, ← hq]
    rw [claim_sub, claim_shares] at hrest
    push_cast
    linarith

/-! ### What rounding costs the mover -/

/-- Put together, two holdings claim what they claimed apart: the exact claim, unlike the rounded
    one, loses nothing. -/
theorem claim_add (a b : ℤ) : p.claim (a + b) = p.claim a + p.claim b := by
  simp only [claim, Int.cast_add, add_mul, add_div]

/-- A claim rounded down. -/
theorem floor_claim (a : ℤ) : ⌊p.claim a⌋ = MulDiv.floor a p.assets p.shares := by
  rcases p.shares_nonneg.eq_or_lt with hS | hS
  · simp [claim, MulDiv.floor, ← hS]
  · exact MulDiv.floor_div_eq a p.assets hS

/-- Rounded down, a claim is worth no less in a pool whose price is no lower either. -/
theorem floor_le_floor {q : SharePool} (ha : 0 ≤ a) (haq : a ≤ q.shares)
    (h : p.assets * q.shares ≤ q.assets * p.shares) :
    MulDiv.floor a p.assets p.shares ≤ MulDiv.floor a q.assets q.shares := by
  rcases q.shares_nonneg.eq_or_lt with hq | hq
  · obtain rfl : a = 0 := by omega
    rw [MulDiv.floor_zero_left, MulDiv.floor_zero_left]
  · rw [← floor_claim, ← floor_claim]
    exact Int.floor_le_floor (p.claim_le_claim hq ha h)

/-- A share is worth at most one asset. -/
theorem assets_div_shares_le_one : (p.assets / p.shares : ℚ) ≤ 1 := by
  have hS : (0 : ℚ) ≤ p.shares := by exact_mod_cast p.shares_nonneg
  have hle : (p.assets : ℚ) ≤ p.shares := by exact_mod_cast p.assets_le_shares
  exact div_le_one_of_le₀ hle hS

/-- The shares minted are worth the assets paid, but for less than one share. -/
theorem lt_claim_minted (hS : 0 < p.shares) : (x : ℚ) - 1 < p.claim (p.minted x) := by
  have hfloor := MulDiv.lt_floor_add_one_mul (x := x) (y := p.shares) (p.assets_pos hS)
  have hone := p.assets_div_shares_le_one
  have hS' : (0 : ℚ) < p.shares := by exact_mod_cast hS
  rw [minted, if_neg hS.ne', claim]
  generalize MulDiv.floor x p.shares p.assets = m at *
  have hlt : (x : ℚ) < (m + 1) * p.assets / p.shares := by
    rw [lt_div_iff₀ hS']
    exact_mod_cast hfloor
  rw [add_mul, one_mul, add_div] at hlt
  linarith

/-- The shares burned are worth the assets taken out, and less than one share more. -/
theorem claim_burned_lt (hS : 0 < p.shares) : p.claim (p.burned x) < x + 1 := by
  have hT := p.assets_pos hS
  have hceil : (p.burned x - 1) * p.assets < x * p.shares := by
    rw [burned, if_neg hS.ne', ← MulDiv.lt_ceil_iff hT]
    exact sub_one_lt _
  have hone := p.assets_div_shares_le_one
  have hS' : (0 : ℚ) < p.shares := by exact_mod_cast hS
  rw [claim]
  generalize p.burned x = m at *
  have hlt : (m - 1) * p.assets / p.shares < (x : ℚ) := by
    rw [div_lt_iff₀ hS']
    exact_mod_cast hceil
  rw [sub_mul, one_mul, sub_div] at hlt
  linarith

/-- **Cost of a deposit.**  The depositors gain their deposit but for less than one asset. -/
theorem lt_claim_deposit (hx : 0 ≤ x) (ha : 0 ≤ a) (haS : a ≤ p.shares) :
    p.claim a + x - 1 < (p.deposit x hx).claim (a + p.minted x) := by
  rcases p.shares_nonneg.eq_or_lt with hS | hS
  · -- on the empty pool the depositors end up with everything
    obtain rfl : a = 0 := by omega
    have hall : 0 + p.minted x = (p.deposit x hx).shares := by rw [deposit_shares, ← hS]
    rw [hall, claim_shares, deposit_assets, p.assets_eq_zero_iff.2 hS.symm, claim,
      Int.cast_zero, zero_mul, zero_div, zero_add, zero_add]
    exact sub_one_lt _
  · have hq : 0 < (p.deposit x hx).shares :=
      lt_of_lt_of_le hS (le_add_of_nonneg_right (hx.trans (p.le_minted hx)))
    have hprice := p.claim_le_claim hq
      (add_nonneg ha (hx.trans (p.le_minted hx))) (p.cross_le_deposit hx)
    have hminted := p.lt_claim_minted hS (x := x)
    rw [claim_add] at hprice
    linarith

/-- **Cost of a withdrawal.**  The withdrawers lose what they take out and less than one
    asset more. -/
theorem lt_claim_withdraw (hx : 0 ≤ x) (hxT : x ≤ p.assets) (haS : a ≤ p.shares)
    (hba : p.burned x ≤ a) :
    p.claim a - x - 1 < (p.withdraw x hxT).claim (a - p.burned x) := by
  have hx' : (0 : ℚ) ≤ x := by exact_mod_cast hx
  have hrest := (p.withdraw x hxT).claim_nonneg (sub_nonneg.2 hba)
  rcases p.shares_nonneg.eq_or_lt with hS | hS
  · rw [claim, ← hS, Int.cast_zero, div_zero]
    linarith
  · rcases (p.withdraw x hxT).shares_nonneg.eq_or_lt with hq | hq
    · -- the whole pool leaves
      have hassets := (p.withdraw x hxT).assets_eq_zero_iff.2 hq.symm
      rw [withdraw_assets, sub_eq_zero] at hassets
      rw [withdraw_shares] at hq
      obtain rfl : a = p.shares := by omega
      rw [claim_shares, hassets]
      linarith
    · have hprice := p.claim_le_claim hq (sub_nonneg.2 hba) (p.cross_le_withdraw hxT)
      have hburned := p.claim_burned_lt hS (x := x)
      rw [claim_sub] at hprice
      linarith

/-- The others gain less than one asset from a deposit: what the depositors lose. -/
theorem claim_deposit_others_lt (hx : 0 ≤ x) (ha : 0 ≤ a) (haS : a ≤ p.shares) :
    (p.deposit x hx).claim a < p.claim a + 1 := by
  have hmover := p.lt_claim_deposit hx (sub_nonneg.2 haS) (sub_le_self _ ha)
  have hrest : p.shares - a + p.minted x = (p.deposit x hx).shares - a := by
    rw [deposit_shares]
    ring
  rw [hrest, claim_sub, claim_sub, claim_shares, claim_shares, deposit_assets] at hmover
  push_cast at hmover
  linarith

/-- Nor do they gain more from a withdrawal. -/
theorem claim_withdraw_others_lt (hx : 0 ≤ x) (hxT : x ≤ p.assets) (ha : 0 ≤ a)
    (hba : a + p.burned x ≤ p.shares) : (p.withdraw x hxT).claim a < p.claim a + 1 := by
  have hmover := p.lt_claim_withdraw hx hxT (sub_le_self _ ha) (le_sub_iff_add_le'.2 hba)
  have hrest : p.shares - a - p.burned x = (p.withdraw x hxT).shares - a := by
    rw [withdraw_shares]
    ring
  rw [hrest, claim_sub, claim_sub, claim_shares, claim_shares, withdraw_assets] at hmover
  push_cast at hmover
  linarith

/-- **Deposits to the asset.**  What `a` shares are worth, rounded down, grows by the deposit or by
    one asset less. -/
theorem floor_deposit (hx : 0 ≤ x) (ha : 0 ≤ a) (haS : a ≤ p.shares) :
    MulDiv.floor (a + p.minted x) (p.deposit x hx).assets (p.deposit x hx).shares =
        MulDiv.floor a p.assets p.shares + x ∨
      MulDiv.floor (a + p.minted x) (p.deposit x hx).assets (p.deposit x hx).shares =
        MulDiv.floor a p.assets p.shares + x - 1 := by
  rw [← floor_claim, ← floor_claim]
  exact MulDiv.floor_eq_or (p.lt_claim_deposit hx ha haS) (p.claim_deposit_le hx haS)

/-- **Withdrawals to the asset.**  What `a` shares are worth, rounded down, shrinks by the
    withdrawal or by one asset more. -/
theorem floor_withdraw (hx : 0 ≤ x) (hxT : x ≤ p.assets) (haS : a ≤ p.shares)
    (hba : p.burned x ≤ a) :
    MulDiv.floor (a - p.burned x) (p.withdraw x hxT).assets (p.withdraw x hxT).shares =
        MulDiv.floor a p.assets p.shares - x ∨
      MulDiv.floor (a - p.burned x) (p.withdraw x hxT).assets (p.withdraw x hxT).shares =
        MulDiv.floor a p.assets p.shares - x - 1 := by
  rw [← floor_claim, ← floor_claim, sub_eq_add_neg _ x]
  have hupper := p.claim_withdraw_le hxT haS hba
  have hlower := p.lt_claim_withdraw hx hxT haS hba
  apply MulDiv.floor_eq_or
  · push_cast
    linarith
  · push_cast
    linarith

/-! ### Movements in pieces -/

/-- More assets never mint fewer shares in the same pool. -/
theorem minted_mono {x' : ℤ} (h : x ≤ x') : p.minted x ≤ p.minted x' := by
  unfold minted
  split
  · exact h
  · next hS => exact MulDiv.floor_mono p.shares_nonneg (p.assets_pos (p.shares_pos_of_ne hS)) h

/-- And more assets never burn fewer. -/
theorem burned_mono {x' : ℤ} (h : x ≤ x') : p.burned x ≤ p.burned x' := by
  unfold burned
  split
  · exact h
  · next hS => exact MulDiv.ceil_mono p.shares_nonneg (p.assets_pos (p.shares_pos_of_ne hS)) h

/-- `q` is `p` after the deposits `xs`, one after the other. -/
inductive Deposits : SharePool → List ℤ → SharePool → Prop
  | nil (p : SharePool) : Deposits p [] p
  | cons {p q : SharePool} {x : ℤ} {xs : List ℤ} (hx : 0 ≤ x)
      (h : Deposits (p.deposit x hx) xs q) : Deposits p (x :: xs) q

/-- `q` is `p` after the withdrawals `xs`, one after the other. -/
inductive Withdrawals : SharePool → List ℤ → SharePool → Prop
  | nil (p : SharePool) : Withdrawals p [] p
  | cons {p q : SharePool} {x : ℤ} {xs : List ℤ} (hxT : x ≤ p.assets)
      (h : Withdrawals (p.withdraw x hxT) xs q) : Withdrawals p (x :: xs) q

section Pieces

variable {p} {q : SharePool} {xs : List ℤ} {c d : ℤ}

/-- The assets grow by the sum of the deposits, exactly: only shares are rounded. -/
theorem Deposits.assets_eq (h : Deposits p xs q) : q.assets = p.assets + xs.sum := by
  induction h with
  | nil p => simp
  | cons hx _ ih => rw [ih, deposit_assets, List.sum_cons, add_assoc]

/-- And they shrink by the sum of the withdrawals. -/
theorem Withdrawals.assets_eq (h : Withdrawals p xs q) : q.assets = p.assets - xs.sum := by
  induction h with
  | nil p => simp
  | cons hxT _ ih => rw [ih, withdraw_assets, List.sum_cons, sub_sub]

/-- Deposits keep the price above any floor that allows the price `1`. -/
theorem Deposits.mul_shares_le (h : Deposits p xs q) (hc : 0 ≤ c) (hcd : c ≤ d)
    (hp : c * p.shares ≤ d * p.assets) : c * q.shares ≤ d * q.assets := by
  induction h with
  | nil p => exact hp
  | cons hx _ ih => exact ih (mul_shares_le_deposit _ hx hc hcd hp)

/-- So do withdrawals. -/
theorem Withdrawals.mul_shares_le (h : Withdrawals p xs q) (hc : 0 ≤ c) (hcd : c ≤ d)
    (hp : c * p.shares ≤ d * p.assets) : c * q.shares ≤ d * q.assets := by
  induction h with
  | nil p => exact hp
  | cons hxT _ ih => exact ih (mul_shares_le_withdraw _ hxT hc hcd hp)

/-- **Deposits in pieces** mint no more than their sum does at once. -/
theorem Deposits.shares_le (h : Deposits p xs q) : q.shares ≤ p.shares + p.minted xs.sum := by
  have hassets := h.assets_eq
  by_cases hS : p.shares = 0
  · -- from the empty pool the price stays at most `1`
    have hfloor := h.mul_shares_le zero_le_one le_rfl (by rw [hS, p.assets_eq_zero_iff.2 hS])
    rw [minted, if_pos hS, hS]
    rw [p.assets_eq_zero_iff.2 hS] at hassets
    omega
  · have hT := p.assets_pos (p.shares_pos_of_ne hS)
    have hfloor := h.mul_shares_le p.assets_nonneg p.assets_le_shares (mul_comm ..).le
    rw [hassets] at hfloor
    rw [minted, if_neg hS, ← sub_le_iff_le_add', MulDiv.le_floor_iff hT]
    linarith

/-- **Withdrawals in pieces** burn no less than their sum does at once. -/
theorem Withdrawals.burned_le (h : Withdrawals p xs q) :
    p.burned xs.sum ≤ p.shares - q.shares := by
  have hassets := h.assets_eq
  by_cases hS : p.shares = 0
  · have hfloor := h.mul_shares_le zero_le_one le_rfl (by rw [hS, p.assets_eq_zero_iff.2 hS])
    rw [burned, if_pos hS, hS]
    rw [p.assets_eq_zero_iff.2 hS] at hassets
    omega
  · have hT := p.assets_pos (p.shares_pos_of_ne hS)
    have hfloor := h.mul_shares_le p.assets_nonneg p.assets_le_shares (mul_comm ..).le
    rw [hassets] at hfloor
    rw [burned, if_neg hS, MulDiv.ceil_le_iff hT]
    linarith

end Pieces

end SharePool
