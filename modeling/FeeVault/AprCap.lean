import FeeVault.TakeRate
import Mathlib.Algebra.Order.BigOperators.Group.List
import Mathlib.Tactic.LinearCombination

namespace FeeVault

/-!
# APR-capped mode — the target rate, and accruing often

The depositors' rate may grow by the cap (`capGrowth`) to an exact target (`exactTarget`), and the
admin takes what the pool's rate grew beyond it.  The code works with an integer target that may
lie on either side: the growth rate is truncated to twelve decimals, which lowers the target by up
to the rate in units of `10¹²`, and the ceiling after it raises the target by less than one
(`aprTarget_eq`).

* `excessOnly_iff` — the fee stays within the exact excess exactly when the ceiling makes up for
  the truncation, or the floor on the fee does;
* `targetShortfall_nonpos_iff` — without the first of the two some vault is overcharged;
* `mul_rest_le` — one accrual leaves the depositors at most the capped growth, one bToken and one
  unit of rate;
* `ReserveVault.aprCap_enforced` — over a chain of accruals these add up and compound.
-/

/-- The growth the cap allows in `elapsed` seconds, exactly. -/
def capGrowth (targetApr elapsed : ℤ) : ℚ :=
  1 + targetApr * elapsed / (scalar7.val * secondsPerYear.val)

/-- The rate the cap allows `elapsed` seconds after `b`, exactly. -/
def exactTarget (b targetApr elapsed : ℤ) : ℚ := b * capGrowth targetApr elapsed

/-- How far the target of the code falls short of the exact one: by what the division by the
    seconds of a year drops, less what the ceiling adds. -/
def targetShortfall (b targetApr elapsed : ℤ) : ℚ :=
  (b * (100000 * targetApr * elapsed % secondsPerYear.val : ℤ) / secondsPerYear.val -
    (-(b * (100000 * targetApr * elapsed / secondsPerYear.val)) % scalar12.val : ℤ)) / scalar12.val

section Formula

variable {T b n targetApr elapsed : ℤ}

/-- The target the code computes is the exact one less the shortfall.  The two roundings on the
    way work in opposite directions, and neither is bounded by the other. -/
theorem aprTarget_eq (b targetApr elapsed : ℤ) :
    (aprTarget b targetApr elapsed : ℚ) =
      exactTarget b targetApr elapsed - targetShortfall b targetApr elapsed := by
  have hceil := MulDiv.ceil_mul_eq b
    (100000 * targetApr * elapsed / secondsPerYear.val + scalar12.val) scalar12.val
  have hdiv := Int.mul_ediv_add_emod (100000 * targetApr * elapsed) secondsPerYear.val
  -- whole multiples of `10¹²` do not change what the ceiling adds
  rw [← aprTarget, mul_add, neg_add, ← neg_mul b scalar12.val, Int.add_mul_emod_self_right] at hceil
  rw [targetShortfall, exactTarget, capGrowth]
  generalize 100000 * targetApr * elapsed % secondsPerYear.val = r at *
  generalize 100000 * targetApr * elapsed / secondsPerYear.val = g at *
  generalize -(b * g) % scalar12.val = c at *
  rw [secondsPerYear_val] at *
  rw [scalar12_val] at *
  rw [scalar7_val]
  have hceil' : (aprTarget b targetApr elapsed : ℚ) * 1000000000000 =
      b * g + b * 1000000000000 + c := by exact_mod_cast hceil
  have hdiv' : (31536000 : ℚ) * g + r = 100000 * targetApr * elapsed := by exact_mod_cast hdiv
  push_cast
  linear_combination hceil' / 1000000000000 + b * hdiv' / (1000000000000 * 31536000)

/-- The target exceeds the exact one by less than one unit of the rate: of its two roundings only
    the ceiling works that way. -/
theorem aprTarget_lt (hb : 0 ≤ b) (targetApr elapsed : ℤ) :
    (aprTarget b targetApr elapsed : ℚ) < exactTarget b targetApr elapsed + 1 := by
  have hY : (0 : ℚ) < secondsPerYear.val := by rw [secondsPerYear_val]; norm_num
  have hK : (0 : ℚ) < scalar12.val := by exact_mod_cast scalar12_pos
  have hdropped : (0 : ℚ) ≤ (100000 * targetApr * elapsed % secondsPerYear.val : ℤ) := by
    exact_mod_cast Int.emod_nonneg _ (by decide)
  have hadded : ((-(b * (100000 * targetApr * elapsed / secondsPerYear.val)) %
      scalar12.val : ℤ) : ℚ) < scalar12.val := by
    exact_mod_cast Int.emod_lt_of_pos _ scalar12_pos
  have hb' : (0 : ℚ) ≤ b := by exact_mod_cast hb
  have hlost := div_nonneg (mul_nonneg hb' hdropped) hY.le
  have hshort : -1 < targetShortfall b targetApr elapsed := by
    rw [targetShortfall, lt_div_iff₀ hK]
    linarith
  rw [aprTarget_eq]
  linarith

/-- A cap never asks the rate to fall. -/
theorem one_le_capGrowth (hA : 0 ≤ targetApr) (hd : 0 ≤ elapsed) :
    1 ≤ capGrowth targetApr elapsed := by
  have hA' : (0 : ℚ) ≤ targetApr := by exact_mod_cast hA
  have hd' : (0 : ℚ) ≤ elapsed := by exact_mod_cast hd
  have hpos : (0 : ℚ) ≤ scalar7.val * secondsPerYear.val := by
    rw [scalar7_val, secondsPerYear_val]
    norm_num
  rw [capGrowth]
  linarith [div_nonneg (mul_nonneg hA' hd') hpos]

/-! ### Which vaults are overcharged -/

/-- The fee `fee` on `T` bTokens whose rate went from `b` to `n` is charged on the
    excess over the cap only. -/
structure ExcessOnly (T b n targetApr elapsed fee : ℤ) : Prop where
  /-- Up to the target there is none. -/
  eq_zero : (n : ℚ) ≤ exactTarget b targetApr elapsed → fee = 0
  /-- Beyond it the fee is at most the excess, in bTokens. -/
  le_excess : exactTarget b targetApr elapsed < n →
    (fee : ℚ) ≤ T * (n - exactTarget b targetApr elapsed) / n

/-- The roundings work out for the depositors: the ceiling on the target makes up for the truncated
    growth rate, or what the shortfall overcharges is a fraction of a bToken that the floor on the
    fee drops again.  The first case is a special one of the second; it is named because it rests on
    the rate, the cap and the time alone, so it protects vaults of every size
    (`targetShortfall_nonpos_iff`). -/
def CapRoundsDown (T b n targetApr elapsed : ℤ) : Prop :=
  let shortfall := targetShortfall b targetApr elapsed
  let grown := n - exactTarget b targetApr elapsed + shortfall
  shortfall ≤ 0 ∨ T * min shortfall grown / n ≤ Int.fract (T * grown / n)

/-- The growth beyond the target of the code, as the fee formula charges it. -/
theorem sub_aprTarget (b n targetApr elapsed : ℤ) :
    ((n - aprTarget b targetApr elapsed : ℤ) : ℚ) =
      n - exactTarget b targetApr elapsed + targetShortfall b targetApr elapsed := by
  push_cast
  rw [aprTarget_eq]
  ring

/-- A charge `⌊T · grown / n⌋` on what is left of `grown` after `σ` is off by `σ`, or by all of
    `grown`, unless the floor drops as much. -/
theorem floor_charge_iff {T n grown σ : ℚ} {fee : ℤ} (hT : 0 ≤ T) (hn : 0 < n)
    (hnone : grown ≤ 0 → fee = 0) (hfloor : 0 < grown → fee = ⌊T * grown / n⌋) :
    ((grown ≤ σ → fee = 0) ∧ (σ < grown → (fee : ℚ) ≤ T * (grown - σ) / n)) ↔
      T * min σ grown / n ≤ Int.fract (T * grown / n) := by
  have hfract := Int.fract_nonneg (T * grown / n)
  rcases le_or_gt grown 0 with hneg | hpos
  · -- nothing is charged, and nothing would have to be dropped
    have hmin : T * min σ grown / n ≤ 0 :=
      div_nonpos_of_nonpos_of_nonneg
        (mul_nonpos_of_nonneg_of_nonpos hT ((min_le_right σ grown).trans hneg)) hn.le
    rw [hnone hneg]
    refine iff_of_true ⟨fun _ => rfl, fun hlt => ?_⟩ (hmin.trans hfract)
    rw [Int.cast_zero]
    exact div_nonneg (mul_nonneg hT (sub_nonneg.2 hlt.le)) hn.le
  · have hval : (fee : ℚ) = T * grown / n - Int.fract (T * grown / n) := by
      rw [hfloor hpos, Int.self_sub_fract]
    rcases le_or_gt grown σ with hle | hlt
    · have hfee : 0 ≤ fee := by
        rw [hfloor hpos]
        exact Int.floor_nonneg.2 (div_nonneg (mul_nonneg hT hpos.le) hn.le)
      rw [min_eq_right hle]
      constructor
      · rintro ⟨hzero, -⟩
        rw [hzero hle, Int.cast_zero] at hval
        linarith
      · intro h
        have hfee' : (fee : ℚ) ≤ 0 := by linarith
        exact ⟨fun _ => le_antisymm (by exact_mod_cast hfee') hfee,
          fun h => absurd h (not_lt.2 hle)⟩
    · rw [min_eq_left hlt.le, hval, mul_sub, sub_div]
      constructor
      · rintro ⟨-, hexcess⟩
        linarith [hexcess hlt]
      · intro h
        exact ⟨fun h => absurd h (not_le.2 hlt), fun _ => by linarith⟩

/-- **Rounding of the capped fee.**  It stays within the exact excess precisely when the division
    by the rate drops as much as the shortfall of the target adds. -/
theorem excessOnly_iff (hT : 0 ≤ T) (hn : 0 < n) :
    ExcessOnly T b n targetApr elapsed (aprCappedFee T b n targetApr elapsed) ↔
      CapRoundsDown T b n targetApr elapsed := by
  have hT' : (0 : ℚ) ≤ T := by exact_mod_cast hT
  have hn' : (0 : ℚ) < n := by exact_mod_cast hn
  have hgrown := sub_aprTarget b n targetApr elapsed
  have hfloor := MulDiv.floor_div_eq T (n - aprTarget b targetApr elapsed) hn
  rw [hgrown] at hfloor
  rw [CapRoundsDown]
  generalize hσ : targetShortfall b targetApr elapsed = σ at *
  generalize hE : exactTarget b targetApr elapsed = E at *
  have hbelow : (n : ℚ) - E + σ ≤ 0 ↔ n ≤ aprTarget b targetApr elapsed := by
    rw [← hgrown, Int.cast_nonpos, sub_nonpos]
  have hnone : (n : ℚ) - E + σ ≤ 0 → aprCappedFee T b n targetApr elapsed = 0 :=
    fun h => if_pos (hbelow.1 h)
  have hcharged : 0 < (n : ℚ) - E + σ →
      aprCappedFee T b n targetApr elapsed = ⌊T * (n - E + σ) / n⌋ :=
    fun h => (if_neg (mt hbelow.2 (not_le.2 h))).trans hfloor.symm
  have hcharge := floor_charge_iff (σ := σ) hT' hn' hnone hcharged
  rw [add_le_iff_nonpos_left, sub_nonpos, lt_add_iff_pos_left, sub_pos, add_sub_cancel_right]
    at hcharge
  have hexcess : ExcessOnly T b n targetApr elapsed (aprCappedFee T b n targetApr elapsed) ↔
      ((n : ℚ) ≤ E → aprCappedFee T b n targetApr elapsed = 0) ∧
        (E < n → (aprCappedFee T b n targetApr elapsed : ℚ) ≤ T * (n - E) / n) := by
    rw [← hE]
    exact ⟨fun h => ⟨h.eq_zero, h.le_excess⟩, fun h => ⟨h.1, h.2⟩⟩
  rw [hexcess, hcharge]
  -- a target that does not fall short needs no help from the floor
  refine ⟨Or.inr, fun h => h.elim (fun hσ0 => ?_) id⟩
  refine le_trans ?_ (Int.fract_nonneg _)
  exact div_nonpos_of_nonpos_of_nonneg
    (mul_nonpos_of_nonneg_of_nonpos hT' ((min_le_left σ _).trans hσ0)) hn'.le

/-- **The kind of the overcharged.**  Where the target falls short, a vault of as many bTokens as
    the first rate beyond the target is charged one too many; where it does not, no vault is. -/
theorem targetShortfall_nonpos_iff (hb : 0 < b) (hA : 0 ≤ targetApr) (hd : 0 ≤ elapsed) :
    targetShortfall b targetApr elapsed ≤ 0 ↔ ∀ T n, 0 ≤ T → b < n →
      ExcessOnly T b n targetApr elapsed (aprCappedFee T b n targetApr elapsed) := by
  constructor
  · intro hσ T n hT hbn
    exact (excessOnly_iff hT (hb.trans hbn)).2 (Or.inl hσ)
  · intro h
    have hbn := Int.lt_add_one_of_le (le_aprTarget hb hA hd)
    have hn := hb.trans hbn
    have hone := h (aprTarget b targetApr elapsed + 1) _ hn.le hbn
    have htarget := aprTarget_eq b targetApr elapsed
    have hfee : aprCappedFee (aprTarget b targetApr elapsed + 1) b
        (aprTarget b targetApr elapsed + 1) targetApr elapsed = 1 := by
      rw [aprCappedFee, if_neg (by omega), add_sub_cancel_left, MulDiv.floor, mul_one,
        Int.ediv_self hn.ne']
    rw [hfee] at hone
    generalize aprTarget b targetApr elapsed = t at *
    have hn' : ((t + 1 : ℤ) : ℚ) ≠ 0 := by exact_mod_cast hn.ne'
    by_contra hσ
    rcases le_or_gt ((t + 1 : ℤ) : ℚ) (exactTarget b targetApr elapsed) with hle | hlt
    · exact absurd (hone.eq_zero hle) one_ne_zero
    · have hexcess := hone.le_excess hlt
      rw [mul_div_cancel_left₀ _ hn'] at hexcess
      push_cast at hexcess
      linarith

/-! ### One accrual -/

/-- The fee never exceeds the depositors' bTokens, however tight the cap, since the target of the
    code is not negative. -/
theorem aprCappedFee_le (hT : 0 ≤ T) (hb : 0 < b) (hbn : b < n) (hA : 0 ≤ targetApr)
    (hd : 0 ≤ elapsed) : aprCappedFee T b n targetApr elapsed ≤ T := by
  have hn : 0 < n := hb.trans hbn
  refine le_of_mul_le_mul_left ?_ hn
  calc n * aprCappedFee T b n targetApr elapsed
      ≤ T * (n - b) := mul_aprCappedFee_le hT hb hbn hA hd
    _ ≤ T * n := mul_le_mul_of_nonneg_left (sub_le_self n hb.le) hT
    _ = n * T := mul_comm ..

/-- What the fee leaves is worth at most the target of the code, and one unit of rate
    for the floor on the fee. -/
theorem mul_sub_aprCappedFee_le (hT : 0 ≤ T) (hn : 0 < n) :
    n * (T - aprCappedFee T b n targetApr elapsed) ≤
      T * aprTarget b targetApr elapsed + n := by
  unfold aprCappedFee
  split
  · next h =>
    rw [sub_zero, mul_comm]
    exact le_add_of_le_of_nonneg (mul_le_mul_of_nonneg_left h hT) hn.le
  · have hfloor := MulDiv.lt_floor_add_one_mul (x := T)
      (y := n - aprTarget b targetApr elapsed) hn
    linarith

/-- **Capped growth.**  The target exceeds the exact one by less than one, so the depositors keep at
    most the capped growth, one unit of underlying for each bToken and one unit of rate. -/
theorem mul_rest_le (hT : 0 ≤ T) (hb : 0 < b) (hn : 0 < n) :
    (n * (T - aprCappedFee T b n targetApr elapsed) : ℚ) ≤
      b * T * capGrowth targetApr elapsed + (T + n) := by
  have hrest : (n * (T - aprCappedFee T b n targetApr elapsed) : ℚ) ≤
      T * aprTarget b targetApr elapsed + n := by exact_mod_cast mul_sub_aprCappedFee_le hT hn
  have hT' : (0 : ℚ) ≤ T := by exact_mod_cast hT
  have htarget := mul_le_mul_of_nonneg_left
    (aprTarget_lt hb.le targetApr elapsed).le hT'
  rw [exactTarget] at htarget
  linarith

end Formula

variable {Address : Type} [FixedPoint]

namespace ReserveVault

variable {e : Env Address} {es : List (Env Address)} {fm : FeeMode} {v v₁ w : ReserveVault Address}

/-- **The capped fee.**  At a rate that rose, `updateRate` charges the excess over the cap only,
    exactly when the roundings work out for the depositors. -/
theorem updateRate_excessOnly_iff (hfm : fm.Valid) (hcap : fm.isAprCapped = true)
    (hb : 0 < v.bRate.val) (hT : 0 ≤ v.totalBTokens.val) (hlt : v.bRate.val < e.bRate v.address)
    (h : v.updateRate e fm = .ok w) :
    ExcessOnly v.totalBTokens v.bRate (e.bRate v.address) fm.value
        (e.timestamp.toNat - v.lastUpdateTimestamp.toNat) (w.accruedFees.val - v.accruedFees) ↔
      CapRoundsDown v.totalBTokens v.bRate (e.bRate v.address) fm.value
        (e.timestamp.toNat - v.lastUpdateTimestamp.toNat) := by
  obtain ⟨hacc, -⟩ := updateRate_feeTaken hb hT hfm.1 h
  rw [hacc.accruedFees, add_sub_cancel_left, feeTaken, if_neg (not_le.2 hlt), if_pos hcap]
  exact excessOnly_iff hT (hb.trans hlt)

end ReserveVault

/-- A vault of a thousand tokens of seven decimals at a rate of one. -/
def Demo.cappedVault : ReserveVault ℕ where
  address := 7
  bRate := scalar12
  lastUpdateTimestamp := 100
  totalShares := I128.ofUInt64 12000000000
  totalBTokens := I128.ofUInt64 10000000000
  accruedFees := 0

/-- That vault after a growth of 5% within three months, at a cap of 5% a year. -/
def Demo.cappedVault' : ReserveVault ℕ where
  address := 7
  bRate := I128.ofUInt64 1050000000000
  lastUpdateTimestamp := 7884100
  totalShares := I128.ofUInt64 12000000000
  totalBTokens := I128.ofUInt64 9642857143
  accruedFees := I128.ofUInt64 357142857

omit [FixedPoint] in
/-- A quarter of a year is a whole number of growth rate units, so nothing is dropped. -/
theorem updateRate_excessOnly_demo :
    ExcessOnly 10000000000 1000000000000 1050000000000 500000 7884000 357142857 := by
  refine (@ReserveVault.updateRate_excessOnly_iff ℕ FixedPoint.reference
    (Demo.env 7884100 (I128.ofUInt64 1050000000000) 0) ⟨true, I128.ofUInt64 500000⟩
    Demo.cappedVault Demo.cappedVault' (by decide) rfl (by decide) (by decide) (by decide)
    (by decide)).2 (Or.inl ?_)
  show targetShortfall 1000000000000 500000 7884000 ≤ 0
  rw [targetShortfall, secondsPerYear_val, scalar12_val]
  norm_num

/-- A vault of 1.6 million tokens of seven decimals at a rate of 1.5. -/
def Demo.largeVault : ReserveVault ℕ where
  address := 7
  bRate := I128.ofUInt64 1500000000000
  lastUpdateTimestamp := 100
  totalShares := I128.ofUInt64 16000000000000
  totalBTokens := I128.ofUInt64 16000000000000
  accruedFees := 0

/-- That vault five seconds later, at the first rate beyond the target for a cap of 1%. -/
def Demo.overchargedVault : ReserveVault ℕ where
  address := 7
  bRate := I128.ofUInt64 1500000002379
  lastUpdateTimestamp := 105
  totalShares := I128.ofUInt64 16000000000000
  totalBTokens := I128.ofUInt64 15999999999990
  accruedFees := I128.ofUInt64 10

omit [FixedPoint] in
/-- At a cap of 1% the rate may grow by `2378.234…` from 1.5 in five seconds; at a growth of `2379`
    the admin takes ten bTokens where the excess is worth `8.1…`. -/
theorem updateRate_overcharges : ¬ ∀ (v w : ReserveVault ℕ) (e : Env ℕ) (fm : FeeMode),
    fm.Valid → fm.isAprCapped = true → 0 < v.bRate.val → 0 ≤ v.totalBTokens.val →
    v.bRate.val < e.bRate v.address →
    @ReserveVault.updateRate ℕ FixedPoint.reference e fm v = .ok w →
    ExcessOnly v.totalBTokens v.bRate (e.bRate v.address) fm.value
      (e.timestamp.toNat - v.lastUpdateTimestamp.toNat) (w.accruedFees.val - v.accruedFees) := by
  intro hclaim
  have h : ExcessOnly 16000000000000 1500000000000 1500000002379 100000 5 10 :=
    hclaim Demo.largeVault Demo.overchargedVault
      (Demo.env 105 (I128.ofUInt64 1500000002379) 0) ⟨true, I128.ofUInt64 100000⟩
      (by decide) rfl (by decide) (by decide) (by decide) (by decide)
  have htarget : exactTarget 1500000000000 100000 5 = 1500000000000 + 1562500 / 657 := by
    rw [exactTarget, capGrowth, scalar7_val, secondsPerYear_val]
    norm_num
  have hexcess := h.le_excess (by rw [htarget]; norm_num)
  rw [htarget] at hexcess
  norm_num at hexcess

/-! ### Chains of accruals -/

/-- The seconds between the accruals of a chain, the first of them counted from `last`. -/
def gaps (last : UInt64) : List (Env Address) → List ℤ
  | [] => []
  | e :: es => (e.timestamp.toNat - last.toNat) :: gaps e.timestamp es

/-- The growth the cap allows over the whole chain, compounded at each accrual. -/
def compounded (targetApr : I128) (last : UInt64) (es : List (Env Address)) : ℚ :=
  ((gaps last es).map (capGrowth targetApr)).prod

/-- What rounding may add over the chain: a unit of underlying for each of `T` bTokens, and a unit
    of rate, at each accrual. -/
def roundingGain (T : ℤ) (r : Address) (es : List (Env Address)) : ℚ :=
  (es.map fun e => (T + (e.bRate r).val : ℚ)).sum

section Chain

variable {A : I128} {last : UInt64} {T : ℤ} {r : Address} {e : Env Address}
  {es : List (Env Address)}

omit [FixedPoint]

@[simp] theorem compounded_nil : compounded A last ([] : List (Env Address)) = 1 := rfl

@[simp] theorem compounded_cons : compounded A last (e :: es) =
    capGrowth A (e.timestamp.toNat - last.toNat) * compounded A e.timestamp es := List.prod_cons

@[simp] theorem roundingGain_nil : roundingGain T r [] = 0 := rfl

@[simp] theorem roundingGain_cons :
    roundingGain T r (e :: es) = T + (e.bRate r).val + roundingGain T r es := List.sum_cons

/-- What rounding adds to the cap is an allowance, so a longer chain is allowed no less. -/
theorem roundingGain_nonneg (hT : 0 ≤ T) (hrates : ∀ e ∈ es, 0 < (e.bRate r).val) :
    0 ≤ roundingGain T r es := by
  have hT' : (0 : ℚ) ≤ T := by exact_mod_cast hT
  refine List.sum_nonneg fun x hx => ?_
  obtain ⟨e, he, rfl⟩ := List.mem_map.1 hx
  have : (0 : ℚ) < (e.bRate r).val := by exact_mod_cast hrates e he
  linarith

/-- The growth that a chain of accruals is allowed is not negative when time does not go back. -/
theorem compounded_nonneg (hA : 0 ≤ A.val)
    (htimes : (last :: es.map Env.timestamp).Pairwise (· ≤ ·)) : 0 ≤ compounded A last es := by
  induction es generalizing last with
  | nil => exact zero_le_one
  | cons e es ih =>
    have hd := UInt64.toNat_sub_nonneg (List.rel_of_pairwise_cons htimes List.mem_cons_self)
    rw [compounded_cons]
    exact mul_nonneg (zero_le_one.trans (one_le_capGrowth hA hd)) (ih htimes.of_cons)

end Chain

namespace ReserveVault

variable {e : Env Address} {es : List (Env Address)} {fm : FeeMode} {v v₁ w : ReserveVault Address}

/-- **One accrual** in APR-capped mode, whether or not the rate rose: the depositors' value is at
    most the old one grown at the cap, but for one bToken at the new rate and one unit of the
    rate on each bToken, which rounding may leave them. -/
theorem updateRate_aprCapped (hfm : fm.Valid) (hcap : fm.isAprCapped = true)
    (hb : 0 < v.bRate.val) (hT : 0 ≤ v.totalBTokens.val) (hrate : 0 < (e.bRate v.address).val)
    (htime : v.lastUpdateTimestamp ≤ e.timestamp) (h : v.updateRate e fm = .ok w) :
    ∃ fee, Accrual e v w fee ∧ fee ≤ v.totalBTokens ∧
      (w.bRate.val * w.totalBTokens.val : ℚ) ≤
        v.bRate.val * v.totalBTokens.val *
            capGrowth fm.value (e.timestamp.toNat - v.lastUpdateTimestamp.toNat) +
          (v.totalBTokens.val + w.bRate.val) := by
  obtain ⟨hacc, -⟩ := updateRate_feeTaken hb hT hfm.1 h
  have hd := UInt64.toNat_sub_nonneg htime
  refine ⟨_, hacc, ?_⟩
  have hvalue : (w.totalBTokens.val : ℚ) = v.totalBTokens.val - feeTaken e fm v := by
    exact_mod_cast hacc.totalBTokens
  rw [hvalue, hacc.bRate, feeTaken]
  split
  · next hle =>
    -- without a rise the value does not rise either
    have hb' : (0 : ℚ) < v.bRate.val := by exact_mod_cast hb
    have hT' : (0 : ℚ) ≤ v.totalBTokens.val := by exact_mod_cast hT
    have hn : (0 : ℚ) < (e.bRate v.address).val := by exact_mod_cast hrate
    have hle' : ((e.bRate v.address).val : ℚ) ≤ v.bRate.val := by exact_mod_cast hle
    have hfall := mul_le_mul_of_nonneg_right hle' hT'
    have hgrow := le_mul_of_one_le_right (mul_nonneg hb'.le hT') (one_le_capGrowth hfm.1 hd)
    refine ⟨hT, ?_⟩
    rw [Int.cast_zero, sub_zero]
    linarith
  · next hgt =>
    have hlt := not_le.1 hgt
    exact ⟨aprCappedFee_le hT hb hlt hfm.1 hd, mul_rest_le hT hb hrate⟩

/-- What a chain of accruals in APR-capped mode does to the vault, `T` being no less than the
    bTokens it starts with. -/
structure AprCapChain (targetApr : I128) (T : ℤ) (es : List (Env Address))
    (v w : ReserveVault Address) : Prop where
  /-- What the depositors lose are the fees. -/
  owed : w.totalBTokens.val + (w.accruedFees.val - v.accruedFees) = v.totalBTokens
  /-- What they keep, at the pool's last rate, has grown by the cap at most, apart from the
      rounding. -/
  value_le : ((lastRate v.address v.bRate es).val * w.totalBTokens.val : ℚ) ≤
    (v.bRate.val * v.totalBTokens.val + roundingGain T v.address es) *
      compounded targetApr v.lastUpdateTimestamp es

omit [FixedPoint] in
/-- The first accrual put before the rest of the chain: what rounding adds at it grows with the
    accruals after it. -/
theorem AprCapChain.cons {A : I128} {T fee : ℤ} (hA : 0 ≤ A.val) (hT : 0 ≤ T)
    (hTT : v.totalBTokens.val ≤ T) (hrates : ∀ e' ∈ e :: es, 0 < (e'.bRate v.address).val)
    (htimes : (v.lastUpdateTimestamp :: (e :: es).map Env.timestamp).Pairwise (· ≤ ·))
    (hacc : Accrual e v v₁ fee)
    (hvalue : (v₁.bRate.val * v₁.totalBTokens.val : ℚ) ≤
      v.bRate.val * v.totalBTokens.val *
          capGrowth A (e.timestamp.toNat - v.lastUpdateTimestamp.toNat) +
        (v.totalBTokens.val + v₁.bRate.val))
    (hchain : AprCapChain A T es v₁ w) : AprCapChain A T (e :: es) v w := by
  have hlast := hchain.value_le
  rw [hacc.address, hacc.lastUpdateTimestamp, hacc.bRate, ← lastRate_cons v.address v.bRate]
    at hlast
  have hgrow := one_le_capGrowth hA
    (UInt64.toNat_sub_nonneg (List.rel_of_pairwise_cons htimes List.mem_cons_self))
  have hrest := compounded_nonneg hA htimes.of_cons
  have hT' : (0 : ℚ) ≤ T := by exact_mod_cast hT
  have hTT' : (v.totalBTokens.val : ℚ) ≤ T := by exact_mod_cast hTT
  have hrate : (0 : ℚ) < (e.bRate v.address).val := by
    exact_mod_cast hrates e List.mem_cons_self
  have hgain := roundingGain_nonneg hT fun e' he => hrates e' (List.mem_cons_of_mem _ he)
  constructor
  · have := hchain.owed
    have := hacc.totalBTokens
    have := hacc.accruedFees
    omega
  · refine hlast.trans ?_
    rw [roundingGain_cons, compounded_cons, ← mul_assoc]
    refine mul_le_mul_of_nonneg_right ?_ hrest
    have hscaled := le_mul_of_one_le_right (add_nonneg (add_nonneg hT' hrate.le) hgain) hgrow
    rw [hacc.bRate] at hvalue
    linarith

/-- **Chain.**  By induction from the front: the rest of the chain starts from the first accrual's
    vault, at its time and rate. -/
theorem accrueChain_aprCapped {T : ℤ} (hfm : fm.Valid) (hcap : fm.isAprCapped = true)
    (hb : 0 < v.bRate.val) (hT : 0 ≤ v.totalBTokens.val) (hTT : v.totalBTokens.val ≤ T)
    (hrates : ∀ e ∈ es, 0 < (e.bRate v.address).val)
    (htimes : (v.lastUpdateTimestamp :: es.map Env.timestamp).Pairwise (· ≤ ·))
    (h : accrueChain fm es v = .ok w) : AprCapChain fm.value T es v w := by
  induction es generalizing v with
  | nil =>
    obtain rfl := Except.ok.inj h
    exact ⟨by ring, by simp⟩
  | cons e es ih =>
    rw [accrueChain, List.foldlM_cons, bind_eq_ok] at h
    obtain ⟨v₁, h₁, h⟩ := h
    have hrate := hrates e List.mem_cons_self
    obtain ⟨fee, hacc, hfee, hvalue⟩ := updateRate_aprCapped hfm hcap hb hT hrate
      (List.rel_of_pairwise_cons htimes List.mem_cons_self) h₁
    have hfee0 := hacc.fee_nonneg
    have hT₁ := hacc.totalBTokens
    have hrates₁ : ∀ e ∈ es, 0 < (e.bRate v₁.address).val := by
      rw [hacc.address]
      exact fun e he => hrates e (List.mem_cons_of_mem _ he)
    have htimes₁ : (v₁.lastUpdateTimestamp :: es.map Env.timestamp).Pairwise (· ≤ ·) := by
      rw [hacc.lastUpdateTimestamp]
      exact htimes.of_cons
    have hchain := ih (hacc.bRate ▸ hrate) (by omega) (by omega) hrates₁ htimes₁ h
    exact .cons hfm.1 (hT.trans hTT) hTT hrates htimes hacc hvalue hchain

/-- **The cap over any schedule.**  However often and at whatever rates interest is accrued, the
    depositors do not outgrow the compounded cap by more than the rounding. -/
theorem aprCap_enforced (hfm : fm.Valid) (hcap : fm.isAprCapped = true) (hb : 0 < v.bRate.val)
    (hT : 0 ≤ v.totalBTokens.val) (hrates : ∀ e ∈ es, 0 < (e.bRate v.address).val)
    (htimes : (v.lastUpdateTimestamp :: es.map Env.timestamp).Pairwise (· ≤ ·))
    (h : accrueChain fm es v = .ok w) : AprCapChain fm.value v.totalBTokens es v w :=
  accrueChain_aprCapped hfm hcap hb hT le_rfl hrates htimes h

end ReserveVault

/-- Three accruals of the capped vault: beyond the cap, at a rate that fell, and below the cap. -/
def Demo.cappedEnvs : List (Env ℕ) :=
  [env 7884100 (I128.ofUInt64 1050000000000) 0, env 7884200 (I128.ofUInt64 1040000000000) 0,
   env 20000000 (I128.ofUInt64 1041000000000) 0]

omit [FixedPoint] in
/-- The first of the three is the only one that charges a fee. -/
theorem aprCap_enforced_demo :
    ReserveVault.AprCapChain (I128.ofUInt64 500000) 10000000000 Demo.cappedEnvs Demo.cappedVault
      { Demo.cappedVault' with
        bRate := I128.ofUInt64 1041000000000
        lastUpdateTimestamp := 20000000 } :=
  @ReserveVault.aprCap_enforced ℕ FixedPoint.reference Demo.cappedEnvs
    ⟨true, I128.ofUInt64 500000⟩ Demo.cappedVault _ (by decide) rfl (by decide) (by decide)
    (by decide) (by decide) (by decide)

end FeeVault
