import FeeVault.Accrual
import FeeVault.Contract
import Mathlib.Algebra.Order.Field.Basic
import Mathlib.Algebra.Order.Field.Rat
import Mathlib.Tactic.FieldSimp

namespace FeeVault

/-!
# Take-rate mode — rounding, and accruing often

The fee of one accrual is three nested floors of the exact share of the interest
(`exactTakeRateFee`): at most that share, and less than three bTokens below it
(`takeRateFee_le_exact`, `exact_sub_three_le_takeRateFee`).

Anyone can split one accrual into many.  Splitting keeps less for the depositors apart from the
rounding, because the shares they retain multiply (`retained_mul_le`), so over a chain of `n`
accruals the admin loses less than `3·n` bTokens (`accrueChain_takeRate`).
-/

/-- The exact take-rate fee on `T` bTokens whose rate went from `b` to `n`. -/
def exactTakeRateFee (T b n takeRate : ℤ) : ℚ := T * (n - b) * takeRate / (scalar7 * n)

section Formula

variable {T b n takeRate : ℤ}

/-- The fee of the code is at most the exact one: it is a floor of a floor of a floor, and each
    is below what it rounds. -/
theorem takeRateFee_le_exact (hn : 0 < n) (hR : 0 ≤ takeRate) :
    (takeRateFee T b n takeRate : ℚ) ≤ exactTakeRateFee T b n takeRate := by
  have hint := MulDiv.floor_mul_le (x := T) (y := n - b) scalar12_pos
  have hpart := MulDiv.floor_mul_le (x := MulDiv.floor T (n - b) scalar12) (y := takeRate)
    scalar7_pos
  have hfee := MulDiv.floor_mul_le (y := scalar12.val) hn
    (x := MulDiv.floor (MulDiv.floor T (n - b) scalar12) takeRate scalar7)
  rw [← takeRateFee] at hfee
  have hprod : takeRateFee T b n takeRate * (scalar7.val * n) ≤ T * (n - b) * takeRate :=
    calc takeRateFee T b n takeRate * (scalar7.val * n)
        = takeRateFee T b n takeRate * n * scalar7.val := by ring
      _ ≤ MulDiv.floor (MulDiv.floor T (n - b) scalar12) takeRate scalar7 * scalar12 *
            scalar7.val := mul_le_mul_of_nonneg_right hfee scalar7_pos.le
      _ = MulDiv.floor (MulDiv.floor T (n - b) scalar12) takeRate scalar7 * scalar7.val *
            scalar12.val := by ring
      _ ≤ MulDiv.floor T (n - b) scalar12 * takeRate * scalar12.val :=
          mul_le_mul_of_nonneg_right hpart scalar12_pos.le
      _ = MulDiv.floor T (n - b) scalar12 * scalar12.val * takeRate := by ring
      _ ≤ T * (n - b) * takeRate := mul_le_mul_of_nonneg_right hint hR
  have hpos : (0 : ℚ) < scalar7.val * n := by
    exact_mod_cast mul_pos scalar7_pos hn
  rw [exactTakeRateFee, le_div_iff₀ hpos]
  exact_mod_cast hprod

/-- From a rate of one on, the three floors lose less than one bToken each: every later stage
    scales the loss of an earlier one down. -/
theorem exact_sub_three_le_takeRateFee (hn : scalar12.val ≤ n) (hR : 0 ≤ takeRate)
    (hR1 : takeRate ≤ scalar7) :
    exactTakeRateFee T b n takeRate - 3 ≤ takeRateFee T b n takeRate := by
  have hK : 0 < scalar12.val := scalar12_pos
  have hn0 : 0 < n := lt_of_lt_of_le hK hn
  have hint := MulDiv.lt_floor_add_one_mul (x := T) (y := n - b) hK
  have hpart := MulDiv.lt_floor_add_one_mul (x := MulDiv.floor T (n - b) scalar12)
    (y := takeRate) scalar7_pos
  have hfee := MulDiv.lt_floor_add_one_mul (y := scalar12.val) hn0
    (x := MulDiv.floor (MulDiv.floor T (n - b) scalar12) takeRate scalar7)
  rw [← takeRateFee] at hfee
  generalize MulDiv.floor T (n - b) scalar12 = i at *
  generalize MulDiv.floor i takeRate scalar7 = p at *
  generalize takeRateFee T b n takeRate = f at *
  rw [scalar12_val] at *
  rw [scalar7_val] at *
  have hprod : T * (n - b) * takeRate ≤ (f + 3) * (10000000 * n) :=
    calc T * (n - b) * takeRate
        ≤ (i + 1) * 1000000000000 * takeRate := mul_le_mul_of_nonneg_right hint.le hR
      _ = i * takeRate * 1000000000000 + takeRate * 1000000000000 := by ring
      _ ≤ (p + 1) * 10000000 * 1000000000000 + 10000000 * n := by
          have h1 := mul_le_mul_of_nonneg_right hpart.le (show (0 : ℤ) ≤ 1000000000000 by decide)
          have h2 := mul_le_mul hR1 hn (by decide) (by decide)
          linarith
      _ = p * 1000000000000 * 10000000 + 1000000000000 * 10000000 + 10000000 * n := by ring
      _ ≤ (f + 1) * n * 10000000 + 10000000 * n + 10000000 * n := by linarith
      _ = (f + 3) * (10000000 * n) := by ring
  have hpos : (0 : ℚ) < 10000000 * n := by
    exact_mod_cast mul_pos (show (0 : ℤ) < 10000000 by decide) hn0
  rw [exactTakeRateFee, scalar7_val, sub_le_iff_le_add, Int.cast_ofNat, div_le_iff₀ hpos]
  exact_mod_cast hprod

end Formula

/-! ### Retained shares -/

/-- The part of their bTokens that depositors retain, exactly, when a part `ρ` of the interest is
    taken on a rise from `b` to `n`. -/
def retained (ρ b n : ℚ) : ℚ := 1 - ρ * (1 - b / n)

section Retained

variable {ρ b m n : ℚ}

/-- The part retained is not negative, as long as no more than the interest is taken at a rate
    that does not fall, … -/
theorem retained_nonneg (hρ1 : ρ ≤ 1) (hb : 0 < b) (hbn : b ≤ n) :
    0 ≤ retained ρ b n := by
  have hq : 0 ≤ b / n := div_nonneg hb.le (hb.le.trans hbn)
  have : ρ * (1 - b / n) ≤ 1 * 1 := by
    refine mul_le_mul hρ1 (by linarith) ?_ zero_le_one
    rw [sub_nonneg, div_le_one (hb.trans_le hbn)]
    exact hbn
  rw [retained]
  linarith

/-- … and is at most all of it. -/
theorem retained_le_one (hρ : 0 ≤ ρ) (hb : 0 < b) (hbn : b ≤ n) : retained ρ b n ≤ 1 := by
  have hq : b / n ≤ 1 := (div_le_one (hb.trans_le hbn)).2 hbn
  rw [retained]
  linarith [mul_nonneg hρ (sub_nonneg.2 hq)]

/-- **Splitting.**  Two accruals in a row retain no more than one over both rises. -/
theorem retained_mul_le (hρ : 0 ≤ ρ) (hρ1 : ρ ≤ 1) (hb : 0 < b) (hbm : b ≤ m) (hmn : m ≤ n) :
    retained ρ b m * retained ρ m n ≤ retained ρ b n := by
  have hm := hb.trans_le hbm
  have hn := hm.trans_le hmn
  have hx : b / m ≤ 1 := (div_le_one hm).2 hbm
  have hy : m / n ≤ 1 := (div_le_one hn).2 hmn
  have hxy : b / n = b / m * (m / n) := by field_simp
  -- the difference is `ρ (1 - ρ) (1 - b/m) (1 - m/n)`
  have hdiff := mul_nonneg (mul_nonneg (mul_nonneg hρ (sub_nonneg.2 hρ1)) (sub_nonneg.2 hx))
    (sub_nonneg.2 hy)
  rw [retained, retained, retained, hxy]
  linarith

end Retained

/-- The exact fee is what is not retained. -/
theorem exactTakeRateFee_eq {T b n takeRate : ℤ} (hn : 0 < n) :
    exactTakeRateFee T b n takeRate = T - T * retained (takeRate / scalar7.val) b n := by
  have hn' : (n : ℚ) ≠ 0 := by exact_mod_cast hn.ne'
  have h7 : (scalar7.val : ℚ) ≠ 0 := by rw [scalar7_val]; norm_num
  rw [exactTakeRateFee, retained]
  field_simp
  ring

/-! ### Chains of accruals -/

variable {Address : Type} [FixedPoint]

namespace ReserveVault

/-- Accrue at each of the surroundings in turn. -/
def accrueChain (feeMode : FeeMode) (es : List (Env Address)) (vault : ReserveVault Address) :
    Except Failure (ReserveVault Address) :=
  es.foldlM (fun vault e => vault.updateRate e feeMode) vault

/-- The pool's rate of `reserve` in the last of the surroundings, or `rate` if there are none. -/
def lastRate (reserve : Address) (rate : I128) (es : List (Env Address)) : I128 :=
  (es.map fun e => e.bRate reserve).getLastD rate

variable {e : Env Address} {es us : List (Env Address)} {fm : FeeMode}
  {v v₁ w : ReserveVault Address}

omit [FixedPoint] in
@[simp] theorem lastRate_nil (reserve : Address) (rate : I128) :
    lastRate reserve rate [] = rate := rfl

omit [FixedPoint] in
@[simp] theorem lastRate_cons (reserve : Address) (rate : I128) :
    lastRate reserve rate (e :: es) = lastRate reserve (e.bRate reserve) es :=
  List.getLastD_cons

/-- The vault ends a chain of accruals at the rate the pool gave last: the fees are charged on the
    rates of the pool, so the bounds below are stated with these and not with the stored ones. -/
theorem accrueChain_bRate (h : accrueChain fm es v = .ok w) :
    w.address = v.address ∧ w.bRate = lastRate v.address v.bRate es := by
  induction es generalizing v with
  | nil =>
    obtain rfl := Except.ok.inj h
    exact ⟨rfl, rfl⟩
  | cons e es ih =>
    rw [accrueChain, List.foldlM_cons, bind_eq_ok] at h
    obtain ⟨v₁, h₁, h⟩ := h
    obtain ⟨fee, hacc⟩ := updateRate_accrual h₁
    obtain ⟨haddr, hrate⟩ := ih h
    rw [hacc.address] at haddr hrate
    rw [hacc.bRate] at hrate
    exact ⟨haddr, hrate.trans (lastRate_cons ..).symm⟩

/-- **One accrual** in take-rate mode at a rate that did not fall: the fee is the exact one, or
    short of it by at most three bTokens. -/
theorem updateRate_takeRate (hfm : fm.Valid) (htake : fm.isAprCapped = false)
    (hT : 0 ≤ v.totalBTokens.val) (hK : scalar12.val ≤ v.bRate)
    (hle : v.bRate.val ≤ e.bRate v.address) (h : v.updateRate e fm = .ok w) :
    ∃ fee, Accrual e v w fee ∧
      (fee : ℚ) ≤ exactTakeRateFee v.totalBTokens v.bRate w.bRate fm.value ∧
      exactTakeRateFee v.totalBTokens v.bRate w.bRate fm.value - 3 ≤ fee := by
  have hb : 0 < v.bRate.val := scalar12_pos.trans_le hK
  obtain ⟨hacc, -⟩ := updateRate_feeTaken hb hT hfm.1 h
  refine ⟨_, hacc, ?_⟩
  rw [hacc.bRate, feeTaken, htake]
  rcases hle.eq_or_lt with heq | hlt
  · rw [if_pos heq.ge, ← heq, exactTakeRateFee]
    simp
  · rw [if_neg (not_le.2 hlt), if_neg Bool.false_ne_true]
    refine ⟨takeRateFee_le_exact (hb.trans hlt) hfm.1,
      exact_sub_three_le_takeRateFee (hK.trans hlt.le) hfm.1 hfm.2⟩

/-- What a chain of accruals does to the vault: value is kept for the depositors, and they
    retain at most what one accrual would have left them, apart from the rounding. -/
structure TakeRateChain (takeRate : I128) (n : ℕ) (v w : ReserveVault Address) : Prop where
  address : w.address = v.address
  rate_le : v.bRate.val ≤ w.bRate
  bTokens_nonneg : 0 ≤ w.totalBTokens.val
  owed : w.totalBTokens.val + w.accruedFees = v.totalBTokens + v.accruedFees.val
  value_le : v.bRate.val * v.totalBTokens ≤ w.bRate * w.totalBTokens
  retained_le : (w.totalBTokens.val : ℚ) ≤
    v.totalBTokens * retained (takeRate / scalar7.val) v.bRate w.bRate + 3 * n

omit [FixedPoint] in
/-- The empty chain takes nothing. -/
theorem TakeRateChain.nil {takeRate : I128} (hT : 0 ≤ v.totalBTokens.val) (hb : 0 < v.bRate.val) :
    TakeRateChain takeRate 0 v v := by
  refine ⟨rfl, le_rfl, hT, rfl, le_rfl, ?_⟩
  have hb' : (v.bRate.val : ℚ) ≠ 0 := by exact_mod_cast hb.ne'
  rw [retained, div_self hb']
  simp

/-- The first accrual multiplied onto the rest of the chain: the retained parts multiply to at
    most that of one accrual over both rises, and three more bTokens are lost to rounding. -/
theorem TakeRateChain.cons {n : ℕ} (hfm : fm.Valid) (htake : fm.isAprCapped = false)
    (hT : 0 ≤ v.totalBTokens.val) (hK : scalar12.val ≤ v.bRate)
    (hle : v.bRate.val ≤ e.bRate v.address) (h : v.updateRate e fm = .ok v₁)
    (hchain : TakeRateChain fm.value n v₁ w) : TakeRateChain fm.value (n + 1) v w := by
  have h7 : (0 : ℚ) < scalar7.val := by rw [scalar7_val]; norm_num
  have hρ : (0 : ℚ) ≤ fm.value.val / scalar7.val := div_nonneg (by exact_mod_cast hfm.1) h7.le
  have hρ1 : (fm.value.val : ℚ) / scalar7.val ≤ 1 := by
    rw [div_le_one h7]
    exact_mod_cast hfm.2
  have hb : 0 < v.bRate.val := scalar12_pos.trans_le hK
  obtain ⟨fee, hacc, -, hlower⟩ := updateRate_takeRate hfm htake hT hK hle h
  have hvalue := updateRate_value_le hb hT hfm hle h
  rw [← hacc.bRate] at hle
  refine ⟨hchain.address.trans hacc.address, hle.trans hchain.rate_le, hchain.bTokens_nonneg, ?_,
    hvalue.trans hchain.value_le, ?_⟩
  · rw [hchain.owed, hacc.totalBTokens, hacc.accruedFees]
    ring
  · have hb' : (0 : ℚ) < v.bRate.val := by exact_mod_cast hb
    have hbm : (v.bRate.val : ℚ) ≤ v₁.bRate.val := by exact_mod_cast hle
    have hmn : (v₁.bRate.val : ℚ) ≤ w.bRate.val := by exact_mod_cast hchain.rate_le
    have hT' : (0 : ℚ) ≤ v.totalBTokens.val := by exact_mod_cast hT
    -- the first accrual retains at most its part and three bTokens, …
    rw [exactTakeRateFee_eq (hb.trans_le hle)] at hlower
    have hfirst : (v₁.totalBTokens.val : ℚ) ≤
        v.totalBTokens * retained (fm.value.val / scalar7.val) v.bRate v₁.bRate + 3 := by
      have : (v₁.totalBTokens.val : ℚ) = v.totalBTokens.val - fee := by
        exact_mod_cast hacc.totalBTokens
      linarith
    -- … and the rest of the chain scales both down
    have hr0 := retained_nonneg hρ1 (hb'.trans_le hbm) hmn
    have hr1 := retained_le_one hρ (hb'.trans_le hbm) hmn
    have hmul := mul_le_mul_of_nonneg_left (retained_mul_le hρ hρ1 hb' hbm hmn) hT'
    have hscaled := mul_le_mul_of_nonneg_right hfirst hr0
    have hlast := hchain.retained_le
    push_cast
    linarith

/-- **Chain.**  By induction from the front, along rates that do not fall; what is left of them
    afterwards does not start below the last. -/
theorem accrueChain_takeRate (hfm : fm.Valid) (htake : fm.isAprCapped = false)
    (hT : 0 ≤ v.totalBTokens.val) (hK : scalar12.val ≤ v.bRate)
    (hrates : (v.bRate.val :: (es ++ us).map fun e => (e.bRate v.address).val).Pairwise (· ≤ ·))
    (h : accrueChain fm es v = .ok w) :
    TakeRateChain fm.value es.length v w ∧
      (w.bRate.val :: us.map fun e => (e.bRate v.address).val).Pairwise (· ≤ ·) := by
  have hb : 0 < v.bRate.val := scalar12_pos.trans_le hK
  induction es generalizing v with
  | nil =>
    obtain rfl := Except.ok.inj h
    exact ⟨.nil hT hb, hrates⟩
  | cons e es ih =>
    rw [accrueChain, List.foldlM_cons, bind_eq_ok] at h
    obtain ⟨v₁, h₁, h⟩ := h
    have hle : v.bRate.val ≤ e.bRate v.address :=
      List.rel_of_pairwise_cons hrates List.mem_cons_self
    obtain ⟨fee, hacc⟩ := updateRate_accrual h₁
    have hb₁ : v₁.bRate.val = e.bRate v.address := by rw [hacc.bRate]
    have hpos₁ : 0 < v₁.bRate.val := hb₁ ▸ hb.trans_le hle
    have hT₁ : 0 ≤ v₁.totalBTokens.val := by
      have hvalue := updateRate_value_le hb hT hfm hle h₁
      exact nonneg_of_mul_nonneg_right ((mul_nonneg hb.le hT).trans hvalue) hpos₁
    have hrates₁ : (v₁.bRate.val ::
        (es ++ us).map fun e => (e.bRate v₁.address).val).Pairwise (· ≤ ·) := by
      rw [hb₁, hacc.address]
      exact hrates.of_cons
    obtain ⟨hchain, hrest⟩ := ih hT₁ (hb₁ ▸ hK.trans hle) hrates₁ h hpos₁
    exact ⟨.cons hfm htake hT hK hle h₁ hchain, hacc.address ▸ hrest⟩

/-- What take-rate accrual charges over a chain from `v` to `w`, by the rates `v` starts from and
    the pool gives in the surroundings `es`. -/
structure TakeRateBounds (feeMode : FeeMode) (es : List (Env Address))
    (v w : ReserveVault Address) : Prop where
  /-- No single accrual of the chain takes more than the exact share of the bTokens then held, on
      the rise from the pool's rate before it. -/
  single : ∀ es₁ e es₂ v₁ v₂, es = es₁ ++ e :: es₂ → accrueChain feeMode es₁ v = .ok v₁ →
    v₁.updateRate e feeMode = .ok v₂ →
    (v₂.accruedFees.val : ℚ) - v₁.accruedFees.val ≤
      exactTakeRateFee v₁.totalBTokens (lastRate v.address v.bRate es₁) (e.bRate v.address)
        feeMode.value
  /-- All of them together take less than three bTokens each below the fee of a single one on the
      whole rise. -/
  lower : exactTakeRateFee v.totalBTokens v.bRate (lastRate v.address v.bRate es) feeMode.value -
      3 * es.length ≤ (w.accruedFees.val : ℚ) - v.accruedFees.val
  /-- They never take more than the interest. -/
  upper : (w.accruedFees.val : ℚ) - v.accruedFees.val ≤
    v.totalBTokens.val * ((lastRate v.address v.bRate es).val - v.bRate.val) /
      (lastRate v.address v.bRate es).val

/-- **Take rate.**  For every chain of accruals at non-decreasing rates from a rate of one on,
    however it is spaced. -/
theorem takeRate_bounds (hfm : fm.Valid) (htake : fm.isAprCapped = false)
    (hT : 0 ≤ v.totalBTokens.val) (hK : scalar12.val ≤ v.bRate)
    (hrates : (v.bRate.val :: es.map fun e => (e.bRate v.address).val).Pairwise (· ≤ ·))
    (h : accrueChain fm es v = .ok w) : TakeRateBounds fm es v w := by
  have hb : 0 < v.bRate.val := scalar12_pos.trans_le hK
  have hrates' := hrates
  rw [← List.append_nil es] at hrates'
  obtain ⟨hchain, -⟩ := accrueChain_takeRate hfm htake hT hK hrates' h
  obtain ⟨-, hlast⟩ := accrueChain_bRate h
  have hn : 0 < w.bRate.val := hb.trans_le hchain.rate_le
  have howed : (w.accruedFees.val : ℚ) - v.accruedFees.val =
      v.totalBTokens.val - w.totalBTokens.val := by
    have : (w.totalBTokens.val : ℚ) + w.accruedFees.val =
        v.totalBTokens.val + v.accruedFees.val := by exact_mod_cast hchain.owed
    linarith
  refine ⟨?_, ?_, ?_⟩
  · rintro es₁ e es₂ v₁ v₂ rfl h₁ h₂
    obtain ⟨hchain₁, hrest⟩ := accrueChain_takeRate hfm htake hT hK hrates h₁
    obtain ⟨haddr₁, hrate₁⟩ := accrueChain_bRate h₁
    have hle : v₁.bRate.val ≤ e.bRate v₁.address :=
      haddr₁ ▸ List.rel_of_pairwise_cons hrest List.mem_cons_self
    obtain ⟨fee, hacc, hfee, -⟩ := updateRate_takeRate hfm htake hchain₁.bTokens_nonneg
      (hK.trans hchain₁.rate_le) hle h₂
    have : (v₂.accruedFees.val : ℚ) = v₁.accruedFees.val + fee := by
      exact_mod_cast hacc.accruedFees
    rw [hacc.bRate, haddr₁, hrate₁] at hfee
    linarith
  · have := hchain.retained_le
    rw [← hlast, exactTakeRateFee_eq hn, howed]
    linarith
  · have hn' : (0 : ℚ) < w.bRate.val := by exact_mod_cast hn
    have hvalue : (v.bRate.val : ℚ) * v.totalBTokens.val ≤ w.bRate.val * w.totalBTokens.val := by
      exact_mod_cast hchain.value_le
    rw [← hlast, howed, le_div_iff₀ hn']
    linarith

end ReserveVault

/-- Three accruals of the concrete vault, one of them at an unchanged rate. -/
def Demo.chainEnvs : List (Env ℕ) :=
  [env 50 (I128.ofUInt64 1250000000000) 0, env 60 (I128.ofUInt64 1250000000000) 0,
   env 70 (I128.ofUInt64 1400000000000) 0]

/-- The concrete vault after them, at a take rate of 10%. -/
def Demo.chainVault : ReserveVault ℕ where
  address := 7
  bRate := I128.ofUInt64 1400000000000
  lastUpdateTimestamp := 70
  totalShares := I128.ofUInt64 137594436
  totalBTokens := I128.ofUInt64 134445934
  accruedFees := I128.ofUInt64 2001883

omit [FixedPoint] in
/-- On the chain of accruals above, at a take rate of 10%. -/
theorem takeRate_bounds_demo :
    @ReserveVault.TakeRateBounds ℕ FixedPoint.reference ⟨false, I128.ofUInt64 1000000⟩
      Demo.chainEnvs Demo.vault Demo.chainVault :=
  @ReserveVault.takeRate_bounds ℕ FixedPoint.reference Demo.chainEnvs
    ⟨false, I128.ofUInt64 1000000⟩ Demo.vault Demo.chainVault (by decide) rfl (by decide)
    (by decide) (by decide) (by decide)

end FeeVault
