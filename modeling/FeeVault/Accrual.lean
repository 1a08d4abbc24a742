import FeeVault.ReserveVault

namespace FeeVault

open FixedPoint

/-!
# What conversions and accrual compute

The specifications of `reserve_vault.rs` up to `update_rate`, in `ℤ`:

* `*_eq_ok` — a conversion succeeds exactly when its product fits, and then returns the rounded
  quotient;
* `takeRateFee` / `aprCappedFee` — the two fee formulas, as the integers the code computes;
* `Accrual` — all `updateRate` ever does: the rate and the time move to the present, and some
  non-negative number of bTokens moves from the depositors to the admin;
* `ReserveVault.updateRate_interest` — that number never exceeds the interest, in either mode.
-/

/-! ### The two fee formulas -/

/-- Take-rate fee on `T` bTokens whose rate went from `b` to `n`: interest in underlying, the
    admin's part of it, and back to bTokens, each rounded down. -/
def takeRateFee (T b n takeRate : ℤ) : ℤ :=
  MulDiv.floor
    (MulDiv.floor (MulDiv.floor T (n - b) scalar12) takeRate scalar7) scalar12 n

/-- The rate the cap allows after `elapsed` seconds, starting from `b`. -/
def aprTarget (b targetApr elapsed : ℤ) : ℤ :=
  MulDiv.ceil b (100000 * targetApr * elapsed / secondsPerYear + scalar12) scalar12

/-- APR-capped fee: what `T` bTokens grew beyond the target rate. -/
def aprCappedFee (T b n targetApr elapsed : ℤ) : ℤ :=
  if n ≤ aprTarget b targetApr elapsed then 0
  else MulDiv.floor T (n - aprTarget b targetApr elapsed) n

/-- At a rising rate a take rate never costs the admin: all three factors of the fee are
    non-negative. -/
theorem takeRateFee_nonneg {T b n takeRate : ℤ} (hT : 0 ≤ T) (hb : 0 < b) (hbn : b < n)
    (hR : 0 ≤ takeRate) : 0 ≤ takeRateFee T b n takeRate := by
  have h1 := MulDiv.floor_nonneg hT (sub_nonneg.2 hbn.le) scalar12_pos
  have h2 := MulDiv.floor_nonneg h1 hR scalar7_pos
  exact MulDiv.floor_nonneg h2 scalar12_pos.le (lt_trans hb hbn)

/-- The take-rate fee, valued at the new rate, is at most the interest: it is a part of it,
    rounded down at each stage. -/
theorem mul_takeRateFee_le {T b n takeRate : ℤ} (hT : 0 ≤ T) (hb : 0 < b) (hbn : b < n)
    (hR1 : takeRate ≤ scalar7) :
    n * takeRateFee T b n takeRate ≤ T * (n - b) := by
  have hn : 0 < n := lt_trans hb hbn
  have h1 := MulDiv.floor_nonneg hT (sub_nonneg.2 hbn.le) scalar12_pos
  -- innermost out: interest, part of it, bTokens
  have hint := MulDiv.floor_mul_le (x := T) (y := n - b) scalar12_pos
  have hpart := MulDiv.floor_le_self h1 scalar7_pos hR1
  have hfee := MulDiv.floor_mul_le (y := scalar12.val) hn
    (x := MulDiv.floor (MulDiv.floor T (n - b) scalar12) takeRate scalar7)
  calc n * takeRateFee T b n takeRate
      ≤ MulDiv.floor (MulDiv.floor T (n - b) scalar12) takeRate scalar7 * scalar12 := by
        rw [mul_comm]; exact hfee
    _ ≤ MulDiv.floor T (n - b) scalar12 * scalar12 :=
        mul_le_mul_of_nonneg_right hpart scalar12_pos.le
    _ ≤ T * (n - b) := hint

/-- The target never lies below the rate it starts from. -/
theorem le_aprTarget {b targetApr elapsed : ℤ} (hb : 0 < b) (hA : 0 ≤ targetApr)
    (hd : 0 ≤ elapsed) : b ≤ aprTarget b targetApr elapsed := by
  refine MulDiv.le_ceil_self hb.le scalar12_pos ?_
  have : 0 ≤ 100000 * targetApr * elapsed / secondsPerYear.val :=
    Int.ediv_nonneg (mul_nonneg (by positivity) hd) (by decide)
  omega

/-- Neither does a cap: what lies above it is taken, and nothing is given where the
    growth stays below. -/
theorem aprCappedFee_nonneg {T b n targetApr elapsed : ℤ} (hT : 0 ≤ T) (hb : 0 < b)
    (hbn : b < n) : 0 ≤ aprCappedFee T b n targetApr elapsed := by
  unfold aprCappedFee
  split
  · exact le_rfl
  · next h => exact MulDiv.floor_nonneg hT (by omega) (lt_trans hb hbn)

/-- The APR-capped fee, valued at the new rate, is at most the interest, since the target lies at
    or above the old rate. -/
theorem mul_aprCappedFee_le {T b n targetApr elapsed : ℤ} (hT : 0 ≤ T) (hb : 0 < b)
    (hbn : b < n) (hA : 0 ≤ targetApr) (hd : 0 ≤ elapsed) :
    n * aprCappedFee T b n targetApr elapsed ≤ T * (n - b) := by
  have hn : 0 < n := lt_trans hb hbn
  unfold aprCappedFee
  split
  · rw [mul_zero]
    exact mul_nonneg hT (by omega)
  · have htarget := le_aprTarget hb hA hd
    calc n * MulDiv.floor T (n - aprTarget b targetApr elapsed) n
        ≤ T * (n - aprTarget b targetApr elapsed) := by
          rw [mul_comm]; exact MulDiv.floor_mul_le hn
      _ ≤ T * (n - b) := mul_le_mul_of_nonneg_left (by omega) hT

variable {Address : Type} [FixedPoint]

namespace ReserveVault

variable {v w : ReserveVault Address} {a q : I128}

/-! ### Conversions -/

/-- The bTokens a deposit is booked with are the floor at the vault's rate, and the only failure
    is an amount too large to scale. -/
theorem underlyingToBTokensDown_eq_ok (hb : 0 < v.bRate.val) :
    v.underlyingToBTokensDown a = .ok q ↔
      FitsI128 (a * scalar12) ∧ q.val = MulDiv.floor a scalar12 v.bRate := by
  simp [underlyingToBTokensDown, divFloor_eq_some hb]

/-- Those a withdrawal is booked with are the ceiling. -/
theorem underlyingToBTokensUp_eq_ok (hb : 0 < v.bRate.val) :
    v.underlyingToBTokensUp a = .ok q ↔
      FitsI128 (a * scalar12) ∧ q.val = MulDiv.ceil a scalar12 v.bRate := by
  simp [underlyingToBTokensUp, divCeil_eq_some hb]

/-- The underlying shown or paid for bTokens is the floor at the vault's rate, whatever that rate
    is, since the scale is the divisor here. -/
theorem bTokensToUnderlyingDown_eq_ok :
    v.bTokensToUnderlyingDown a = .ok q ↔
      FitsI128 (a * v.bRate) ∧ q.val = MulDiv.floor a v.bRate scalar12 := by
  simp [bTokensToUnderlyingDown, mulFloor_eq_some scalar12_pos]

/-- The bTokens of some of the shares are their part of the total, rounded down. -/
theorem sharesToBTokensDown_eq_ok (hS : 0 < v.totalShares.val) :
    v.sharesToBTokensDown a = .ok q ↔
      FitsI128 (a * v.totalBTokens) ∧ q.val = MulDiv.floor a v.totalBTokens v.totalShares := by
  simp [sharesToBTokensDown, divFloor_eq_some hS]

/-- An empty vault mints one share a bToken: the code tests both totals before it
    divides by one of them. -/
theorem bTokensToSharesDown_of_empty (h : v.totalShares.val = 0 ∨ v.totalBTokens.val = 0) :
    v.bTokensToSharesDown a = .ok a := by
  simp [bTokensToSharesDown, I128.eq_zero_iff, h]

/-- It burns one share a bToken as well, by the same test. -/
theorem bTokensToSharesUp_of_empty (h : v.totalShares.val = 0 ∨ v.totalBTokens.val = 0) :
    v.bTokensToSharesUp a = .ok a := by
  simp [bTokensToSharesUp, I128.eq_zero_iff, h]

/-- In a vault with holders, the shares minted are the floor at the vault's price. -/
theorem bTokensToSharesDown_eq_ok (hS : v.totalShares.val ≠ 0) (hT : 0 < v.totalBTokens.val) :
    v.bTokensToSharesDown a = .ok q ↔
      FitsI128 (a * v.totalShares) ∧ q.val = MulDiv.floor a v.totalShares v.totalBTokens := by
  simp [bTokensToSharesDown, I128.eq_zero_iff, hS, hT.ne', mulFloor_eq_some hT]

/-- And the shares burned are the ceiling. -/
theorem bTokensToSharesUp_eq_ok (hS : v.totalShares.val ≠ 0) (hT : 0 < v.totalBTokens.val) :
    v.bTokensToSharesUp a = .ok q ↔
      FitsI128 (a * v.totalShares) ∧ q.val = MulDiv.ceil a v.totalShares v.totalBTokens := by
  simp [bTokensToSharesUp, I128.eq_zero_iff, hS, hT.ne', mulCeil_eq_some hT]

variable {rate n : I128} {now : UInt64}

/-! ### The code computes the formulas -/

/-- The fee that the code computes under a take rate is the formula, when no operation
    on the way overflows. -/
theorem takeRateTake_val (hn : 0 < n.val) (h : v.takeRateTake rate n = .ok q) :
    q.val = takeRateFee v.totalBTokens v.bRate n rate := by
  simp only [takeRateTake, bind_eq_ok, unwrapOptimized_eq_ok, I128.checkedSub_eq_some,
    mulFloor_eq_some scalar12_pos,
    mulFloor_eq_some scalar7_pos, divFloor_eq_some hn] at h
  obtain ⟨growth, hgrowth, interest, ⟨-, hinterest⟩, take, ⟨-, htake⟩, -, hq⟩ := h
  rw [hq, htake, hinterest, hgrowth, takeRateFee]

/-- Under a cap, too.  The time has not gone back then, or the difference of the unsigned time
    stamps would have trapped. -/
theorem aprCappedTake_val (hn : 0 < n.val) (hA : 0 ≤ rate.val)
    (h : v.aprCappedTake rate now n = .ok q) :
    v.lastUpdateTimestamp.toNat ≤ now.toNat ∧
      q.val = aprCappedFee v.totalBTokens v.bRate n rate
        (now.toNat - v.lastUpdateTimestamp.toNat) := by
  simp only [aprCappedTake, bind_eq_ok, unwrapOptimized_eq_ok, I128.checkedMul_eq_some,
    I128.checkedAdd_eq_some, mulCeil_eq_some scalar12_pos] at h
  obtain ⟨elapsed, helapsed, scaled, hscaled, growth, hgrowth, perYear, hperYear, targetGrowth,
    htargetGrowth, target, ⟨-, htarget⟩, h⟩ := h
  have htime := UInt64.toNat_of_checkedSub helapsed
  have hgrowth0 : 0 ≤ growth.val := by
    rw [hgrowth, hscaled]
    exact mul_nonneg (mul_nonneg (by decide) hA) (by rw [I128.ofUInt64_val]; positivity)
  rw [I128.checkedDiv_eq_some hgrowth0 (by decide)] at hperYear
  have htarget' : target.val =
      aprTarget v.bRate rate (now.toNat - v.lastUpdateTimestamp.toNat) := by
    have hd : (elapsed.toNat : ℤ) = now.toNat - v.lastUpdateTimestamp.toNat := by omega
    rw [htarget, htargetGrowth, hperYear, hgrowth, hscaled, I128.ofUInt64_val, hd, aprTarget]
  refine ⟨by omega, ?_⟩
  rw [aprCappedFee, ← htarget']
  split at h
  · next hle =>
    obtain rfl := (Except.ok.inj h).symm
    rw [if_pos (I128.le_iff.1 hle), I128.val_zero]
  · next hlt =>
    rw [if_neg (mt I128.le_iff.2 hlt)]
    simp only [bind_eq_ok, unwrapOptimized_eq_ok, I128.checkedSub_eq_some,
      mulFloor_eq_some hn] at h
    obtain ⟨excess, hexcess, -, hq⟩ := h
    rw [hq, hexcess]

end ReserveVault

/-! ### Accrual as a whole -/

/-- `w` is `v` brought to the rate and time of `e`, with `fee` bTokens moved from the
    depositors to the admin. -/
structure Accrual (e : Env Address) (v w : ReserveVault Address) (fee : ℤ) : Prop where
  address : w.address = v.address
  bRate : w.bRate = e.bRate v.address
  lastUpdateTimestamp : w.lastUpdateTimestamp = e.timestamp
  totalShares : w.totalShares = v.totalShares
  totalBTokens : w.totalBTokens.val = v.totalBTokens - fee
  accruedFees : w.accruedFees.val = v.accruedFees + fee
  fee_nonneg : 0 ≤ fee

namespace ReserveVault

variable {e e' : Env Address} {fm fm' : FeeMode} {v w : ReserveVault Address}

/-- The fee `updateRate` charges, as a number. -/
def feeTaken (e : Env Address) (fm : FeeMode) (v : ReserveVault Address) : ℤ :=
  if (e.bRate v.address).val ≤ v.bRate then 0
  else if fm.isAprCapped then
    aprCappedFee v.totalBTokens v.bRate (e.bRate v.address) fm.value
      (e.timestamp.toNat - v.lastUpdateTimestamp.toNat)
  else takeRateFee v.totalBTokens v.bRate (e.bRate v.address) fm.value

/-- A rate that did not rise is taken over as it is. -/
theorem updateRate_of_le (h : (e.bRate v.address).val ≤ v.bRate.val) :
    v.updateRate e fm =
      .ok { v with lastUpdateTimestamp := e.timestamp, bRate := e.bRate v.address } := by
  rw [updateRate, if_pos (I128.le_iff.2 h)]
  rfl

/-- **Accrual.**  Whatever the fee mode, `updateRate` moves some bTokens from the depositors to
    the admin and nothing else. -/
theorem updateRate_accrual (h : v.updateRate e fm = .ok w) : ∃ fee, Accrual e v w fee := by
  simp only [updateRate] at h
  split at h
  · -- the rate did not rise
    obtain rfl := (Except.ok.inj h).symm
    exact ⟨0, rfl, rfl, rfl, rfl, by simp, by simp, le_rfl⟩
  · simp only [bind_eq_ok] at h
    obtain ⟨take, -, h⟩ := h
    split at h
    · -- nothing to take
      obtain rfl := (Except.ok.inj h).symm
      exact ⟨0, rfl, rfl, rfl, rfl, by simp, by simp, le_rfl⟩
    · next hpos =>
      simp only [bind_eq_ok, unwrapOptimized_eq_ok, I128.checkedSub_eq_some,
        I128.checkedAdd_eq_some] at h
      obtain ⟨total, htotal, fees, hfees, h⟩ := h
      obtain rfl := (Except.ok.inj h).symm
      exact ⟨take.val, rfl, rfl, rfl, rfl, htotal, hfees, by omega⟩

/-- At positive rates the fee is the one the formulas give, under either kind of mode.  In a
    capped mode at a rate that rose, the time has not gone back, or the accrual would have
    trapped. -/
theorem updateRate_feeTaken (hb : 0 < v.bRate.val) (hT : 0 ≤ v.totalBTokens.val)
    (hfm : 0 ≤ fm.value.val) (h : v.updateRate e fm = .ok w) :
    Accrual e v w (feeTaken e fm v) ∧
      (fm.isAprCapped = true → v.bRate.val < (e.bRate v.address).val →
        v.lastUpdateTimestamp.toNat ≤ e.timestamp.toNat) := by
  by_cases hle : (e.bRate v.address).val ≤ v.bRate.val
  · rw [updateRate_of_le hle] at h
    obtain rfl := (Except.ok.inj h).symm
    refine ⟨⟨rfl, rfl, rfl, rfl, ?_, ?_, ?_⟩, fun _ hlt => absurd hlt (not_lt.2 hle)⟩ <;>
      simp [feeTaken, hle]
  · have hlt := not_le.1 hle
    have hn : 0 < (e.bRate v.address).val := lt_trans hb hlt
    rw [updateRate, if_neg (by simpa using hlt)] at h
    simp only [bind_eq_ok] at h
    obtain ⟨take, htake, h⟩ := h
    -- the amount taken is the formula's, and the formula is non-negative
    have hval : take.val = feeTaken e fm v ∧ (fm.isAprCapped = true →
        v.lastUpdateTimestamp.toNat ≤ e.timestamp.toNat) := by
      rw [feeTaken, if_neg hle]
      rw [adminTake] at htake
      split at htake
      · next hc =>
        obtain ⟨htime, hval⟩ := aprCappedTake_val hn hfm htake
        exact ⟨by rw [if_pos hc, hval], fun _ => htime⟩
      · next hc =>
        exact ⟨by rw [if_neg hc, takeRateTake_val hn htake], fun hc' => absurd hc' hc⟩
    have hnonneg : 0 ≤ feeTaken e fm v := by
      rw [feeTaken, if_neg hle]
      split
      · exact aprCappedFee_nonneg hT hb hlt
      · exact takeRateFee_nonneg hT hb hlt hfm
    refine ⟨?_, fun hc _ => hval.2 hc⟩
    split at h
    · -- a fee that is not positive is none
      next hnp =>
      obtain rfl := (Except.ok.inj h).symm
      have h0 : feeTaken e fm v = 0 := by omega
      exact ⟨rfl, rfl, rfl, rfl, by simp [h0], by simp [h0], hnonneg⟩
    · simp only [bind_eq_ok, unwrapOptimized_eq_ok, I128.checkedSub_eq_some,
        I128.checkedAdd_eq_some] at h
      obtain ⟨total, htotal, fees, hfees, h⟩ := h
      obtain rfl := (Except.ok.inj h).symm
      exact ⟨rfl, rfl, rfl, rfl, by rw [htotal, hval.1], by rw [hfees, hval.1], hnonneg⟩

/-- **Interest bound.**  The fee is charged on a rise of the rate only, and valued at the new
    rate it is at most the interest. -/
theorem updateRate_interest (hb : 0 < v.bRate.val) (hT : 0 ≤ v.totalBTokens.val)
    (hfm : fm.Valid) (h : v.updateRate e fm = .ok w) :
    ∃ fee, Accrual e v w fee ∧ ((e.bRate v.address).val ≤ v.bRate → fee = 0) ∧
      (v.bRate.val < e.bRate v.address →
        (e.bRate v.address).val * fee ≤ v.totalBTokens * ((e.bRate v.address) - v.bRate.val)) := by
  obtain ⟨hacc, htime⟩ := updateRate_feeTaken hb hT hfm.1 h
  refine ⟨_, hacc, fun hle => if_pos hle, ?_⟩
  intro hlt
  rw [feeTaken, if_neg (not_le.2 hlt)]
  split
  · next hc =>
    have := htime hc hlt
    exact mul_aprCappedFee_le hT hb hlt hfm.1 (by omega)
  · exact mul_takeRateFee_le hT hb hlt hfm.2

/-- **The depositors' underlying does not shrink** while the rate does not fall: the
    interest covers the fee. -/
theorem updateRate_value_le (hb : 0 < v.bRate.val) (hT : 0 ≤ v.totalBTokens.val) (hfm : fm.Valid)
    (hle : v.bRate.val ≤ e.bRate v.address) (h : v.updateRate e fm = .ok w) :
    v.bRate.val * v.totalBTokens ≤ w.bRate * w.totalBTokens := by
  obtain ⟨fee, hacc, hfall, hrise⟩ := updateRate_interest hb hT hfm h
  rw [hacc.bRate, hacc.totalBTokens]
  rcases hle.eq_or_lt with heq | hlt
  · rw [hfall heq.ge, heq, sub_zero]
  · have := hrise hlt
    linarith [mul_sub (e.bRate v.address).val v.totalBTokens.val fee,
      mul_sub v.totalBTokens.val (e.bRate v.address).val v.bRate.val,
      mul_comm v.totalBTokens.val v.bRate.val,
      mul_comm v.totalBTokens.val (e.bRate v.address).val]

/-- A vault already at the pool's rate only has its time stamp moved, in any fee mode. -/
theorem updateRate_of_rate_eq (h : e.bRate v.address = v.bRate) :
    v.updateRate e fm = .ok { v with lastUpdateTimestamp := e.timestamp } := by
  rw [updateRate_of_le (by rw [h]), h]

/-- **Idempotence.**  Accruing again at the same rate and time changes nothing, whatever
    happened to the fee mode in between. -/
theorem updateRate_idem (h : v.updateRate e fm = .ok w)
    (hrate : e'.bRate v.address = e.bRate v.address) (htime : e'.timestamp = e.timestamp) :
    w.updateRate e' fm' = .ok w := by
  obtain ⟨fee, hw⟩ := updateRate_accrual h
  rw [updateRate_of_rate_eq (by rw [hw.address, hw.bRate, hrate]), htime,
    ← hw.lastUpdateTimestamp]

end ReserveVault

end FeeVault
