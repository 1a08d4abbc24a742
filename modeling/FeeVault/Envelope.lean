import FeeVault.Withdrawable

namespace FeeVault

open FixedPoint Outcome

/-!
# The operating envelope — no trap of the checked arithmetic

Amounts within a signed 64-bit integer, a rate between `B₀ ≥ 1` and `2·B₀ ≤ 10⁶`, accruals at most
`10¹²` seconds apart: in this envelope no product of the contract leaves the 128 bits.

* `ReserveVault.updateRate_isOk` — accrual, in either fee mode;
* `ReserveVault.InEnvelope` — the run invariant.  What makes the products `shares · bTokens` fit is
  that the shares are bounded by the bTokens through the rate alone,
  `B₀ · totalShares ≤ bRate · totalBTokens`, because a share is never worth less than the underlying
  it was first minted for;
* `Effect.inEnvelope` / `run_inEnvelope` — the step and the run;
* `NoTrap` / `envelope_noTrap` — what then returns.
-/

/-- `i64::MAX`. -/
def maxI64 : ℤ := 2 ^ 63 - 1

/-! ### Products that fit -/

section Products

variable {x y : ℤ}

/-- The cap on the supply admits the empty pool. -/
theorem maxI64_nonneg : 0 ≤ maxI64 := by decide

/-- An amount times a rate. -/
theorem fits_amount_mul_rate (hx : 0 ≤ x) (hx' : x ≤ maxI64) (hy : 0 ≤ y) (hy' : y ≤ 10 ^ 18) :
    FitsI128 (x * y) := by
  refine fitsI128_of_lt (mul_nonneg hx hy) ?_
  calc x * y ≤ maxI64 * 10 ^ 18 := mul_le_mul hx' hy' hy maxI64_nonneg
    _ < 2 ^ 127 := by decide

/-- Shares times an amount, where there are at most two shares a bToken: the tightest product. -/
theorem fits_shares_mul_amount (hx : 0 ≤ x) (hx' : x ≤ 2 * maxI64) (hy : 0 ≤ y)
    (hy' : y ≤ maxI64) : FitsI128 (x * y) := by
  refine fitsI128_of_lt (mul_nonneg hx hy) ?_
  calc x * y ≤ 2 * maxI64 * maxI64 := mul_le_mul hx' hy' hy (by decide)
    _ < 2 ^ 127 := by decide

end Products

variable {Address : Type} [FixedPoint]

/-! ### Accrual computes -/

namespace ReserveVault

variable {v w : ReserveVault Address} {e : Env Address} {fm : FeeMode} {rate n q : I128}
  {now : UInt64}

/-- The three stages of the take rate stay below the first product. -/
theorem takeRateTake_isOk (hT : 0 ≤ v.totalBTokens.val) (hT' : v.totalBTokens.val ≤ maxI64)
    (hb : 0 < v.bRate.val) (hbn : v.bRate.val ≤ n) (hn : n.val ≤ 10 ^ 18)
    (hR : 0 ≤ rate.val) (hR' : rate.val ≤ 10 ^ 7) : ∃ q, v.takeRateTake rate n = .ok q := by
  have hn0 : 0 < n.val := hb.trans_le hbn
  obtain ⟨growth, hgrowth, hg⟩ := I128.checkedSub_isSome hb.le hbn
  have hg0 : 0 ≤ growth.val := by omega
  have hg' : growth.val ≤ 10 ^ 18 := by omega
  obtain ⟨interest, hinterest, hi⟩ := mulFloor_isSome hT hg0 scalar12_pos
    (fits_amount_mul_rate hT hT' hg0 hg')
  have hi0 : 0 ≤ interest.val := hi ▸ MulDiv.floor_nonneg hT hg0 scalar12_pos
  -- scaled back by `10¹²` the interest is at most the first product
  have hi' : interest.val * scalar12 ≤ maxI64 * 10 ^ 18 :=
    (hi ▸ MulDiv.floor_mul_le scalar12_pos).trans (mul_le_mul hT' hg' hg0 maxI64_nonneg)
  rw [scalar12_val] at hi'
  have hprod' : interest.val * rate ≤ maxI64 * 10 ^ 18 :=
    (mul_le_mul_of_nonneg_left hR' hi0).trans (by omega)
  obtain ⟨take, htake, ht⟩ := mulFloor_isSome hi0 hR scalar7_pos
    (fitsI128_of_lt (mul_nonneg hi0 hR) (hprod'.trans_lt (by decide)))
  have ht0 : 0 ≤ take.val := ht ▸ MulDiv.floor_nonneg hi0 hR scalar7_pos
  have hti : take.val ≤ interest := ht ▸ MulDiv.floor_le_self hi0 scalar7_pos hR'
  obtain ⟨fee, hfee, -⟩ := divFloor_isSome ht0 scalar12_pos.le hn0
    (fitsI128_of_lt (mul_nonneg ht0 scalar12_pos.le) (by rw [scalar12_val, maxI64] at *; omega))
  refine ⟨fee, ?_⟩
  simp only [takeRateTake, hgrowth, hinterest, htake, hfee, unwrapOptimized, ok_bind]

omit [FixedPoint] in
/-- The growth allowed after at most `10¹²` seconds computes: it is at most `10²⁴` before the
    division by the year and less than `10¹⁷` after it. -/
theorem targetGrowth_isOk (elapsed : UInt64) (hA : 0 ≤ rate.val) (hA' : rate.val ≤ 10 ^ 7)
    (hgap : elapsed.toNat ≤ 10 ^ 12) :
    ∃ scaled growth perYear allowed, I128.checkedMul ⟨100000, by decide⟩ rate = some scaled ∧
      scaled.checkedMul (I128.ofUInt64 elapsed) = some growth ∧
      growth.checkedDiv secondsPerYear = some perYear ∧
      perYear.checkedAdd scalar12 = some allowed ∧ 0 ≤ allowed.val ∧ allowed.val ≤ 10 ^ 17 := by
  have hd0 : 0 ≤ (I128.ofUInt64 elapsed).val := by rw [I128.ofUInt64_val]; positivity
  have hd' : (I128.ofUInt64 elapsed).val ≤ 10 ^ 12 := by rw [I128.ofUInt64_val]; omega
  obtain ⟨scaled, hscaled, hs⟩ := I128.checkedMul_isSome (x := ⟨100000, by decide⟩) (y := rate)
    (fitsI128_of_lt (by positivity) (by dsimp only; omega))
  dsimp only at hs
  have hprod0 : 0 ≤ scaled.val * I128.ofUInt64 elapsed := mul_nonneg (by omega) hd0
  have hprod : scaled.val * I128.ofUInt64 elapsed ≤ 10 ^ 12 * 10 ^ 12 :=
    mul_le_mul (by omega) hd' hd0 (by decide)
  obtain ⟨growth, hgrowth, hg⟩ := I128.checkedMul_isSome (fitsI128_of_lt hprod0 (by omega))
  have hg0 : 0 ≤ growth.val := hg ▸ hprod0
  have hg' : growth.val ≤ 10 ^ 12 * 10 ^ 12 := hg ▸ hprod
  obtain ⟨perYear, hperYear, hp⟩ :=
    I128.checkedDiv_isSome hg0 (show 0 < secondsPerYear.val by decide)
  rw [secondsPerYear_val] at hp
  obtain ⟨allowed, hallowed, ha⟩ := I128.checkedAdd_isSome (x := perYear) (y := scalar12)
    (fitsI128_of_lt (by rw [scalar12_val]; omega) (by rw [scalar12_val]; omega))
  rw [scalar12_val] at ha
  exact ⟨scaled, growth, perYear, allowed, hscaled, hgrowth, hperYear, hallowed, by omega,
    by omega⟩

/-- The target rate is at most `10³⁵` before it is scaled, and the excess over it a rate. -/
theorem aprCappedTake_isOk (hT : 0 ≤ v.totalBTokens.val) (hT' : v.totalBTokens.val ≤ maxI64)
    (hb : 0 < v.bRate.val) (hbn : v.bRate.val ≤ n) (hn : n.val ≤ 10 ^ 18)
    (hA : 0 ≤ rate.val) (hA' : rate.val ≤ 10 ^ 7) (htime : v.lastUpdateTimestamp ≤ now)
    (hgap : now.toNat - v.lastUpdateTimestamp.toNat ≤ 10 ^ 12) :
    ∃ q, v.aprCappedTake rate now n = .ok q := by
  have hn0 : 0 < n.val := hb.trans_le hbn
  obtain ⟨elapsed, helapsed⟩ : ∃ d, now.checkedSub v.lastUpdateTimestamp = some d :=
    ⟨_, UInt64.checkedSub_of_le htime⟩
  have hd := UInt64.toNat_of_checkedSub helapsed
  obtain ⟨scaled, growth, perYear, allowed, hscaled, hgrowth, hperYear, hallowed, ha0, ha'⟩ :=
    targetGrowth_isOk elapsed hA hA' (by omega)
  have hprod : v.bRate.val * allowed ≤ 10 ^ 18 * 10 ^ 17 :=
    mul_le_mul (hbn.trans hn) ha' ha0 (by decide)
  obtain ⟨target, htarget, ht⟩ := mulCeil_isSome hb.le ha0 scalar12_pos
    (fitsI128_of_lt (mul_nonneg hb.le ha0) (hprod.trans_lt (by decide)))
  have ht0 : 0 ≤ target.val := ht ▸ MulDiv.ceil_nonneg hb.le ha0 scalar12_pos
  simp only [aprCappedTake, helapsed, hscaled, hgrowth, hperYear, hallowed, htarget,
    unwrapOptimized, ok_bind]
  split
  · -- the target was not reached
    exact ⟨0, rfl⟩
  · next hlt =>
    replace hlt : target.val < n := not_le.1 (mt I128.le_iff.2 hlt)
    obtain ⟨excess, hexcess, hx⟩ := I128.checkedSub_isSome ht0 hlt.le
    have hx0 : 0 ≤ excess.val := by omega
    obtain ⟨fee, hfee, -⟩ := mulFloor_isSome hT hx0 hn0
      (fits_amount_mul_rate hT hT' hx0 (by omega))
    refine ⟨fee, ?_⟩
    simp only [hexcess, hfee, ok_bind]

/-- The fee is taken out of what is there: valued at the new rate it is at most the interest, and
    the interest is worth no more than all bTokens. -/
theorem adminTake_le (hT : 0 ≤ v.totalBTokens.val) (hb : 0 < v.bRate.val)
    (hbn : v.bRate.val < n) (hfm : fm.Valid) (h : v.adminTake fm now n = .ok q) :
    q.val ≤ v.totalBTokens := by
  have hn : 0 < n.val := hb.trans hbn
  have hinterest : n.val * q ≤ v.totalBTokens * (n.val - v.bRate) := by
    rw [adminTake] at h
    split at h
    · obtain ⟨htime, hq⟩ := aprCappedTake_val hn hfm.1 h
      exact hq ▸ mul_aprCappedFee_le hT hb hbn hfm.1 (by omega)
    · exact takeRateTake_val hn h ▸ mul_takeRateFee_le hT hb hbn hfm.2
  refine le_of_mul_le_mul_left (hinterest.trans ?_) hn
  rw [mul_comm n.val]
  exact mul_le_mul_of_nonneg_left (by omega) hT

/-- **Accrual computes**, in either fee mode: within the bounds on rates, amounts and elapsed
    time, every product on the way fits. -/
theorem updateRate_isOk (hv : v.Sound) (hcap : v.totalBTokens.val + v.accruedFees ≤ maxI64)
    (hbn : v.bRate.val ≤ e.bRate v.address) (hn : (e.bRate v.address).val ≤ 10 ^ 18)
    (htime : v.lastUpdateTimestamp ≤ e.timestamp)
    (hgap : e.timestamp.toNat - v.lastUpdateTimestamp.toNat ≤ 10 ^ 12) (hfm : fm.Valid) :
    ∃ w, v.updateRate e fm = .ok w := by
  have hT := hv.bTokens_nonneg
  have hF := hv.fees_nonneg
  rcases hbn.eq_or_lt with heq | hlt
  · exact ⟨_, updateRate_of_le heq.ge⟩
  obtain ⟨take, htake⟩ : ∃ q, v.adminTake fm e.timestamp (e.bRate v.address) = .ok q := by
    rw [adminTake]
    split
    · exact aprCappedTake_isOk hT (by omega) hv.rate_pos hbn hn hfm.1 hfm.2 htime hgap
    · exact takeRateTake_isOk hT (by omega) hv.rate_pos hbn hn hfm.1 hfm.2
  have hle := adminTake_le hT hv.rate_pos hlt hfm htake
  rw [updateRate, if_neg (by simpa using hlt), htake, ok_bind]
  split
  · exact ⟨_, rfl⟩
  · next hpos =>
    obtain ⟨T, hT', -⟩ := I128.checkedSub_isSome (not_le.1 hpos).le hle
    obtain ⟨F, hF', -⟩ := I128.checkedAdd_isSome (x := v.accruedFees) (y := take)
      (fitsI128_of_lt (by omega) (by rw [maxI64] at hcap; omega))
    rw [hT', hF']
    exact ⟨_, rfl⟩

/-! ### The invariant -/

/-- The vault of a reserve opened at the rate `B₀`, in the envelope. -/
structure InEnvelope (B₀ : ℤ) (v : ReserveVault Address) : Prop where
  sound : v.Sound
  total_le : v.totalBTokens.val + v.accruedFees ≤ maxI64
  rate_ge : B₀ ≤ v.bRate
  /-- A share is worth the underlying it was first minted for. -/
  backed : B₀ * v.totalShares ≤ v.bRate * v.totalBTokens

namespace InEnvelope

variable {B₀ : ℤ} {a x m S T : I128}

omit [FixedPoint] in
/-- Up to twice the opening rate there are at most two shares a bToken. -/
theorem shares_le (h : w.InEnvelope B₀) (hB : 0 < B₀) (hb : w.bRate.val ≤ 2 * B₀) :
    w.totalShares.val ≤ 2 * w.totalBTokens.val := by
  refine le_of_mul_le_mul_left (h.backed.trans ?_) hB
  calc w.bRate.val * w.totalBTokens
      ≤ 2 * B₀ * w.totalBTokens := mul_le_mul_of_nonneg_right hb h.sound.bTokens_nonneg
    _ = B₀ * (2 * w.totalBTokens.val) := by ring

/-- **Accrual.**  The fee is at most the interest, so the depositors' underlying does
    not shrink. -/
theorem updateRate (h : v.InEnvelope B₀) (hfm : fm.Valid)
    (hle : v.bRate.val ≤ e.bRate v.address) (hw : v.updateRate e fm = .ok w) :
    w.InEnvelope B₀ := by
  have hv := h.sound
  obtain ⟨fee, hacc⟩ := updateRate_accrual hw
  have hvalue := updateRate_value_le hv.rate_pos hv.bTokens_nonneg hfm hle hw
  refine ⟨hv.updateRate hfm (hv.rate_pos.trans_le hle) hw, ?_, ?_, ?_⟩
  · rw [hacc.totalBTokens, hacc.accruedFees, sub_add_add_cancel]
    exact h.total_le
  · rw [hacc.bRate]
    exact h.rate_ge.trans hle
  · rw [hacc.totalShares]
    exact h.backed.trans hvalue

/-- **Deposits.**  The supply cap bounds the sum, and a share is minted no cheaper than
    the floor of the price. -/
theorem deposit (h : w.InEnvelope B₀) (hB : 0 ≤ B₀) (hx : 0 ≤ x.val)
    (hcap : w.totalBTokens.val + w.accruedFees + x ≤ maxI64)
    (hm : w.bTokensToSharesDown x = .ok m) (hS : S.val = w.totalShares.val + m.val)
    (hT : T.val = w.totalBTokens.val + x.val) :
    InEnvelope B₀ { w with totalShares := S, totalBTokens := T } := by
  refine ⟨h.sound.deposit hx hm hS hT, ?_, h.rate_ge, ?_⟩
  · dsimp only
    omega
  · have hfloor := h.sound.pool.mul_shares_le_deposit hx hB h.rate_ge h.backed
    rwa [SharePool.deposit_shares, SharePool.deposit_assets, ← h.sound.minted hm,
      Sound.pool_shares, Sound.pool_assets, ← hS, ← hT] at hfloor

/-- **Withdrawals.**  The sum shrinks, and a share is burned for no more than its price. -/
theorem withdraw (h : w.InEnvelope B₀) (hB : 0 ≤ B₀) (hx : 0 ≤ x.val)
    (hxT : x.val ≤ w.totalBTokens.val) (hm : w.bTokensToSharesUp x = .ok m)
    (hS : S.val = w.totalShares.val - m.val) (hT : T.val = w.totalBTokens.val - x.val) :
    InEnvelope B₀ { w with totalShares := S, totalBTokens := T } := by
  refine ⟨h.sound.withdraw hxT hm hS hT, ?_, h.rate_ge, ?_⟩
  · have := h.total_le
    dsimp only
    omega
  · have hfloor := h.sound.pool.mul_shares_le_withdraw (hxT.trans_eq h.sound.pool_assets.symm) hB
      h.rate_ge h.backed
    rwa [SharePool.withdraw_shares, SharePool.withdraw_assets, ← h.sound.burned hm,
      Sound.pool_shares, Sound.pool_assets, ← hS, ← hT] at hfloor

omit [FixedPoint] in
/-- **Fee claims.**  The fees leave the sum, and the shares are backed as before. -/
theorem claim (h : w.InEnvelope B₀) : InEnvelope B₀ { w with accruedFees := 0 } := by
  refine ⟨h.sound.claim, ?_, h.rate_ge, h.backed⟩
  have h1 := h.total_le
  have h2 := h.sound.fees_nonneg
  dsimp only
  rw [I128.val_zero]
  omega

omit [FixedPoint] in
/-- A reserve just opened. -/
theorem opened {r : Address} {b : I128} (hb : 0 < b.val) :
    InEnvelope b.val ⟨r, b, now, 0, 0, 0⟩ :=
  ⟨.ofPool SharePool.empty rfl rfl hb le_rfl, show (0 : ℤ) ≤ maxI64 by decide, le_rfl,
    by simp⟩

end InEnvelope

end ReserveVault

/-! ### Calls on a vault in the envelope -/

/-- The room the supply cap leaves for a deposit of `amount` into `r` at the rate of `e`. -/
def ReserveVault.HasRoom (v : ReserveVault Address) (e : Env Address) (r : Address)
    (amount : I128) : Prop :=
  v.totalBTokens.val + v.accruedFees + MulDiv.floor amount scalar12 (e.bRate r) ≤ maxI64

instance (v : ReserveVault Address) (e : Env Address) (r : Address) (amount : I128) :
    Decidable (v.HasRoom e r amount) := inferInstanceAs (Decidable (_ ≤ _))

/-- The surroundings `e` of a call on `r`, where the vault comes out of accrual as `w`, in the
    envelope and at no more than twice the rate it was opened at. -/
structure Ready (e : Env Address) (s : State Address) (r : Address) (B₀ : ℤ)
    (w : ReserveVault Address) : Prop where
  rate₀_pos : 0 < B₀
  rate₀_le : B₀ ≤ 5 * 10 ^ 17
  soundAt : s.SoundAt r
  conserved : s.Conserved r
  keyed : s.Keyed
  updated : ReserveVault.getReserveVaultUpdated e s.storage r = .ok w
  bRate : w.bRate = e.bRate r
  rate_le : w.bRate.val ≤ 2 * B₀
  inEnvelope : w.InEnvelope B₀

namespace Ready

variable {s : State Address} {r u toAddr : Address} {B₀ : ℤ} {w : ReserveVault Address}
  {e : Env Address} {a x shown : I128}

section Bounds

variable (h : Ready e s r B₀ w)
include h

/-- The vault that a call on `r` works with is sound. -/
theorem sound : w.Sound := h.inEnvelope.sound

/-- The pool's rate is positive, being that of the vault. -/
theorem rate_pos : 0 < (e.bRate r).val := h.bRate ▸ h.sound.rate_pos

/-- The rate is at most `10 ^ 18`, the form in which the products with it are bounded. -/
theorem rate_le' : w.bRate.val ≤ 10 ^ 18 := by
  have h1 := h.rate_le
  have h2 := h.rate₀_le
  omega

/-- There are at most two shares a bToken: the price has a floor, and the rate has at most
    doubled since the reserve was opened. -/
theorem shares_le : w.totalShares.val ≤ 2 * w.totalBTokens.val :=
  h.inEnvelope.shares_le h.rate₀_pos h.rate_le

/-- The depositors' bTokens stay within the cap on the supply. -/
theorem bTokens_le : w.totalBTokens.val ≤ maxI64 := by
  have h1 := h.inEnvelope.total_le
  have h2 := h.sound.fees_nonneg
  omega

/-- And so do the fees. -/
theorem fees_le : w.accruedFees.val ≤ maxI64 := by
  have h1 := h.inEnvelope.total_le
  have h2 := h.sound.bTokens_nonneg
  omega

/-- No user holds more shares than the vault has issued, so what bounds the total bounds
    every balance. -/
theorem balance_le (u : Address) : s.sharesAt r u ≤ w.totalShares :=
  (h.soundAt.updated h.keyed h.rate_pos h.updated).2.2.2 ▸ h.conserved.le_total u

end Bounds

/-- Both views of a position return, since a balance is at most twice the cap and its
    bTokens are within it. -/
theorem views_isOk (h : Ready e s r B₀ w) (u : Address) :
    (∃ z, Contract.getBTokens e s r u = .ok z) ∧
      ∃ v, Contract.getUnderlyingTokens e s r u = .ok v := by
  by_cases hu : 0 < s.sharesAt r u
  · have hoS := h.balance_le u
    have hS := hu.trans_le hoS
    have hT := h.bTokens_le
    have ho : s.sharesAt r u ≤ 2 * maxI64 := by linarith [h.shares_le]
    have hz0 := MulDiv.floor_nonneg hu.le h.sound.bTokens_nonneg hS
    have hz := (h.sound.pool.floor_le_assets hS hoS).trans hT
    rw [views_isOk_iff h.soundAt h.conserved h.keyed h.rate_pos hu h.updated]
    constructor
    · exact (fits_shares_mul_amount hu.le ho h.sound.bTokens_nonneg hT).2
    · exact (fits_amount_mul_rate hz0 hz h.sound.rate_pos.le h.rate_le').2
  · exact ⟨⟨0, Contract.getBTokens_of_no_shares hu⟩,
      0, Contract.getUnderlyingTokens_of_no_shares hu⟩

/-- The fees are worth an amount that fits. -/
theorem fees_isOk (h : Ready e s r B₀ w) :
    ∃ y, w.bTokensToUnderlyingDown w.accruedFees = .ok y := by
  have hF := h.sound.fees_nonneg
  have hb := h.sound.rate_pos.le
  rw [ReserveVault.bTokensToUnderlyingDown_isOk hb hF]
  exact fits_amount_mul_rate hF h.fees_le hb h.rate_le'

/-- The fees are shown: their product with the rate fits. -/
theorem getCollectedFees_isOk (h : Ready e s r B₀ w) :
    ∃ y, Contract.getCollectedFees e s r = .ok y := by
  unfold Contract.getCollectedFees
  split
  · rw [h.updated, ok_bind]
    exact h.fees_isOk
  · exact ⟨0, rfl⟩

/-- A deposit within the cap is worth bTokens that fit in it: the cap bounds the quotient, and
    the rate the product, … -/
theorem bTokens_isOk (h : Ready e s r B₀ w) (ha : 0 < a.val) (hroom : w.HasRoom e r a) :
    ∃ x, w.underlyingToBTokensDown a = .ok x ∧ 0 ≤ x.val ∧
      w.totalBTokens.val + w.accruedFees + x.val ≤ maxI64 := by
  have hb := h.sound.rate_pos
  have hT := h.sound.bTokens_nonneg
  have hF := h.sound.fees_nonneg
  rw [ReserveVault.HasRoom, ← h.bRate] at hroom
  have hK : 0 ≤ scalar12.val := scalar12_pos.le
  have hprod : a.val * scalar12 < 2 ^ 127 := by
    calc a.val * scalar12
        < (MulDiv.floor a scalar12 w.bRate + 1) * w.bRate := MulDiv.lt_floor_add_one_mul hb
      _ ≤ (maxI64 + 1) * 10 ^ 18 := mul_le_mul (by omega) h.rate_le' hb.le (by decide)
      _ < 2 ^ 127 := by decide
  obtain ⟨x, hx, hxval⟩ := divFloor_isSome ha.le hK hb (fitsI128_of_lt (mul_nonneg ha.le hK) hprod)
  rw [← hxval] at hroom
  refine ⟨x, ?_, hxval ▸ MulDiv.floor_nonneg ha.le hK hb, hroom⟩
  rw [ReserveVault.underlyingToBTokensDown, hx, unwrapOptimized]

/-- … and mints at most twice as many shares, the price being no lower than one half. -/
theorem minted_isOk (h : Ready e s r B₀ w) (hx : 0 ≤ x.val) (hx' : x.val ≤ maxI64) :
    ∃ m, w.bTokensToSharesDown x = .ok m ∧ 0 ≤ m.val ∧ m.val ≤ 2 * x.val := by
  have hmint {m : I128} (hm : w.bTokensToSharesDown x = .ok m) : 0 ≤ m.val ∧ m.val ≤ 2 * x.val := by
    rw [h.sound.minted hm]
    have hle := h.sound.pool.mul_minted_le hx zero_le_one one_le_two
      (by rw [one_mul]; exact h.shares_le)
    exact ⟨hx.trans (h.sound.pool.le_minted hx), one_mul (h.sound.pool.minted x) ▸ hle⟩
  by_cases hS : w.totalShares.val = 0
  · have hm := ReserveVault.bTokensToSharesDown_of_empty (a := x) (Or.inl hS)
    exact ⟨x, hm, hmint hm⟩
  · have hS0 : 0 < w.totalShares.val := h.sound.pool.shares_pos_of_ne hS
    have hT := h.sound.pool.assets_pos hS0
    have hS' : w.totalShares.val ≤ 2 * maxI64 := by linarith [h.shares_le, h.bTokens_le]
    have hfits : FitsI128 (x * w.totalShares) := by
      rw [mul_comm]
      exact fits_shares_mul_amount hS0.le hS' hx hx'
    have hm := (ReserveVault.bTokensToSharesDown_eq_ok (a := x)
      (q := ⟨_, fitsI128_of_le (MulDiv.floor_nonneg hx hS0.le hT)
        (MulDiv.floor_le_mul (mul_nonneg hx hS0.le)) hfits⟩) hS hT).2 ⟨hfits, rfl⟩
    exact ⟨_, hm, hmint hm⟩

variable [DecidableEq Address]

/-- A fee claim may be refused but does not trap, since the fees it converts are those
    that are shown. -/
theorem claimFees_noTrap (h : Ready e s r B₀ w) :
    FailsOnly (· ≠ .arithmetic) (Contract.claimFees e s r toAddr) := by
  obtain ⟨y, hy⟩ := h.fees_isOk
  refine Contract.claimFees_failsOnly (.inr (by decide)) (.inr (by decide)) (.inr (by decide)) ?_
  rw [ReserveVault.claimFees, h.updated, ok_bind]
  refine .bind (failsOnly_positive (.inr (by decide))) ?_
  intro _ _
  rw [hy]
  exact .ok _

/-- A deposit within the cap may be refused but does not trap.  The supply it is checked against
    is that of the accrued vault. -/
theorem deposit_noTrap (h : Ready e s r B₀ w) (hroom : w.HasRoom e r a) :
    FailsOnly (· ≠ .arithmetic) (Contract.deposit e s r u a) := by
  refine Contract.deposit_failsOnly (.inr (by decide)) (.inr (by decide)) (.inr (by decide))
    (.inr (by decide)) ?_
  intro ha
  -- the conversions return, and so do the three sums
  obtain ⟨x, hx, hx0, hxroom⟩ := h.bTokens_isOk ha hroom
  have hT := h.sound.bTokens_nonneg
  have hF := h.sound.fees_nonneg
  have hS := h.shares_le
  obtain ⟨m, hm, hm0, hmx⟩ := h.minted_isOk hx0 (by omega)
  have hsum {z : ℤ} (hz : 0 ≤ z) (hz' : z ≤ 2 * maxI64) : FitsI128 z :=
    fitsI128_of_lt hz (hz'.trans_lt (by decide))
  obtain ⟨S, hS', -⟩ := I128.checkedAdd_isSome (x := w.totalShares) (y := m)
    (hsum (add_nonneg h.sound.pool.shares_nonneg hm0) (by omega))
  obtain ⟨T, hT', -⟩ := I128.checkedAdd_isSome (x := w.totalBTokens) (y := x)
    (hsum (add_nonneg hT hx0) (by omega))
  have haddr := (h.soundAt.updated h.keyed h.rate_pos h.updated).2.2.1
  have hbal := h.balance_le u
  obtain ⟨bal, hbal', -⟩ := I128.checkedAdd_isSome
    (x := s.storage.getReserveVaultShares w.address u) (y := m)
    (hsum (add_nonneg (haddr ▸ h.conserved.nonneg u) hm0)
      (by rw [haddr]; rw [State.sharesAt] at hbal; omega))
  rw [ReserveVault.deposit, h.updated, ok_bind, hx, ok_bind]
  refine .bind (failsOnly_positive (.inr (by decide))) ?_
  intro _ _
  rw [hm, ok_bind]
  refine .bind (failsOnly_positive (.inr (by decide))) ?_
  intro _ _
  rw [hS', hT', hbal']
  exact .ok _

/-- A withdrawal of at most what is shown does not trap: what is shown is what can be withdrawn,
    and a user with nothing is shown nothing. -/
theorem withdraw_noTrap (h : Ready e s r B₀ w)
    (hview : Contract.getUnderlyingTokens e s r u = .ok shown) (hle : a.val ≤ shown) :
    FailsOnly (· ≠ .arithmetic) (Contract.withdraw e s r u a) := by
  refine Contract.withdraw_failsOnly (.inr (by decide)) (.inr (by decide)) (.inr (by decide))
    (.inr (by decide)) ?_
  intro ha
  by_cases hu : 0 < s.sharesAt r u
  · obtain ⟨w', hw', z, hz, hv⟩ := (Contract.getUnderlyingTokens_eq_ok hu).1 hview
    obtain rfl : w = w' := Except.ok.inj (h.updated.symm.trans hw')
    obtain ⟨x, m, hx, hm, hmo⟩ := (h.sound.withdraw_iff hu (h.balance_le u) hz hv ha).2 hle
    obtain ⟨res, hres⟩ := withdraw_booked h.soundAt h.conserved h.keyed h.rate_pos ha hw' hx hm hmo
    rw [hres]
    exact .ok res
  · rw [Contract.getUnderlyingTokens_of_no_shares hu] at hview
    rw [← Except.ok.inj hview, I128.val_zero] at hle
    omega

end Ready

/-! ### Over runs -/

/-- Neither the ledger time nor the pool's rate of `r` goes back from `e` to `e'`. -/
def Env.Precedes (r : Address) (e e' : Env Address) : Prop :=
  e.timestamp ≤ e'.timestamp ∧ (e.bRate r).val ≤ e'.bRate r

instance (r : Address) (e e' : Env Address) : Decidable (Env.Precedes r e e') :=
  inferInstanceAs (Decidable (_ ∧ _))

/-- `v` was last accrued in `e`. -/
def ReserveVault.AccruedIn (v : ReserveVault Address) (r : Address) (e : Env Address) : Prop :=
  v.bRate = e.bRate r ∧ v.lastUpdateTimestamp = e.timestamp

variable [DecidableEq Address]

/-- The amount a call deposits into `r`, if it does. -/
def Call.depositInto? (r : Address) : Call Address → Option I128
  | .deposit reserve _ amount => if reserve = r then some amount else none
  | _ => none

/-- A deposit into `r` stays within the supply cap. -/
def WithinCap (r : Address) (s : State Address) (t : Tx Address) : Prop :=
  ∀ v ∈ s.storage.resVault r, ∀ a ∈ t.call.depositInto? r, v.HasRoom t.env r a

instance (r : Address) (s : State Address) (t : Tx Address) : Decidable (WithinCap r s t) :=
  inferInstanceAs (Decidable (∀ v ∈ s.storage.resVault r, ∀ a ∈ t.call.depositInto? r, _))

variable {s s' s₁ : State Address} {t : Tx Address} {r : Address}
  {v : ReserveVault Address} {B₀ : ℤ} {e e₀ : Env Address} {val : Value}

/-- **Envelope step.**  A call that leaves the vault in the envelope either leaves its rate and
    time alone or brings both up to the surroundings, so bounds on these are bounds on the next
    gap. -/
theorem Effect.inEnvelope (h : Effect t r s s') (hfm : s.storage.feeMode.Valid)
    (hkey : ∀ v, s.vaultAt r = some v → v.address = r) (hB : 0 < B₀) (hv : s.vaultAt r = some v)
    (hin : v.InEnvelope B₀) (hrate : v.bRate.val ≤ t.env.bRate r) (hcap : WithinCap r s t) :
    ∃ w, s'.vaultAt r = some w ∧ w.InEnvelope B₀ ∧
      (w.bRate = v.bRate ∧ w.lastUpdateTimestamp = v.lastUpdateTimestamp ∨
        w.AccruedIn r t.env) := by
  have haddr := hkey v hv
  -- every movement starts from the accrued vault
  have hacc {v' w : ReserveVault Address} (present : s.vaultAt r = some v')
      (accrual : v'.updateRate t.env s.storage.feeMode = .ok w) :
      v = v' ∧ w.InEnvelope B₀ ∧ w.AccruedIn r t.env := by
    obtain rfl : v = v' := Option.some.inj (hv.symm.trans present)
    obtain ⟨fee, hfee⟩ := ReserveVault.updateRate_accrual accrual
    exact ⟨rfl, hin.updateRate hfm (by rw [haddr]; exact hrate) accrual,
      haddr ▸ hfee.bRate, hfee.lastUpdateTimestamp⟩
  cases h with
  | untouched _ _ vault => exact ⟨v, vault.trans hv, hin, .inl ⟨rfl, rfl⟩⟩
  | opened _ absent =>
    rw [absent] at hv
    cases hv
  | accrued _ present accrual vault =>
    obtain ⟨rfl, hw, hstamp⟩ := hacc present accrual
    exact ⟨_, vault, hw, .inr hstamp⟩
  | @deposited _ a _ _ _ _ _ _ call _ _ present accrual bTokens bTokens_pos minted _ totalShares
      totalBTokens vault =>
    obtain ⟨rfl, hw, hstamp⟩ := hacc present accrual
    obtain ⟨fee, hfee⟩ := ReserveVault.updateRate_accrual accrual
    have hroom := hcap v hv a (by rw [call]; exact if_pos rfl)
    have hx := ((ReserveVault.underlyingToBTokensDown_eq_ok hw.sound.rate_pos).1 bTokens).2
    rw [ReserveVault.HasRoom, ← hstamp.1, ← hx] at hroom
    refine ⟨_, vault, hw.deposit hB.le bTokens_pos.le ?_ minted totalShares totalBTokens,
      .inr hstamp⟩
    rwa [hfee.totalBTokens, hfee.accruedFees, sub_add_add_cancel]
  | withdrawn _ _ amount_pos present accrual bTokens burned _ _ bTokens_le_total _ totalShares
      totalBTokens vault =>
    obtain ⟨rfl, hw, hstamp⟩ := hacc present accrual
    have hx0 := (hw.sound.burned_pos amount_pos bTokens burned).1
    exact ⟨_, vault, hw.withdraw hB.le hx0.le bTokens_le_total burned totalShares totalBTokens,
      .inr hstamp⟩
  | claimed _ present accrual _ _ vault =>
    obtain ⟨rfl, hw, hstamp⟩ := hacc present accrual
    exact ⟨_, vault, hw.claim, .inr hstamp⟩

/-- **Envelope run.**  From an accrual in `e₀` on, through transactions at times and rates that do
    not go back, to the surroundings `e`. -/
theorem run_inEnvelope {ts : List (Tx Address)} (hs : Reachable (fun _ => True) s) (hB : 0 < B₀)
    (hv : s.vaultAt r = some v) (hin : v.InEnvelope B₀)
    (hstamp : v.AccruedIn r e₀) (hmono : (e₀ :: (ts.map Tx.env ++ [e])).Pairwise (Env.Precedes r))
    (hcap : Revert.Along exec (WithinCap r) s ts) :
    ∃ w, (Revert.run exec s ts).vaultAt r = some w ∧ w.InEnvelope B₀ ∧
      w.bRate.val ≤ e.bRate r ∧ w.lastUpdateTimestamp ≤ e.timestamp := by
  induction ts generalizing s v e₀ with
  | nil =>
    have hlast : Env.Precedes r e₀ e := List.rel_of_pairwise_cons hmono List.mem_cons_self
    exact ⟨v, hv, hin, by rw [hstamp.1]; exact hlast.2, by rw [hstamp.2]; exact hlast.1⟩
  | cons t ts ih =>
    rw [List.map_cons, List.cons_append] at hmono
    have hnext : Env.Precedes r e₀ t.env := List.rel_of_pairwise_cons hmono List.mem_cons_self
    have hskip : (e₀ :: (ts.map Tx.env ++ [e])).Pairwise (Env.Precedes r) :=
      hmono.sublist ((List.sublist_cons_self _ _).cons_cons _)
    have hs' := Revert.Reachable.step (t := t) hs trivial
    obtain ⟨hcap₀, hcap⟩ := hcap
    rw [Revert.run_cons]
    cases h : exec s t with
    | error f =>
      rw [Revert.step_error h] at hs' hcap ⊢
      exact ih hs' hv hin hstamp hskip hcap
    | ok res =>
      obtain ⟨val, s'⟩ := res
      rw [Revert.step_ok h] at hs' hcap ⊢
      obtain ⟨w, hw, hin', hkept | hnew⟩ := (exec_effect hs.keyed h r).inEnvelope
        hs.feeMode_valid (hs.keyed r) hB hv hin (by rw [hstamp.1]; exact hnext.2) hcap₀
      · exact ih hs' hw hin' ⟨hkept.1.trans hstamp.1, hkept.2.trans hstamp.2⟩ hskip hcap
      · exact ih hs' hw hin' hnew hmono.of_cons hcap

/-- None of the calls on `r` traps in the surroundings `e`: no product or sum overflows, no time
    underflows and nothing is divided by zero. -/
structure NoTrap (e : Env Address) (s : State Address) (r : Address) : Prop where
  /-- Accrual, in either fee mode. -/
  updateRate : ∀ v fm, s.storage.resVault r = some v → fm.Valid →
    ∃ w, v.updateRate e fm = .ok w
  deposit : ∀ v u a, s.storage.resVault r = some v → v.HasRoom e r a →
    Contract.deposit e s r u a ≠ .error .arithmetic
  /-- A withdrawal of at most what is shown. -/
  withdraw : ∀ u (a shown : I128), Contract.getUnderlyingTokens e s r u = .ok shown →
    a.val ≤ shown → Contract.withdraw e s r u a ≠ .error .arithmetic
  claimFees : ∀ toAddr, Contract.claimFees e s r toAddr ≠ .error .arithmetic
  getBTokens : ∀ u, ∃ z, Contract.getBTokens e s r u = .ok z
  getUnderlyingTokens : ∀ u, ∃ y, Contract.getUnderlyingTokens e s r u = .ok y
  getCollectedFees : ∃ y, Contract.getCollectedFees e s r = .ok y

/-- In the envelope nothing traps: accrual computes, and every call and view on the
    accrued vault does. -/
theorem noTrap_of_inEnvelope (hs : Reachable (fun _ => True) s) (hB : 0 < B₀)
    (hB' : B₀ ≤ 5 * 10 ^ 17) (hv : s.vaultAt r = some v) (hin : v.InEnvelope B₀)
    (hrate : v.bRate.val ≤ e.bRate r) (hmax : (e.bRate r).val ≤ 2 * B₀)
    (htime : v.lastUpdateTimestamp ≤ e.timestamp)
    (hgap : e.timestamp.toNat - v.lastUpdateTimestamp.toNat ≤ 10 ^ 12) : NoTrap e s r := by
  have haddr := hs.keyed r v hv
  have hrate' : v.bRate.val ≤ e.bRate v.address := by rw [haddr]; exact hrate
  have haccrual (fm : FeeMode) (hfm : fm.Valid) : ∃ w, v.updateRate e fm = .ok w :=
    ReserveVault.updateRate_isOk hin.sound hin.total_le hrate' (by rw [haddr]; omega) htime hgap hfm
  obtain ⟨w, hw⟩ := haccrual _ hs.feeMode_valid
  obtain ⟨fee, hfee⟩ := ReserveVault.updateRate_accrual hw
  have hb : w.bRate = e.bRate r := haddr ▸ hfee.bRate
  have hready : Ready e s r B₀ w := {
    rate₀_pos := hB
    rate₀_le := hB'
    soundAt := ⟨hs.feeMode_valid, fun v' hv' => Option.some.inj (hv.symm.trans hv') ▸ hin.sound⟩
    conserved := hs.conserved r
    keyed := hs.keyed
    updated := ReserveVault.getReserveVaultUpdated_eq_ok.2 ⟨v, hv, hw⟩
    bRate := hb
    rate_le := hb ▸ hmax
    inEnvelope := hin.updateRate hs.feeMode_valid hrate' hw }
  have hroom {a : I128} (h : v.HasRoom e r a) : w.HasRoom e r a := by
    rw [ReserveVault.HasRoom, hfee.totalBTokens, hfee.accruedFees, sub_add_add_cancel]
    exact h
  exact {
    updateRate := fun v' fm hv' hfm => Option.some.inj (hv.symm.trans hv') ▸ haccrual fm hfm
    deposit := fun v' u a hv' h => by
      obtain rfl : v = v' := Option.some.inj (hv.symm.trans hv')
      exact fun hfail => hready.deposit_noTrap (hroom h) _ hfail rfl
    withdraw := fun u a shown hview hle hfail => hready.withdraw_noTrap hview hle _ hfail rfl
    claimFees := fun toAddr hfail => hready.claimFees_noTrap _ hfail rfl
    getBTokens := fun u => (hready.views_isOk u).1
    getUnderlyingTokens := fun u => (hready.views_isOk u).2
    getCollectedFees := hready.getCollectedFees_isOk }

/-- **No trap in the envelope.**  Reserve `r` is opened in `e₀`, at a rate `B₀` between one and
    `5·10⁵`; from there to the surroundings `e` neither time nor rate goes back, the rate at most
    doubles, and deposits stay within the supply cap.  Then in `e`, at most `10¹²` seconds after the
    last accrual, no call on `r` traps. -/
theorem envelope_noTrap {ts : List (Tx Address)} (hs : Reachable (fun _ => True) s)
    (hopen : exec s ⟨e₀, .addReserveVault r⟩ = .ok (val, s₁))
    (hB : scalar12.val ≤ e₀.bRate r) (hB' : (e₀.bRate r).val ≤ 5 * 10 ^ 17)
    (hmono : (e₀ :: (ts.map Tx.env ++ [e])).Pairwise (Env.Precedes r))
    (hmax : (e.bRate r).val ≤ 2 * (e₀.bRate r).val)
    (hcap : Revert.Along exec (WithinCap r) s₁ ts)
    (hgap : ∀ v, (Revert.run exec s₁ ts).storage.resVault r = some v →
      e.timestamp.toNat - v.lastUpdateTimestamp.toNat ≤ 10 ^ 12) :
    NoTrap e (Revert.run exec s₁ ts) r := by
  have hpos : 0 < (e₀.bRate r).val := scalar12_pos.trans_le hB
  have hs₁ : Reachable (fun _ => True) s₁ :=
    Revert.step_ok hopen ▸ Revert.Reachable.step hs trivial
  have hvault : s₁.vaultAt r = some ⟨r, e₀.bRate r, e₀.timestamp, 0, 0, 0⟩ := by
    cases exec_effect hs.keyed hopen r with
    | untouched other => exact absurd rfl other
    | opened _ _ vault => exact vault
    | accrued call | deposited call | withdrawn call | claimed call => cases call
  obtain ⟨v, hv, hin, hrate, htime⟩ := run_inEnvelope hs₁ hpos hvault
    (ReserveVault.InEnvelope.opened hpos) ⟨rfl, rfl⟩ hmono hcap
  exact noTrap_of_inEnvelope (Revert.Reachable.run hs₁ fun _ _ => trivial) hpos hB' hv hin hrate
    hmax htime (hgap v hv)

omit [FixedPoint] [DecidableEq Address] in
/-- The concrete run stays in the envelope of the reserve it opens at 1.1, up to a rate of 2.2. -/
theorem envelope_noTrap_demo : @NoTrap ℕ FixedPoint.reference _
    (Demo.env 1000000 (I128.ofUInt64 2200000000000) 3) Demo.state 7 :=
  @envelope_noTrap ℕ FixedPoint.reference _ Demo.deployed
    (Revert.step (@exec ℕ _ FixedPoint.reference) Demo.deployed
      ⟨Demo.env 10 (I128.ofUInt64 1100000000000) 0, .addReserveVault 7⟩) 7
    (Demo.env 1000000 (I128.ofUInt64 2200000000000) 3)
    (Demo.env 10 (I128.ofUInt64 1100000000000) 0) none Demo.txs.tail
    (.init Demo.deployed_deployed) rfl (by decide) (by decide) (by decide) (by decide)
    ⟨by decide, by decide, by decide, trivial⟩ (by
      rintro v hv
      obtain rfl : Demo.vault = v := Option.some.inj (Demo.state_vault.symm.trans hv)
      decide)

end FeeVault
