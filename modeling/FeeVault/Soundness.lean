import FeeVault.Conservation
import FeeVault.Failures
import FeeVault.Lib.SharePool

namespace FeeVault

open Outcome

/-!
# Every reachable vault is a share pool

`ReserveVault.Sound` is the invariant of a single vault while the pool's rate is positive: its
totals form a `SharePool`, and no fees are owed the wrong way round.  Accrual is a `skim` of
that pool, minting and burning are the pool's own (`Sound.minted`, `Sound.burned`), so each
effect keeps the invariant because the pool's movements do.
-/

variable {Address : Type} [FixedPoint]

namespace ReserveVault

variable {v w : ReserveVault Address} {e : Env Address} {fm : FeeMode} {a x m S T : I128}

/-- A vault whose totals form a share pool. -/
structure Sound (v : ReserveVault Address) : Prop where
  rate_pos : 0 < v.bRate.val
  fees_nonneg : 0 ≤ v.accruedFees.val
  bTokens_nonneg : 0 ≤ v.totalBTokens.val
  bTokens_le_shares : v.totalBTokens.val ≤ v.totalShares.val
  shares_eq_zero : v.totalBTokens.val = 0 → v.totalShares.val = 0

namespace Sound

/-- The share pool of a sound vault. -/
def pool (h : v.Sound) : SharePool :=
  ⟨v.totalShares, v.totalBTokens, h.bTokens_nonneg, h.bTokens_le_shares, h.shares_eq_zero⟩

omit [FixedPoint] in
@[simp] theorem pool_shares (h : v.Sound) : h.pool.shares = v.totalShares.val := rfl

omit [FixedPoint] in
@[simp] theorem pool_assets (h : v.Sound) : h.pool.assets = v.totalBTokens.val := rfl

omit [FixedPoint] in
/-- A vault with the totals of a share pool is sound. -/
theorem ofPool (p : SharePool) (hS : v.totalShares.val = p.shares)
    (hT : v.totalBTokens.val = p.assets) (hb : 0 < v.bRate.val) (hF : 0 ≤ v.accruedFees.val) :
    v.Sound where
  rate_pos := hb
  fees_nonneg := hF
  bTokens_nonneg := hT ▸ p.assets_nonneg
  bTokens_le_shares := by rw [hS, hT]; exact p.assets_le_shares
  shares_eq_zero h := by rw [hS]; exact p.shares_eq_zero (hT ▸ h)

/-- The code's fallback for an empty vault and its division are the pool's `minted`. -/
theorem minted (h : v.Sound) (hm : v.bTokensToSharesDown x = .ok m) :
    m.val = h.pool.minted x.val := by
  by_cases hS : v.totalShares.val = 0
  · rw [bTokensToSharesDown_of_empty (Or.inl hS)] at hm
    rw [SharePool.minted, pool_shares, if_pos hS, ← Except.ok.inj hm]
  · have hT : 0 < v.totalBTokens.val :=
      h.pool.assets_pos (h.pool.shares_pos_of_ne hS)
    rw [SharePool.minted, pool_shares, if_neg hS]
    exact ((bTokensToSharesDown_eq_ok hS hT).1 hm).2

/-- The code's fallback for an empty vault and its division are the pool's `burned`. -/
theorem burned (h : v.Sound) (hm : v.bTokensToSharesUp x = .ok m) :
    m.val = h.pool.burned x.val := by
  by_cases hS : v.totalShares.val = 0
  · rw [bTokensToSharesUp_of_empty (Or.inl hS)] at hm
    rw [SharePool.burned, pool_shares, if_pos hS, ← Except.ok.inj hm]
  · have hT : 0 < v.totalBTokens.val :=
      h.pool.assets_pos (h.pool.shares_pos_of_ne hS)
    rw [SharePool.burned, pool_shares, if_neg hS]
    exact ((bTokensToSharesUp_eq_ok hS hT).1 hm).2

/-- A positive amount burns bTokens and shares. -/
theorem burned_pos (h : w.Sound) (ha : 0 < a.val) (hx : w.underlyingToBTokensUp a = .ok x)
    (hm : w.bTokensToSharesUp x = .ok m) : 0 < x.val ∧ 0 < m.val := by
  have hx0 : 0 < x.val := by
    rw [((underlyingToBTokensUp_eq_ok h.rate_pos).1 hx).2]
    exact MulDiv.ceil_pos ha scalar12_pos h.rate_pos
  exact ⟨hx0, h.burned hm ▸ lt_of_lt_of_le hx0 (h.pool.le_burned hx0.le)⟩

/-! ### The invariant is kept -/

/-- A positive rate never takes the last bToken of the depositors, so accrual cannot leave shares
    without assets. -/
theorem fee_lt (h : v.Sound) (hfm : fm.Valid) (hrate : 0 < (e.bRate v.address).val)
    (hw : v.updateRate e fm = .ok w) :
    ∃ fee, Accrual e v w fee ∧ (fee < v.totalBTokens.val ∨ fee = 0) := by
  obtain ⟨fee, hacc, hfall, hrise⟩ := updateRate_interest h.rate_pos h.bTokens_nonneg hfm hw
  refine ⟨fee, hacc, ?_⟩
  -- the fee is at most the interest `T·(n - b)/n`, which is less than `T` because `b` is positive
  rcases le_or_gt (e.bRate v.address).val v.bRate.val with hle | hlt
  · exact Or.inr (hfall hle)
  · rcases h.bTokens_nonneg.eq_or_lt with hT | hT
    · have := hrise hlt
      rw [← hT, zero_mul] at this
      have := hacc.fee_nonneg
      exact Or.inr (by nlinarith)
    · refine Or.inl (lt_of_mul_lt_mul_left (lt_of_le_of_lt (hrise hlt) ?_) hrate.le)
      nlinarith [mul_pos hT h.rate_pos]

/-- **Accrual is a skim.** -/
theorem updateRate (h : v.Sound) (hfm : fm.Valid) (hrate : 0 < (e.bRate v.address).val)
    (hw : v.updateRate e fm = .ok w) : w.Sound := by
  obtain ⟨fee, hacc, hfee⟩ := h.fee_lt hfm hrate hw
  refine ofPool (h.pool.skim fee hacc.fee_nonneg hfee) ?_ hacc.totalBTokens ?_ ?_
  · rw [hacc.totalShares]; rfl
  · rw [hacc.bRate]; exact hrate
  · have h1 := hacc.accruedFees
    have h2 := h.fees_nonneg
    have h3 := hacc.fee_nonneg
    omega

/-- **A deposit is the pool's.** -/
theorem deposit (h : w.Sound) (hx : 0 ≤ x.val) (hm : w.bTokensToSharesDown x = .ok m)
    (hS : S.val = w.totalShares.val + m.val) (hT : T.val = w.totalBTokens.val + x.val) :
    Sound { w with totalShares := S, totalBTokens := T } :=
  ofPool (h.pool.deposit x hx) (by rw [SharePool.deposit_shares, ← h.minted hm]; exact hS)
    hT h.rate_pos h.fees_nonneg

/-- **A withdrawal is the pool's.** -/
theorem withdraw (h : w.Sound) (hxT : x.val ≤ w.totalBTokens.val)
    (hm : w.bTokensToSharesUp x = .ok m)
    (hS : S.val = w.totalShares.val - m.val) (hT : T.val = w.totalBTokens.val - x.val) :
    Sound { w with totalShares := S, totalBTokens := T } :=
  ofPool (h.pool.withdraw x (hxT.trans_eq h.pool_assets.symm))
    (by rw [SharePool.withdraw_shares, ← h.burned hm]; exact hS) hT h.rate_pos h.fees_nonneg

/-- The share pool after a deposit. -/
theorem pool_deposit (h : w.Sound) (hx : 0 ≤ x.val) (hm : w.bTokensToSharesDown x = .ok m)
    (hS : S.val = w.totalShares.val + m.val) (hT : T.val = w.totalBTokens.val + x.val) :
    (h.deposit hx hm hS hT).pool = h.pool.deposit x hx := by
  ext
  · rw [SharePool.deposit_shares, ← h.minted hm]
    exact hS
  · exact hT

/-- The share pool after a withdrawal. -/
theorem pool_withdraw (h : w.Sound) (hxT : x.val ≤ w.totalBTokens.val)
    (hxT' : x.val ≤ h.pool.assets) (hm : w.bTokensToSharesUp x = .ok m)
    (hS : S.val = w.totalShares.val - m.val) (hT : T.val = w.totalBTokens.val - x.val) :
    (h.withdraw hxT hm hS hT).pool = h.pool.withdraw x hxT' := by
  ext
  · rw [SharePool.withdraw_shares, ← h.burned hm]
    exact hS
  · exact hT

omit [FixedPoint] in
/-- The share pool after accrual. -/
theorem pool_skim (h : v.Sound) {fee : ℤ} (hw : w.Sound) (hacc : Accrual e v w fee)
    (hfee : fee < v.totalBTokens.val ∨ fee = 0) :
    hw.pool = h.pool.skim fee hacc.fee_nonneg hfee := by
  ext
  · exact congrArg I128.val hacc.totalShares
  · exact hacc.totalBTokens

/-- A deposit does not lower the price `totalBTokens / totalShares`. -/
theorem deposit_cross (h : w.Sound) (hx : 0 ≤ x.val) (hm : w.bTokensToSharesDown x = .ok m)
    (hS : S.val = w.totalShares.val + m.val) (hT : T.val = w.totalBTokens.val + x.val) :
    w.totalBTokens.val * S ≤ T * w.totalShares := by
  have hcross := h.pool.cross_le_deposit hx
  rwa [SharePool.deposit_shares, SharePool.deposit_assets, ← h.minted hm, pool_shares,
    pool_assets, ← hS, ← hT] at hcross

/-- A withdrawal does not lower it either. -/
theorem withdraw_cross (h : w.Sound) (hxT : x.val ≤ w.totalBTokens.val)
    (hm : w.bTokensToSharesUp x = .ok m)
    (hS : S.val = w.totalShares.val - m.val) (hT : T.val = w.totalBTokens.val - x.val) :
    w.totalBTokens.val * S ≤ T * w.totalShares := by
  have hcross := h.pool.cross_le_withdraw (hxT.trans_eq h.pool_assets.symm)
  rwa [SharePool.withdraw_shares, SharePool.withdraw_assets, ← h.burned hm, pool_shares,
    pool_assets, ← hS, ← hT] at hcross

omit [FixedPoint] in
/-- A fee claim leaves the depositors' pool alone. -/
theorem claim (h : w.Sound) : Sound { w with accruedFees := 0 } :=
  ofPool h.pool rfl rfl h.rate_pos le_rfl

end Sound

end ReserveVault

/-! ### Over runs -/

variable {ok : Env Address → Prop} {s s' : State Address} {t : Tx Address} {r : Address}
  {val : Value}

namespace State

/-- The fee mode is admissible and the vault of `r`, if there is one, is sound. -/
structure SoundAt (s : State Address) (r : Address) : Prop where
  feeMode : s.storage.feeMode.Valid
  vault : ∀ v, s.vaultAt r = some v → v.Sound

end State

/-- What every movement works with: the accrued vault, sound and at the pool's rate. -/
theorem State.SoundAt.accrued {e : Env Address} {v w : ReserveVault Address} (hs : s.SoundAt r)
    (hkey : ∀ v, s.vaultAt r = some v → v.address = r) (hrate : 0 < (e.bRate r).val)
    (hv : s.vaultAt r = some v) (hw : v.updateRate e s.storage.feeMode = .ok w) :
    w.Sound ∧ w.bRate = e.bRate r := by
  obtain ⟨fee, hfee⟩ := ReserveVault.updateRate_accrual hw
  have haddr := hkey v hv
  exact ⟨(hs.vault v hv).updateRate hs.feeMode (by rw [haddr]; exact hrate) hw,
    by rw [hfee.bRate, haddr]⟩

variable [DecidableEq Address]

/-- No call stores an invalid fee mode, since `set_fee_mode` checks the value as the
    constructor does. -/
theorem exec_feeMode_valid (hs : s.storage.feeMode.Valid) (h : exec s t = .ok (val, s')) :
    s'.storage.feeMode.Valid := by
  obtain hsame | ⟨fm, hfm, -, hnew⟩ := (exec_settings h).1
  · exact hsame ▸ hs
  · exact hnew ▸ hfm

/-- **Soundness step.**  A call leaves a sound vault sound: accrual skims the pool of shares, a
    movement is one of its movements, and a new vault is the empty pool. -/
theorem Effect.sound (h : Effect t r s s') (hs : s.SoundAt r)
    (hkey : ∀ v, s.vaultAt r = some v → v.address = r) (hrate : 0 < (t.env.bRate r).val) :
    ∀ v, s'.vaultAt r = some v → v.Sound := by
  -- every movement starts from the accrued vault
  have hacc {v w : ReserveVault Address} (present : s.vaultAt r = some v)
      (accrual : v.updateRate t.env s.storage.feeMode = .ok w) : w.Sound :=
    (hs.accrued hkey hrate present accrual).1
  intro v' hv'
  cases h with
  | untouched _ _ vault => exact hs.vault v' (vault ▸ hv')
  | opened _ _ vault =>
    rw [vault] at hv'
    exact Option.some.inj hv' ▸ .ofPool SharePool.empty rfl rfl hrate le_rfl
  | accrued _ present accrual vault =>
    rw [vault] at hv'
    exact Option.some.inj hv' ▸ hacc present accrual
  | deposited _ _ _ present accrual _ bTokens_pos minted _ totalShares totalBTokens vault =>
    rw [vault] at hv'
    exact Option.some.inj hv' ▸
      (hacc present accrual).deposit bTokens_pos.le minted totalShares totalBTokens
  | withdrawn _ _ _ present accrual _ burned _ _ bTokens_le_total _ totalShares totalBTokens
      vault =>
    rw [vault] at hv'
    exact Option.some.inj hv' ▸
      (hacc present accrual).withdraw bTokens_le_total burned totalShares totalBTokens
  | claimed _ present accrual _ _ vault =>
    rw [vault] at hv'
    exact Option.some.inj hv' ▸ (hacc present accrual).claim

/-- **Step.**  A call at a positive rate leaves the vault of `r` sound, whatever it does to it. -/
theorem exec_soundAt (hs : s.SoundAt r) (hkeyed : s.Keyed) (hrate : 0 < (t.env.bRate r).val)
    (h : exec s t = .ok (val, s')) : s'.SoundAt r :=
  ⟨exec_feeMode_valid hs.feeMode h,
    (exec_effect hkeyed h r).sound hs (hkeyed r) hrate⟩

/-- Whatever the pool's rates were, the fee mode is one that was checked. -/
theorem Reachable.feeMode_valid (hs : Reachable ok s) : s.storage.feeMode.Valid := by
  refine Revert.Reachable.invariant (I := fun s => s.storage.feeMode.Valid) ?_ ?_ hs
  · intro s hs
    exact hs.empty.2.2.2.2
  · intro s t _ s' _ hI _ h
    exact exec_feeMode_valid hI h

/-- Where the pool's rate of `r` was positive throughout, `r`'s vault is sound. -/
theorem Reachable.soundAt (hok : ∀ e, ok e → 0 < (e.bRate r).val) (hs : Reachable ok s) :
    s.SoundAt r := by
  refine Revert.Reachable.invariant (I := fun s => s.SoundAt r) ?_ ?_ hs
  · intro s hs
    obtain ⟨hvault, -, -, -, hfm⟩ := hs.empty
    exact ⟨hfm, fun v hv => by rw [hvault r] at hv; cases hv⟩
  · intro s t _ s' hr hI ht h
    have hkeyed := Reachable.keyed (show Reachable ok s from hr)
    exact exec_soundAt hI hkeyed (hok _ ht) h

/-- At positive rates every vault that is stored in a state that can be reached is sound. -/
theorem Reachable.sound (hs : Reachable Env.PositiveRates s) {v : ReserveVault Address}
    (hv : s.vaultAt r = some v) : v.Sound :=
  (hs.soundAt fun _ he => he r).vault v hv

omit [DecidableEq Address] in
/-- The vault every call and view works with. -/
theorem State.SoundAt.updated {e : Env Address} {w : ReserveVault Address} (hs : s.SoundAt r)
    (hkeyed : s.Keyed) (hrate : 0 < (e.bRate r).val)
    (hw : ReserveVault.getReserveVaultUpdated e s.storage r = .ok w) :
    w.Sound ∧ w.bRate = e.bRate r ∧ w.address = r ∧ w.totalShares.val = s.totalSharesAt r := by
  obtain ⟨v, hv, hvw⟩ := ReserveVault.getReserveVaultUpdated_eq_ok.1 hw
  obtain ⟨hsound, hb⟩ := hs.accrued (hkeyed r) hrate hv hvw
  obtain ⟨fee, hfee⟩ := ReserveVault.updateRate_accrual hvw
  exact ⟨hsound, hb, hfee.address.trans (hkeyed r v hv),
    by rw [hfee.totalShares, State.totalSharesAt_some hv]⟩

/-! ### The share checks that never fire -/

section Checks

variable {e : Env Address} {u : Address} {a : I128}

/-- The bookkeeping of a deposit traps or stops at the bTokens minted: a positive number of them
    always mints a positive number of shares. -/
theorem deposit_booked_failsOnly {P : Failure → Prop} (hs : s.SoundAt r) (hkeyed : s.Keyed)
    (hrate : 0 < (e.bRate r).val) (htrap : P .arithmetic)
    (hreserve : (∃ v, s.vaultAt r = some v) ∨ P (.contract .reserveNotFound))
    (hminted : 0 < MulDiv.floor a scalar12 (e.bRate r) ∨ P (.contract .invalidBTokensMinted)) :
    FailsOnly P (ReserveVault.deposit e s.storage r u a) := by
  refine .bind (ReserveVault.getReserveVaultUpdated_failsOnly htrap hreserve) ?_
  intro w hw
  obtain ⟨hsound, hb, -⟩ := hs.updated hkeyed hrate hw
  refine .bind (failsOnly_unwrap htrap _) ?_
  intro x hx
  rw [← hb, ← ((ReserveVault.underlyingToBTokensDown_eq_ok hsound.rate_pos).1 hx).2] at hminted
  refine .bind (failsOnly_positive hminted) ?_
  intro _ hx0
  refine .bind (ReserveVault.bTokensToSharesDown_failsOnly htrap) ?_
  intro m hm
  -- the check on the shares passes, because the bTokens are positive
  refine .bind (failsOnly_positive (.inl ?_)) fun _ _ => ?_
  · rw [requirePositive_eq_ok] at hx0
    rw [hsound.minted hm]
    exact lt_of_lt_of_le hx0 (hsound.pool.le_minted hx0.le)
  · exact .bind (failsOnly_unwrap htrap _) fun _ _ => .bind (failsOnly_unwrap htrap _) fun _ _ =>
      .bind (failsOnly_unwrap htrap _) fun _ _ => .ok _

/-- The check for shares minted never refuses a deposit: a deposit worth a bToken mints
    a share. -/
theorem deposit_mints_shares (hs : s.SoundAt r) (hkeyed : s.Keyed) (hrate : 0 < (e.bRate r).val) :
    FailsOnly (· ≠ .contract .invalidSharesMinted) (Contract.deposit e s r u a) :=
  Contract.deposit_failsOnly (.inr (by decide)) (.inr (by decide)) (.inr (by decide))
    (.inr (by decide)) fun _ =>
      deposit_booked_failsOnly hs hkeyed hrate (by decide) (.inr (by decide)) (.inr (by decide))

/-- A positive amount always burns a positive number of shares, both conversions rounding up, so
    that the check on them never refuses a withdrawal. -/
theorem withdraw_burns_shares (hs : s.SoundAt r) (hkeyed : s.Keyed)
    (hrate : 0 < (e.bRate r).val) :
    FailsOnly (· ≠ .contract .invalidBTokensBurnt) (Contract.withdraw e s r u a) := by
  have htrap : Failure.arithmetic ≠ .contract .invalidBTokensBurnt := by decide
  refine Contract.withdraw_failsOnly (.inr (by decide)) (.inr (by decide)) (.inr (by decide))
    (.inr (by decide)) ?_
  intro ha
  refine .bind (ReserveVault.getReserveVaultUpdated_failsOnly htrap (.inr (by decide))) ?_
  intro w hw
  refine .bind (failsOnly_unwrap htrap _) ?_
  intro x hx
  refine .bind (ReserveVault.bTokensToSharesUp_failsOnly htrap) ?_
  intro m hm
  -- the check on the shares passes, because the amount is positive
  refine .bind (failsOnly_positive (.inl ?_)) fun _ _ => ?_
  · exact ((hs.updated hkeyed hrate hw).1.burned_pos ha hx hm).2
  · split
    · exact .error (by decide)
    split
    · exact .error (by decide)
    · exact .bind (failsOnly_unwrap htrap _) fun _ _ =>
        .bind (failsOnly_unwrap htrap _) fun _ _ =>
        .bind (failsOnly_unwrap htrap _) fun _ _ => .ok _

end Checks

/-- The share price of every reserve of a state: at most one bToken, and never degenerate. -/
structure SharePriceSound (s : State Address) : Prop where
  bTokens_nonneg : ∀ r v, s.storage.resVault r = some v → 0 ≤ v.totalBTokens.val
  bTokens_le_shares : ∀ r v, s.storage.resVault r = some v →
    v.totalBTokens.val ≤ v.totalShares.val
  fees_nonneg : ∀ r v, s.storage.resVault r = some v → 0 ≤ v.accruedFees.val
  shares_eq_zero_iff : ∀ r v, s.storage.resVault r = some v →
    (v.totalShares.val = 0 ↔ v.totalBTokens.val = 0)
  /-- A deposit mints at least as many shares as bTokens, … -/
  bTokens_le_minted : ∀ (e : Env Address) r u a bTokens shares st, e.PositiveRates →
    ReserveVault.deposit e s.storage r u a = .ok ((bTokens, shares), st) →
      bTokens.val ≤ shares.val
  /-- … so it never mints none, … -/
  shares_minted : ∀ (e : Env Address) r u a, e.PositiveRates →
    Contract.deposit e s r u a ≠ .error (.contract .invalidSharesMinted)
  /-- … and a withdrawal never burns none. -/
  shares_burnt : ∀ (e : Env Address) r u a, e.PositiveRates →
    Contract.withdraw e s r u a ≠ .error (.contract .invalidBTokensBurnt)

/-- **Share price.**  While the pool's rates are positive, a share is worth at most one bToken
    and a vault has shares exactly when it has bTokens. -/
theorem reachable_sharePriceSound (hs : Reachable Env.PositiveRates s) : SharePriceSound s where
  bTokens_nonneg _ _ hv := (hs.sound hv).bTokens_nonneg
  bTokens_le_shares _ _ hv := (hs.sound hv).bTokens_le_shares
  fees_nonneg _ _ hv := (hs.sound hv).fees_nonneg
  shares_eq_zero_iff _ _ hv := (hs.sound hv).pool.assets_eq_zero_iff.symm
  bTokens_le_minted e r u a x m st he h := by
    obtain ⟨w, S, T, bal, hw, -, hx0, hm, -⟩ := ReserveVault.deposit_eq_ok h
    obtain ⟨hsound, -⟩ := (hs.soundAt fun _ he => he r).updated hs.keyed (he r) hw
    rw [hsound.minted hm]
    exact hsound.pool.le_minted hx0.le
  shares_minted e r u a he h :=
    deposit_mints_shares (hs.soundAt fun _ he => he r) hs.keyed (he r) _ h rfl
  shares_burnt e r u a he h :=
    withdraw_burns_shares (hs.soundAt fun _ he => he r) hs.keyed (he r) _ h rfl

omit [FixedPoint] in
/-- The guarantees at the end of the concrete run. -/
theorem sharePriceSound_demo : @SharePriceSound ℕ FixedPoint.reference _ Demo.state :=
  @reachable_sharePriceSound ℕ FixedPoint.reference _ _ Demo.state_reachable

end FeeVault
