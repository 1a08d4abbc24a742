import FeeVault.Soundness

namespace FeeVault

open FixedPoint

/-!
# What the view shows can be taken out, and nothing more

The view of a position goes down through two floors, shares to bTokens to underlying; a
withdrawal comes up through two ceilings.  Each ceiling is the lower adjoint of the floor it
answers (`MulDiv.gc_ceil_floor`), so the withdrawable amounts are exactly those up to the view.

* `ReserveVault.Sound.withdraw_iff` — the adjunction on the accrued vault, overflow included: the
  products of a withdrawal are bounded by those of the view;
* `withdraw_ok_iff` — the whole entry point;
* `displayed_isWithdrawable` — the two together, and what is left after taking everything out;
* `deposit_redeemable_iff` — after a deposit the view is only shown while its own products fit,
  which the deposit into an empty vault does not check.
-/

variable {Address : Type} [FixedPoint]

namespace ReserveVault

variable {w : ReserveVault Address} {a o v x z : I128}

/-! ### Conversions as far as they fit -/

omit [FixedPoint] in
/-- Shares that exist are worth at most the bTokens that exist. -/
theorem Sound.floor_fits (h : w.Sound) (ho : 0 < o.val) (hoS : o.val ≤ w.totalShares) :
    FitsI128 (MulDiv.floor o w.totalBTokens w.totalShares) := by
  have hS := lt_of_lt_of_le ho hoS
  exact fitsI128_of_le (MulDiv.floor_nonneg ho.le h.bTokens_nonneg hS)
    (h.pool.floor_le_assets hS hoS) w.totalBTokens.fits

/-- The first floor is stopped by its product only. -/
theorem Sound.sharesToBTokensDown_isOk (h : w.Sound) (ho : 0 < o.val)
    (hoS : o.val ≤ w.totalShares) :
    (∃ z, w.sharesToBTokensDown o = .ok z) ↔ FitsI128 (o * w.totalBTokens) := by
  have hS := lt_of_lt_of_le ho hoS
  constructor
  · rintro ⟨z, hz⟩
    exact ((sharesToBTokensDown_eq_ok hS).1 hz).1
  intro hfits
  exact ⟨⟨_, h.floor_fits ho hoS⟩, (sharesToBTokensDown_eq_ok hS).2 ⟨hfits, rfl⟩⟩

/-- So is the second. -/
theorem bTokensToUnderlyingDown_isOk (hb : 0 ≤ w.bRate.val) (hz : 0 ≤ z.val) :
    (∃ v, w.bTokensToUnderlyingDown z = .ok v) ↔ FitsI128 (z * w.bRate) := by
  constructor
  · rintro ⟨v, hv⟩
    exact (bTokensToUnderlyingDown_eq_ok.1 hv).1
  intro hfits
  have hle : MulDiv.floor z w.bRate scalar12 ≤ z * w.bRate.val :=
    Int.ediv_le_self _ (mul_nonneg hz hb)
  exact ⟨⟨_, fitsI128_of_le (MulDiv.floor_nonneg hz hb scalar12_pos) hle hfits⟩,
    bTokensToUnderlyingDown_eq_ok.2 ⟨hfits, rfl⟩⟩

/-! ### The adjunction -/

/-- **Adjunction.**  Where the view of `o` shares goes down to `z` bTokens and `v` underlying, an
    amount burns at most `o` shares exactly when it is at most `v`; and no product of the way up
    overflows when it is. -/
theorem Sound.withdraw_iff (h : w.Sound) (ho : 0 < o.val) (hoS : o.val ≤ w.totalShares)
    (hz : w.sharesToBTokensDown o = .ok z) (hv : w.bTokensToUnderlyingDown z = .ok v)
    (ha : 0 < a.val) :
    (∃ x m, w.underlyingToBTokensUp a = .ok x ∧ w.bTokensToSharesUp x = .ok m ∧
      m.val ≤ o.val) ↔ a.val ≤ v := by
  have hS := lt_of_lt_of_le ho hoS
  have hT := h.pool.assets_pos hS
  have hK : 0 < scalar12.val := scalar12_pos
  obtain ⟨hzfits, hzval⟩ := (sharesToBTokensDown_eq_ok hS).1 hz
  obtain ⟨hvfits, hvval⟩ := bTokensToUnderlyingDown_eq_ok.1 hv
  -- the two floors and the two ceilings, each against its adjoint
  have hup : MulDiv.ceil a scalar12 w.bRate ≤ z ↔ a.val ≤ v := by
    rw [MulDiv.ceil_le_iff_le_floor hK h.rate_pos, hvval]
  have hburn (x : ℤ) : h.pool.burned x ≤ o ↔ x ≤ z := by
    rw [h.pool.burned_le_iff hS, hzval]
    rfl
  constructor
  · rintro ⟨x, m, hx, hm, hmo⟩
    rw [h.burned hm, hburn, ((underlyingToBTokensUp_eq_ok h.rate_pos).1 hx).2] at hmo
    exact hup.1 hmo
  · intro hav
    have hxz := hup.2 hav
    have hx0 := MulDiv.ceil_pos ha hK h.rate_pos
    have hafits : FitsI128 (a * scalar12) := by
      refine fitsI128_of_le (mul_nonneg ha.le hK.le) ?_ hvfits
      calc a.val * scalar12 ≤ v * scalar12 := mul_le_mul_of_nonneg_right hav hK.le
        _ ≤ z * w.bRate.val := by rw [hvval]; exact MulDiv.floor_mul_le hK
    let x : I128 := ⟨_, fitsI128_of_le hx0.le hxz z.fits⟩
    have hx : w.underlyingToBTokensUp a = .ok x :=
      (underlyingToBTokensUp_eq_ok h.rate_pos).2 ⟨hafits, rfl⟩
    have hmo : MulDiv.ceil x w.totalShares w.totalBTokens ≤ o :=
      (MulDiv.ceil_le_iff_le_floor hS hT).2 (hzval ▸ hxz)
    have hxfits : FitsI128 (x * w.totalShares) := by
      refine fitsI128_of_le (mul_nonneg hx0.le hS.le) ?_ hzfits
      calc x.val * w.totalShares ≤ z * w.totalShares := mul_le_mul_of_nonneg_right hxz hS.le
        _ ≤ o * w.totalBTokens.val := by rw [hzval]; exact MulDiv.floor_mul_le hS
    exact ⟨x, ⟨_, fitsI128_of_le (MulDiv.ceil_nonneg hx0.le hS.le hT) hmo o.fits⟩, hx,
      (bTokensToSharesUp_eq_ok hS.ne' hT).2 ⟨hxfits, rfl⟩, hmo⟩

end ReserveVault

/-! ### The entry point -/

variable [DecidableEq Address]
variable {e : Env Address} {s s' : State Address} {r u : Address} {a v y : I128}
  {w : ReserveVault Address}

/-- The bookkeeping of a withdrawal succeeds once its conversions and checks do. -/
theorem ReserveVault.withdraw_isOk {st : Storage Address} {x m : I128}
    (hw : getReserveVaultUpdated e st r = .ok w) (hx : w.underlyingToBTokensUp a = .ok x)
    (hm : w.bTokensToSharesUp x = .ok m) (hx0 : 0 ≤ x.val) (hm0 : 0 < m.val)
    (hmS : m.val ≤ w.totalShares) (hxT : x.val ≤ w.totalBTokens)
    (hbal : m.val ≤ st.getReserveVaultShares w.address u) :
    ∃ res, ReserveVault.withdraw e st r u a = .ok res := by
  obtain ⟨S, hS, -⟩ := I128.checkedSub_isSome hm0.le hmS
  obtain ⟨T, hT, -⟩ := I128.checkedSub_isSome hx0 hxT
  obtain ⟨bal, hbal', -⟩ := I128.checkedSub_isSome hm0.le hbal
  have hchecks : ¬ (w.totalShares < m ∨ w.totalBTokens < x) := by
    simp only [I128.lt_iff, not_or, not_lt]
    exact ⟨hmS, hxT⟩
  have hbalance : ¬ m > st.getReserveVaultShares w.address u := not_lt.2 hbal
  have hpos : requirePositive m .invalidBTokensBurnt = .ok () := requirePositive_eq_ok.2 hm0
  rw [withdraw, hw, ok_bind, hx, ok_bind, hm, ok_bind, hpos, ok_bind, if_neg hchecks,
    if_neg hbalance, hS, hT, hbal']
  exact ⟨_, rfl⟩

/-- The checks of the bookkeeping are met by whoever holds the shares it asks for. -/
theorem withdraw_booked {x m : I128} (hs : s.SoundAt r) (hc : s.Conserved r) (hkeyed : s.Keyed)
    (hrate : 0 < (e.bRate r).val) (ha : 0 < a.val)
    (hw : ReserveVault.getReserveVaultUpdated e s.storage r = .ok w)
    (hx : w.underlyingToBTokensUp a = .ok x) (hm : w.bTokensToSharesUp x = .ok m)
    (hbal : m.val ≤ s.sharesAt r u) : ∃ res, ReserveVault.withdraw e s.storage r u a = .ok res := by
  obtain ⟨hsound, -, haddr, htotal⟩ := hs.updated hkeyed hrate hw
  obtain ⟨hx0, hm0⟩ := hsound.burned_pos ha hx hm
  have hmS : m.val ≤ w.totalShares := htotal ▸ hbal.trans (hc.le_total u)
  have hS := lt_of_lt_of_le hm0 hmS
  have hxT : x.val ≤ w.totalBTokens := by
    have hburned := hsound.burned hm ▸ hmS
    rw [← hsound.pool_shares, hsound.pool.burned_le_iff hS] at hburned
    exact hburned.trans (hsound.pool.floor_le_assets hS le_rfl)
  exact ReserveVault.withdraw_isOk (u := u) hw hx hm hx0.le hm0 hmS hxT (by rw [haddr]; exact hbal)

/-- A withdrawal the user authorized and the pool accepts succeeds exactly when the conversions
    do and the user holds the shares they ask for. -/
theorem withdraw_ok_iff (hs : s.SoundAt r) (hc : s.Conserved r) (hkeyed : s.Keyed)
    (hrate : 0 < (e.bRate r).val) (hauth : e.authorized u = true) (hpool : e.poolAccepts = true) :
    (∃ res, Contract.withdraw e s r u a = .ok res) ↔ 0 < a.val ∧
      ∃ w x m, ReserveVault.getReserveVaultUpdated e s.storage r = .ok w ∧
        w.underlyingToBTokensUp a = .ok x ∧ w.bTokensToSharesUp x = .ok m ∧
        m.val ≤ s.sharesAt r u := by
  constructor
  · rintro ⟨⟨y, s'⟩, h⟩
    obtain ⟨x, -, ha, -, hst⟩ := Contract.withdraw_eq_ok h
    obtain ⟨w, S, T, bal, hw, hx, hm, -, -, -, hbal, -⟩ := ReserveVault.withdraw_eq_ok hst
    rw [(hs.updated hkeyed hrate hw).2.2.1] at hbal
    exact ⟨ha, w, x, y, hw, hx, hm, hbal⟩
  · rintro ⟨ha, w, x, m, hw, hx, hm, hbal⟩
    obtain ⟨⟨res, st'⟩, hres⟩ := withdraw_booked hs hc hkeyed hrate ha hw hx hm hbal
    obtain ⟨p, hp⟩ : ∃ p, s.pool.withdraw e r u a = .ok p := by
      simp only [Pool.withdraw, hpool, if_true]
      split
      · exact ⟨_, rfl⟩
      · exact ⟨_, rfl⟩
    have hauth : e.requireAuth u = .ok () := requireAuth_eq_ok.2 hauth
    obtain ⟨v, hv, -⟩ := ReserveVault.getReserveVaultUpdated_eq_ok.1 hw
    have hhas : requireHasReserve s.storage r = .ok () := requireHasReserve_eq_ok.2 ⟨v, hv⟩
    have hpos : requirePositive a .invalidAmount = .ok () := requirePositive_eq_ok.2 ha
    rw [Contract.withdraw, hauth, ok_bind, hhas, ok_bind, hpos, ok_bind, hp, ok_bind, hres]
    exact ⟨_, rfl⟩

/-- **Withdrawable amounts.**  Exactly those from `1` to the view: rounding the request up to
    bTokens and to shares is adjoint to rounding the balance down to what is shown. -/
theorem withdraw_ok_iff_le_view (hs : s.SoundAt r) (hc : s.Conserved r) (hkeyed : s.Keyed)
    (hrate : 0 < (e.bRate r).val) (hauth : e.authorized u = true) (hpool : e.poolAccepts = true)
    (hview : Contract.getUnderlyingTokens e s r u = .ok v) :
    (∃ res, Contract.withdraw e s r u a = .ok res) ↔ 1 ≤ a.val ∧ a.val ≤ v.val := by
  rw [withdraw_ok_iff hs hc hkeyed hrate hauth hpool]
  apply and_congr_right
  intro ha
  by_cases hu : 0 < s.sharesAt r u
  · obtain ⟨w, hw, z, hz, hv⟩ := (Contract.getUnderlyingTokens_eq_ok hu).1 hview
    obtain ⟨hsound, -, -, htotal⟩ := hs.updated hkeyed hrate hw
    have hoS : s.sharesAt r u ≤ w.totalShares := htotal ▸ hc.le_total u
    rw [← hsound.withdraw_iff hu hoS hz hv ha]
    constructor
    · rintro ⟨w', x, m, hw', hx, hm, hmo⟩
      obtain rfl : w = w' := Except.ok.inj (hw.symm.trans hw')
      exact ⟨x, m, hx, hm, hmo⟩
    · rintro ⟨x, m, hx, hm, hmo⟩
      exact ⟨w, x, m, hw, hx, hm, hmo⟩
  · -- nothing is shown, and any withdrawal would burn a share
    rw [Contract.getUnderlyingTokens_of_no_shares hu] at hview
    rw [← Except.ok.inj hview, I128.val_zero]
    refine iff_of_false ?_ (not_le.2 ha)
    rintro ⟨w, x, m, hw, hx, hm, hmo⟩
    have hm0 := ((hs.updated hkeyed hrate hw).1.burned_pos ha hx hm).2
    omega

/-! ### Taking everything out -/

/-- What the displayed balance of `u` in `r` says about withdrawing, in the surroundings `e`. -/
structure DisplayedIsWithdrawable (e : Env Address) (s : State Address) (r u : Address)
    (v : I128) : Prop where
  /-- Exactly the amounts up to it can be withdrawn. -/
  withdraw_ok_iff : ∀ a, (∃ res, Contract.withdraw e s r u a = .ok res) ↔
    1 ≤ a.val ∧ a.val ≤ v.val
  /-- From a rate of one on, withdrawing all of it leaves no bTokens, … -/
  emptied : scalar12.val ≤ e.bRate r → 0 < v.val → ∀ y s',
    Contract.withdraw e s r u v = .ok (y, s') → Contract.getBTokens e s' r u = .ok 0
  /-- … and an empty vault behind if nobody else held shares. -/
  last_emptied : scalar12.val ≤ e.bRate r → 0 < v.val → ∀ y s' v₀,
    Contract.withdraw e s r u v = .ok (y, s') → s.storage.resVault r = some v₀ →
    (Contract.getShares s r u).val = v₀.totalShares →
    ∃ w, s'.storage.resVault r = some w ∧ w.totalShares.val = 0 ∧ w.totalBTokens.val = 0

omit [DecidableEq Address] in
/-- Withdrawing all that is shown burns the bTokens the shares are worth, rounded down. -/
theorem withdraw_view {x z : I128} (hw : w.Sound) (hrate : scalar12.val ≤ w.bRate)
    (hv : w.bTokensToUnderlyingDown z = .ok v) (hx : w.underlyingToBTokensUp v = .ok x) :
    x.val = z := by
  rw [((ReserveVault.underlyingToBTokensUp_eq_ok hw.rate_pos).1 hx).2,
    (ReserveVault.bTokensToUnderlyingDown_eq_ok.1 hv).2]
  exact MulDiv.ceil_floor_eq scalar12_pos hrate

/-- What is left of vault and position after withdrawing all that is shown: the totals of the
    share pool after that withdrawal, accrued already. -/
theorem withdraw_all (hs : s.SoundAt r) (hc : s.Conserved r) (hkeyed : s.Keyed)
    (hrate : 0 < (e.bRate r).val) (hK : scalar12.val ≤ e.bRate r) (hv0 : 0 < v.val)
    (hview : Contract.getUnderlyingTokens e s r u = .ok v)
    (h : Contract.withdraw e s r u v = .ok (y, s')) :
    ∃ p : SharePool, ∃ w : ReserveVault Address, p.shares = s.totalSharesAt r ∧ 0 < p.shares ∧
      y.val = p.burned (MulDiv.floor (s.sharesAt r u) p.assets p.shares) ∧
      w.totalShares.val = p.shares - y ∧
      w.totalBTokens.val = p.assets - MulDiv.floor (s.sharesAt r u) p.assets p.shares ∧
      s'.vaultAt r = some w ∧ ReserveVault.getReserveVaultUpdated e s'.storage r = .ok w ∧
      s'.sharesAt r u = s.sharesAt r u - y.val := by
  by_cases hu : 0 < s.sharesAt r u
  · obtain ⟨w, x, S, T, hw, hx, hm, -, -, hS, hT, hvault, hw', hshares⟩ := withdraw_updated hkeyed h
    obtain ⟨w₁, hw₁, z, hz, hv⟩ := (Contract.getUnderlyingTokens_eq_ok hu).1 hview
    obtain rfl : w = w₁ := Except.ok.inj (hw.symm.trans hw₁)
    obtain ⟨hsound, hb, -, htotal⟩ := hs.updated hkeyed hrate hw
    have hwS : 0 < w.totalShares.val := htotal ▸ lt_of_lt_of_le hu (hc.le_total u)
    have hxz := withdraw_view hsound (hb ▸ hK) hv hx
    rw [((ReserveVault.sharesToBTokensDown_eq_ok hwS).1 hz).2] at hxz
    have hy := hsound.burned hm
    rw [hxz] at hy hT
    exact ⟨hsound.pool, _, htotal, hwS, hy, hS, hT, hvault, hw', hshares⟩
  · rw [Contract.getUnderlyingTokens_of_no_shares hu] at hview
    rw [← Except.ok.inj hview] at hv0
    exact absurd hv0 (lt_irrefl _)

/-- **Displayed is withdrawable.**  In every reachable state, whatever interest is pending. -/
theorem displayed_isWithdrawable (hs : Reachable (fun e => 0 < (e.bRate r).val) s)
    (hrate : 0 < (e.bRate r).val) (hauth : e.authorized u = true) (hpool : e.poolAccepts = true)
    (hview : Contract.getUnderlyingTokens e s r u = .ok v) :
    DisplayedIsWithdrawable e s r u v := by
  have hsound := hs.soundAt fun _ he => he
  have hc := hs.conserved r
  refine ⟨fun a => withdraw_ok_iff_le_view hsound hc hs.keyed hrate hauth hpool hview, ?_, ?_⟩
  · intro hK hv0 y s' h
    obtain ⟨p, w, htotal, hS, hy, hwS, hwT, -, hw, hshares⟩ :=
      withdraw_all hsound hc hs.keyed hrate hK hv0 hview h
    by_cases hu : 0 < s'.sharesAt r u
    · have hle := htotal ▸ hc.le_total u
      have hrest := p.rest_lt hS hle (by rw [← hy]; omega)
      rw [← hy, ← hshares, ← hwS, ← hwT] at hrest
      have hS0 : 0 < w.totalShares.val := by omega
      have hT0 : 0 ≤ w.totalBTokens.val := hwT ▸ sub_nonneg.2 (p.floor_le_assets hS hle)
      rw [Contract.getBTokens_eq_ok hu]
      refine ⟨w, hw, (ReserveVault.sharesToBTokensDown_eq_ok hS0).2 ⟨?_, ?_⟩⟩
      · exact fitsI128_of_le (mul_nonneg hu.le hT0) hrest.le w.totalShares.fits
      · exact (MulDiv.floor_eq_zero (mul_nonneg hu.le hT0) hrest).symm
    · exact Contract.getBTokens_of_no_shares hu
  · intro hK hv0 y s' v₀ h hv₀ hheld
    obtain ⟨p, w, htotal, hS, hy, hwS, hwT, hvault, -⟩ :=
      withdraw_all hsound hc hs.keyed hrate hK hv0 hview h
    have hall : s.sharesAt r u = p.shares := by
      rw [htotal, State.totalSharesAt_some hv₀]
      exact hheld
    have hz : MulDiv.floor (s.sharesAt r u) p.assets p.shares = p.assets := by
      rw [hall, MulDiv.floor, Int.mul_ediv_cancel_left _ hS.ne']
    rw [hz] at hwT hy
    rw [p.burned_assets] at hy
    exact ⟨w, hvault, by omega, by omega⟩

omit [FixedPoint] in
/-- User `3` of the concrete run sees `116295463` units at a rate of 1.3. -/
theorem displayed_isWithdrawable_demo : @DisplayedIsWithdrawable ℕ FixedPoint.reference _
    (Demo.env 80 (I128.ofUInt64 1300000000000) 3) Demo.state 7 3 (I128.ofUInt64 116295463) :=
  @displayed_isWithdrawable ℕ FixedPoint.reference _ _ _ _ _ _
    (Demo.state_reachable.mono fun _ h => h 7) (by decide) (by decide) (by decide) (by decide)

/-! ### What a deposit may take in -/

/-- A position that can be seen and taken out. -/
def Redeemable (e : Env Address) (s : State Address) (r u : Address) : Prop :=
  (∃ z, Contract.getBTokens e s r u = .ok z) ∧
    ∃ v, Contract.getUnderlyingTokens e s r u = .ok v ∧
      (0 < v.val → ∃ res, Contract.withdraw e s r u v = .ok res)

/-- Whether the products the views form after a deposit of `amount` fit: `w` is the accrued vault
    before it and `shares` what the depositor already holds. -/
def DepositFits (w : ReserveVault Address) (shares amount : ℤ) : Prop :=
  let bTokens := MulDiv.floor amount scalar12 w.bRate
  let minted := if w.totalShares.val = 0 then bTokens
    else MulDiv.floor bTokens w.totalShares w.totalBTokens
  (shares + minted) * (w.totalBTokens + bTokens) < 2 ^ 127 ∧
    MulDiv.floor (shares + minted) (w.totalBTokens + bTokens) (w.totalShares + minted) * w.bRate <
      2 ^ 127

instance (w : ReserveVault Address) (shares amount : ℤ) : Decidable (DepositFits w shares amount) :=
  inferInstanceAs (Decidable (_ ∧ _))

omit [DecidableEq Address] in
/-- The views of a position return exactly when their products fit: that of shares and total
    bTokens, and that of bTokens and rate. -/
theorem views_isOk_iff (hs : s.SoundAt r) (hc : s.Conserved r) (hkeyed : s.Keyed)
    (hrate : 0 < (e.bRate r).val) (hu : 0 < s.sharesAt r u)
    (hw : ReserveVault.getReserveVaultUpdated e s.storage r = .ok w) :
    ((∃ z, Contract.getBTokens e s r u = .ok z) ∧
        ∃ v, Contract.getUnderlyingTokens e s r u = .ok v) ↔
      s.sharesAt r u * w.totalBTokens < 2 ^ 127 ∧
        MulDiv.floor (s.sharesAt r u) w.totalBTokens w.totalShares * w.bRate < 2 ^ 127 := by
  obtain ⟨hsound, -, -, htotal⟩ := hs.updated hkeyed hrate hw
  have hoS : s.sharesAt r u ≤ w.totalShares := htotal ▸ hc.le_total u
  have hS := lt_of_lt_of_le hu hoS
  have hz0 := MulDiv.floor_nonneg hu.le hsound.bTokens_nonneg hS
  have hfits {q : ℤ} (hq : 0 ≤ q) : FitsI128 q ↔ q < 2 ^ 127 := ⟨And.right, fitsI128_of_lt hq⟩
  have hviews : (∃ z, w.sharesToBTokensDown (Contract.getShares s r u) = .ok z) ↔
      s.sharesAt r u * w.totalBTokens < 2 ^ 127 :=
    (hsound.sharesToBTokensDown_isOk hu hoS).trans
      (hfits (mul_nonneg hu.le hsound.bTokens_nonneg))
  have hupdated {w' : ReserveVault Address}
      (hw' : ReserveVault.getReserveVaultUpdated e s.storage r = .ok w') : w = w' :=
    Except.ok.inj (hw.symm.trans hw')
  simp only [Contract.getBTokens_eq_ok hu, Contract.getUnderlyingTokens_eq_ok hu]
  constructor
  · rintro ⟨⟨z, w₁, hw₁, hz⟩, v, w₂, hw₂, z', hz', hv⟩
    obtain rfl := hupdated hw₁
    obtain rfl := hupdated hw₂
    refine ⟨hviews.1 ⟨z, hz⟩, ?_⟩
    have hfit := (ReserveVault.bTokensToUnderlyingDown_eq_ok.1 hv).1.2
    rwa [((ReserveVault.sharesToBTokensDown_eq_ok hS).1 hz').2] at hfit
  · rintro ⟨hprod, hvalue⟩
    obtain ⟨z, hz⟩ := hviews.2 hprod
    have hzval : z.val = MulDiv.floor (s.sharesAt r u) w.totalBTokens w.totalShares :=
      ((ReserveVault.sharesToBTokensDown_eq_ok hS).1 hz).2
    obtain ⟨v, hv⟩ := (ReserveVault.bTokensToUnderlyingDown_isOk hsound.rate_pos.le
      (hzval ▸ hz0)).2 ((hfits (mul_nonneg (hzval ▸ hz0) hsound.rate_pos.le)).2 (hzval ▸ hvalue))
    exact ⟨⟨z, w, hw, hz⟩, v, w, hw, z, hz, hv⟩

/-- **Accepted deposits.**  A deposit the contract accepts can be seen and taken out again
    exactly when the products of the views fit. -/
theorem deposit_redeemable_iff (hs : Reachable (fun e => 0 < (e.bRate r).val) s)
    (hrate : 0 < (e.bRate r).val) (hw : Contract.getReserveVault e s r = .ok w)
    (h : Contract.deposit e s r u a = .ok (y, s')) :
    Redeemable e s' r u ↔ DepositFits w (Contract.getShares s r u) a := by
  obtain ⟨w₁, x, S, T, hw₁, hx, hx0, hm, hS, hT, -, hw', hshares⟩ := deposit_updated hs.keyed h
  obtain rfl : w = w₁ := Except.ok.inj (hw.symm.trans hw₁)
  obtain ⟨hsound, -⟩ := (hs.soundAt fun _ he => he).updated hs.keyed hrate hw₁
  have hs' := hs.deposit hrate h
  have hsound' := hs'.soundAt fun _ he => he
  have hc' := hs'.conserved r
  obtain ⟨-, hauth, -, hp, -⟩ := Contract.deposit_eq_ok h
  have hpool := Pool.supply_accepted hp
  have hy0 : 0 < y.val := hsound.minted hm ▸ lt_of_lt_of_le hx0 (hsound.pool.le_minted hx0.le)
  have hu : 0 < s'.sharesAt r u := by
    rw [hshares]
    exact add_pos_of_nonneg_of_pos ((hs.conserved r).nonneg u) hy0
  have hfits : DepositFits w (Contract.getShares s r u) a ↔ s'.sharesAt r u * T < 2 ^ 127 ∧
      MulDiv.floor (s'.sharesAt r u) T S * w.bRate < 2 ^ 127 := by
    rw [DepositFits, ← ((ReserveVault.underlyingToBTokensDown_eq_ok hsound.rate_pos).1 hx).2,
      hshares, hS, hT, hsound.minted hm, SharePool.minted]
    rfl
  rw [hfits, ← views_isOk_iff hsound' hc' hs'.keyed hrate hu hw']
  -- a view that returns is withdrawable, so only the two returns are left
  apply and_congr_right
  intro _
  apply exists_congr
  intro v
  apply and_iff_left_of_imp
  intro hv hv0
  exact (withdraw_ok_iff_le_view hsound' hc' hs'.keyed hrate hauth hpool hv).2 ⟨hv0, le_rfl⟩

omit [FixedPoint] in
/-- A small deposit after the concrete run is redeemable. -/
theorem deposit_redeemable_demo : ∃ y s', @Contract.deposit ℕ _ FixedPoint.reference
      (Demo.env 40 (I128.ofUInt64 1200000000000) 3) Demo.state 7 3 (I128.ofUInt64 1000) =
        .ok (y, s') ∧
    @Redeemable ℕ FixedPoint.reference _ (Demo.env 40 (I128.ofUInt64 1200000000000) 3) s' 7 3 := by
  cases h : @Contract.deposit ℕ _ FixedPoint.reference
      (Demo.env 40 (I128.ofUInt64 1200000000000) 3) Demo.state 7 3 (I128.ofUInt64 1000) with
  | ok res =>
    refine ⟨res.1, res.2, rfl, ?_⟩
    exact (@deposit_redeemable_iff ℕ FixedPoint.reference _ _ _ _ _ _ _ _ Demo.vault
      (Demo.state_reachable.mono fun _ h => h 7) (by decide) (by decide) h).2 (by decide)
  | error f =>
    have hok : (@Contract.deposit ℕ _ FixedPoint.reference
      (Demo.env 40 (I128.ofUInt64 1200000000000) 3) Demo.state 7 3
        (I128.ofUInt64 1000)).isOk = true := by decide
    rw [h] at hok
    cases hok

/-- The contract with reserve `7` just opened at a rate of one. -/
def Demo.opened : State ℕ :=
  Revert.run (@exec ℕ _ FixedPoint.reference) deployed [⟨env 10 scalar12 0, .addReserveVault 7⟩]

omit [FixedPoint] in
/-- Fifteen tokens of eighteen decimals are accepted by an empty vault, and then neither
    view returns. -/
theorem deposit_not_redeemable : ¬ ∀ (s s' : State ℕ) (e : Env ℕ) (r u : ℕ) (a y : I128),
    @Reachable ℕ _ FixedPoint.reference (fun e => 0 < (e.bRate r).val) s → 0 < (e.bRate r).val →
    @Contract.deposit ℕ _ FixedPoint.reference e s r u a = .ok (y, s') →
    @Redeemable ℕ FixedPoint.reference _ e s' r u := by
  intro hclaim
  let amount := I128.ofUInt64 15000000000000000000
  have hreach : @Reachable ℕ _ FixedPoint.reference (fun e => 0 < (e.bRate 7).val) Demo.opened := by
    refine Revert.Reachable.run (.init Demo.deployed_deployed) fun t ht => ?_
    obtain rfl := List.mem_singleton.1 ht
    decide
  have hviews : ((@Contract.deposit ℕ _ FixedPoint.reference (Demo.env 20 scalar12 3) Demo.opened
      7 3 amount).bind fun res => @Contract.getBTokens ℕ FixedPoint.reference
        (Demo.env 20 scalar12 3) res.2 7 3) = .error .arithmetic := by decide
  have hok : (@Contract.deposit ℕ _ FixedPoint.reference (Demo.env 20 scalar12 3) Demo.opened
      7 3 amount).isOk = true := by decide
  cases h : @Contract.deposit ℕ _ FixedPoint.reference (Demo.env 20 scalar12 3) Demo.opened
      7 3 amount with
  | ok res =>
    obtain ⟨⟨z, hz⟩, -⟩ := hclaim _ _ _ _ _ _ _ hreach (by decide) h
    rw [h] at hviews
    cases hz.symm.trans hviews
  | error f =>
    rw [h] at hok
    cases hok

end FeeVault
