import FeeVault.Soundness

namespace FeeVault

/-!
# What rounding costs a user

A movement converts bTokens to shares at one price and the view after it converts all the user's
shares back at another, which the dust of the movement has raised for every holder, the user
included.  Because a share is worth at most one bToken, what the user loses to the others is less
than one bToken (`SharePool.floor_deposit`, `SharePool.floor_withdraw`).

* `deposit_bTokens` / `withdraw_bTokens` — the view of bTokens moves by the bTokens of the movement,
  or by one less in the user's favour;
* `fresh_deposit_underlying` — what a first deposit shows in underlying;
* `movement_rounding` — the three for every reachable state.
-/

variable {Address : Type} [FixedPoint]

variable {e : Env Address} {s s' : State Address} {r u : Address} {a v x y z z' : I128}
  {w : ReserveVault Address}

/-- The view of bTokens, with or without shares. -/
theorem Contract.getBTokens_val (hw : ReserveVault.getReserveVaultUpdated e s.storage r = .ok w)
    (ho : 0 ≤ s.sharesAt r u) (hoS : s.sharesAt r u ≤ w.totalShares)
    (h : Contract.getBTokens e s r u = .ok z) :
    z.val = MulDiv.floor (s.sharesAt r u) w.totalBTokens w.totalShares := by
  rcases ho.eq_or_lt with ho | ho
  · rw [Contract.getBTokens_of_no_shares ho.not_lt] at h
    rw [← Except.ok.inj h, ← ho, MulDiv.floor_zero_left, I128.val_zero]
  · obtain ⟨w', hw', hz⟩ := (Contract.getBTokens_eq_ok ho).1 h
    obtain rfl : w = w' := Except.ok.inj (hw.symm.trans hw')
    exact ((ReserveVault.sharesToBTokensDown_eq_ok (ho.trans_le hoS)).1 hz).2

variable [DecidableEq Address]

/-- A deposit, as the view of bTokens shows it: the depositor gains the bTokens booked, or one
    less, whatever was held before. -/
theorem deposit_bTokens (hs : s.SoundAt r) (hc : s.Conserved r) (hkeyed : s.Keyed)
    (hrate : 0 < (e.bRate r).val) (h : Contract.deposit e s r u a = .ok (y, s'))
    (hbook : ReserveVault.deposit e s.storage r u a = .ok ((x, y), s'.storage))
    (hz : Contract.getBTokens e s r u = .ok z) (hz' : Contract.getBTokens e s' r u = .ok z') :
    z'.val = z + x.val ∨ z'.val = z + x.val - 1 := by
  obtain ⟨w, x₁, S, T, hw, hx₁, hx0, hm, hS, hT, -, hw', hshares⟩ := deposit_updated hkeyed h
  obtain ⟨w₂, -, -, -, hw₂, hx, -⟩ := ReserveVault.deposit_eq_ok hbook
  obtain rfl : w = w₂ := Except.ok.inj (hw.symm.trans hw₂)
  obtain rfl : x = x₁ := Except.ok.inj (hx.symm.trans hx₁)
  obtain ⟨hsound, -, -, htotal⟩ := hs.updated hkeyed hrate hw
  have ho := hc.nonneg u
  have hoS : s.sharesAt r u ≤ w.totalShares := htotal ▸ hc.le_total u
  have hy := hsound.minted hm
  have hy0 : 0 ≤ y.val := hy ▸ hx0.le.trans (hsound.pool.le_minted hx0.le)
  rw [Contract.getBTokens_val hw ho hoS hz,
    Contract.getBTokens_val hw' (by omega) (show s'.sharesAt r u ≤ S.val by omega) hz',
    hshares, hS, hT, hy]
  exact hsound.pool.floor_deposit hx0.le ho hoS

/-- A withdrawal, as the view of bTokens shows it: the user loses the bTokens booked, or
    one more. -/
theorem withdraw_bTokens (hs : s.SoundAt r) (hc : s.Conserved r) (hkeyed : s.Keyed)
    (hrate : 0 < (e.bRate r).val) (h : Contract.withdraw e s r u a = .ok (y, s'))
    (hbook : ReserveVault.withdraw e s.storage r u a = .ok ((x, y), s'.storage))
    (hz : Contract.getBTokens e s r u = .ok z) (hz' : Contract.getBTokens e s' r u = .ok z') :
    z'.val = z - x.val ∨ z'.val = z - x.val - 1 := by
  obtain ⟨w, x₁, S, T, hw, hx₁, hm, hxT, hyo, hS, hT, -, hw', hshares⟩ := withdraw_updated hkeyed h
  obtain ⟨w₂, -, -, -, hw₂, hx, -⟩ := ReserveVault.withdraw_eq_ok hbook
  obtain rfl : w = w₂ := Except.ok.inj (hw.symm.trans hw₂)
  obtain rfl : x = x₁ := Except.ok.inj (hx.symm.trans hx₁)
  obtain ⟨-, -, ha, -⟩ := Contract.withdraw_eq_ok h
  obtain ⟨hsound, -, -, htotal⟩ := hs.updated hkeyed hrate hw
  have ho := hc.nonneg u
  have hoS : s.sharesAt r u ≤ w.totalShares := htotal ▸ hc.le_total u
  have hx0 := (hsound.burned_pos ha hx hm).1
  have hy := hsound.burned hm
  rw [Contract.getBTokens_val hw ho hoS hz,
    Contract.getBTokens_val hw' (by omega) (show s'.sharesAt r u ≤ S.val by omega) hz',
    hshares, hS, hT, hy]
  exact hsound.pool.floor_withdraw hx0.le (hxT.trans_eq hsound.pool_assets.symm) hoS (hy ▸ hyo)

omit [FixedPoint] [DecidableEq Address] in
/-- An amount through two floors into bTokens and back, one bToken short at most. -/
theorem round_trip_bounds {a b x z v : ℤ} (hb : 0 < b) (hx : x = MulDiv.floor a scalar12 b)
    (hz : z = x ∨ z = x - 1) (hv : v = MulDiv.floor z b scalar12) :
    a * scalar12 - 2 * b < (v + 1) * scalar12 ∧ v ≤ a := by
  have hK : 0 < scalar12.val := scalar12_pos
  have hxle := hx ▸ MulDiv.floor_mul_le (x := a) (y := scalar12.val) hb
  have hxlt := hx ▸ MulDiv.lt_floor_add_one_mul (x := a) (y := scalar12.val) hb
  have hvle := hv ▸ MulDiv.floor_mul_le (x := z) (y := b) hK
  have hvlt := hv ▸ MulDiv.lt_floor_add_one_mul (x := z) (y := b) hK
  have hzx : (x - 1) * b ≤ z * b := mul_le_mul_of_nonneg_right (by omega) hb.le
  have hxz : z * b ≤ x * b := mul_le_mul_of_nonneg_right (by omega) hb.le
  exact ⟨by linarith, le_of_mul_le_mul_right (by linarith) hK⟩

/-- A first deposit, as the view of underlying shows it: never more than was paid, and short of
    it by less than two bTokens, which booking and sharing round away, and one unit, which the
    conversion back does. -/
theorem fresh_deposit_underlying (hs : s.SoundAt r) (hkeyed : s.Keyed)
    (hrate : 0 < (e.bRate r).val) (hfresh : s.sharesAt r u = 0)
    (h : Contract.deposit e s r u a = .ok (y, s'))
    (hview : Contract.getUnderlyingTokens e s' r u = .ok v) :
    a.val * scalar12 - 2 * (e.bRate r).val < (v.val + 1) * scalar12 ∧ v.val ≤ a := by
  obtain ⟨w, x, S, T, hw, hx, hx0, hm, hS, hT, -, hw', hshares⟩ := deposit_updated hkeyed h
  obtain ⟨hsound, hb, -, -⟩ := hs.updated hkeyed hrate hw
  have hy := hsound.minted hm
  have hy0 : 0 < y.val := hy ▸ lt_of_lt_of_le hx0 (hsound.pool.le_minted hx0.le)
  have hshares' : s'.sharesAt r u = y.val := by rw [hshares, hfresh, zero_add]
  obtain ⟨w', hw'', z, hz, hv⟩ :=
    (Contract.getUnderlyingTokens_eq_ok (by omega : 0 < s'.sharesAt r u)).1 hview
  obtain rfl := Except.ok.inj (hw'.symm.trans hw'')
  have hS0 : 0 < S.val := by
    have := hsound.pool.shares_nonneg
    rw [hsound.pool_shares] at this
    omega
  have hzval := ((ReserveVault.sharesToBTokensDown_eq_ok hS0).1 hz).2
  -- the deposit into a position without bTokens
  have hgain := hsound.pool.floor_deposit hx0.le le_rfl hsound.pool.shares_nonneg
  rw [MulDiv.floor_zero_left, zero_add, zero_add, SharePool.deposit_shares,
    SharePool.deposit_assets, hsound.pool_shares, hsound.pool_assets, ← hy, ← hS, ← hT,
    ← hshares'] at hgain
  rw [← hb]
  refine round_trip_bounds hsound.rate_pos
    ((ReserveVault.underlyingToBTokensDown_eq_ok hsound.rate_pos).1 hx).2 ?_
    (ReserveVault.bTokensToUnderlyingDown_eq_ok.1 hv).2
  rw [hzval]
  exact hgain

/-- What share rounding costs user `u` of reserve `r` in one operation in the surroundings `e`. -/
structure MovementRounding (e : Env Address) (s : State Address) (r u : Address) : Prop where
  /-- A deposit of `x` bTokens adds `x` of them to the user's, or `x - 1`. -/
  deposit : ∀ a y s', Contract.deposit e s r u a = .ok (y, s') →
    ∃ x, ReserveVault.deposit e s.storage r u a = .ok ((x, y), s'.storage) ∧
      ∀ z z', Contract.getBTokens e s r u = .ok z → Contract.getBTokens e s' r u = .ok z' →
        z'.val = z + x.val ∨ z'.val = z + x.val - 1
  /-- A withdrawal of `x` bTokens takes `x` of them from the user's, or `x + 1`. -/
  withdraw : ∀ a y s', Contract.withdraw e s r u a = .ok (y, s') →
    ∃ x, ReserveVault.withdraw e s.storage r u a = .ok ((x, y), s'.storage) ∧
      ∀ z z', Contract.getBTokens e s r u = .ok z → Contract.getBTokens e s' r u = .ok z' →
        z'.val = z - x.val ∨ z'.val = z - x.val - 1
  /-- A first deposit shows all but two bTokens and a unit of its amount. -/
  fresh : ∀ a y s' v, (Contract.getShares s r u).val = 0 →
    Contract.deposit e s r u a = .ok (y, s') → Contract.getUnderlyingTokens e s' r u = .ok v →
    (a.val : ℚ) - 2 * (e.bRate r).val / 10 ^ 12 - 1 < v.val ∧ v.val ≤ a

/-- **One bToken an operation.**  In every reachable state, whatever others did to the price. -/
theorem movement_rounding (hs : Reachable (fun e => 0 < (e.bRate r).val) s)
    (hrate : 0 < (e.bRate r).val) : MovementRounding e s r u := by
  have hsound := hs.soundAt fun _ he => he
  have hc := hs.conserved r
  refine ⟨?_, ?_, ?_⟩
  · intro a y s' h
    obtain ⟨x, -, -, -, hbook⟩ := Contract.deposit_eq_ok h
    exact ⟨x, hbook, fun z z' => deposit_bTokens hsound hc hs.keyed hrate h hbook⟩
  · intro a y s' h
    obtain ⟨x, -, -, -, hbook⟩ := Contract.withdraw_eq_ok h
    exact ⟨x, hbook, fun z z' => withdraw_bTokens hsound hc hs.keyed hrate h hbook⟩
  · intro a y s' v hfresh h hv
    obtain ⟨hlt, hle⟩ := fresh_deposit_underlying hsound hs.keyed hrate hfresh h hv
    rw [scalar12_val] at hlt
    have hlt' : (a.val : ℚ) * 1000000000000 - 2 * (e.bRate r).val <
        (v.val + 1) * 1000000000000 := by exact_mod_cast hlt
    exact ⟨by linarith, hle⟩

omit [FixedPoint] in
/-- User `3` deposits after the concrete run, with interest pending: the view of the position shows
    the bTokens of the deposit in addition, or one less. -/
theorem movement_rounding_demo : ∃ x y s' z z',
    @Contract.deposit ℕ _ FixedPoint.reference (Demo.env 80 (I128.ofUInt64 1300000000000) 3)
        Demo.state 7 3 (I128.ofUInt64 33333333) = .ok (y, s') ∧
      @ReserveVault.deposit ℕ FixedPoint.reference _ (Demo.env 80 (I128.ofUInt64 1300000000000) 3)
        Demo.state.storage 7 3 (I128.ofUInt64 33333333) = .ok ((x, y), s'.storage) ∧
      @Contract.getBTokens ℕ FixedPoint.reference (Demo.env 80 (I128.ofUInt64 1300000000000) 3)
        Demo.state 7 3 = .ok z ∧
      @Contract.getBTokens ℕ FixedPoint.reference (Demo.env 80 (I128.ofUInt64 1300000000000) 3)
        s' 7 3 = .ok z' ∧
      (z'.val = z + x.val ∨ z'.val = z + x.val - 1) := by
  have hbefore : @Contract.getBTokens ℕ FixedPoint.reference
      (Demo.env 80 (I128.ofUInt64 1300000000000) 3) Demo.state 7 3 =
        .ok (I128.ofUInt64 89458049) := by decide
  have hafter : (@Contract.deposit ℕ _ FixedPoint.reference
      (Demo.env 80 (I128.ofUInt64 1300000000000) 3) Demo.state 7 3 (I128.ofUInt64 33333333) >>=
        fun res => @Contract.getBTokens ℕ FixedPoint.reference
          (Demo.env 80 (I128.ofUInt64 1300000000000) 3) res.2 7 3) =
        .ok (I128.ofUInt64 115099074) := by decide
  obtain ⟨⟨y, s'⟩, h, hview⟩ := bind_eq_ok.1 hafter
  obtain ⟨hdeposit, -, -⟩ := @movement_rounding ℕ FixedPoint.reference
    (Demo.env 80 (I128.ofUInt64 1300000000000) 3) Demo.state 7 3 _
    (Demo.state_reachable.mono fun _ h => h 7) (by decide)
  obtain ⟨x, hbook, hviews⟩ := hdeposit _ _ _ h
  exact ⟨x, y, s', _, _, h, hbook, hbefore, hview, hviews _ _ hbefore hview⟩

end FeeVault
