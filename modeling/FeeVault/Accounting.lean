import FeeVault.Accruals
import FeeVault.Authority
import FeeVault.Solvency
import FeeVault.TakeRate

namespace FeeVault

/-!
# The accounts of a reserve over a whole run

Two balances that close over any run, at rates that rise and fall as they like:

* `run_value` — underlying.  What is owed, valued at the vault's rate, and what the pool has paid
  out are together what was there before, what was paid in and the interest, but for the rounding
  of each movement, which never creates value;
* `run_fees` — fees, in take-rate mode.  What the admin has taken and is due are together what was
  due before and the admin's exact part of every rise of the rate, but for three bTokens an
  accrual, whoever deposits, withdraws or changes the take rate in between.

Both are instances of `Revert.run_le_sum`, with one step lemma each over the effects.
-/

variable {Address : Type} [DecidableEq Address]

namespace State

/-- What the vault of `r` owes, at its own rate, in units of `10⁻¹²` underlying. -/
def valueAt (s : State Address) (r : Address) : ℤ :=
  match s.vaultAt r with
  | some v => v.bRate * v.owed
  | none => 0

/-- What the pool has paid out of the position in `r`. -/
def paidAt (s : State Address) (r : Address) : ℤ :=
  ((s.pool.payouts.filter (·.reserve = r)).map (·.paid)).sum

end State

/-- The underlying a call pays into `r`. -/
def Call.paysIn (r : Address) : Call Address → ℤ
  | .deposit reserve _ amount => if reserve = r then amount else 0
  | _ => 0

/-- What rounding a call may leave behind in `r`: at most the value of one bToken, or
    one unit of underlying. -/
def Call.dust (r : Address) (e : Env Address) : Call Address → ℤ
  | .deposit reserve _ _ => if reserve = r then e.bRate r else 0
  | .withdraw reserve _ _ => if reserve = r then e.bRate r else 0
  | .claimFees reserve _ => if reserve = r then scalar12 else 0
  | _ => 0

variable [FixedPoint]

/-- The underlying a call has the pool pay out of `r`. -/
def paysOut (r : Address) (s : State Address) (t : Tx Address) : ℤ :=
  match t.call with
  | .withdraw reserve _ amount => if reserve = r then amount else 0
  | .claimFees _ _ =>
    match accrualAt r s t with
    | some (_, w) => MulDiv.floor w.accruedFees (t.env.bRate r) scalar12
    | none => 0
  | _ => 0

/-- The interest that the pool's rate since the last accrual brings on all that is owed on `r`, at
    a transaction that accrues it; a loss where the rate fell. -/
def interest (r : Address) (s : State Address) (t : Tx Address) : ℤ :=
  match accrualAt r s t with
  | some (v, _) => (t.env.bRate r - v.bRate.val) * v.owed
  | none => 0

variable {s s' : State Address} {t : Tx Address} {r : Address} {v w : ReserveVault Address}
  {val : Value}

/-! ### Value -/

omit [DecidableEq Address] [FixedPoint] in
/-- With a vault, the value of a reserve is what it owes at the rate it keeps. -/
theorem State.valueAt_some (hv : s.vaultAt r = some v) :
    s.valueAt r = v.bRate.val * v.owed := by
  rw [State.valueAt, hv]

/-- A transaction that accrues the reserve brings the rise of the rate on all that is owed,
    whoever it is owed to. -/
theorem interest_some (h : accrualAt r s t = some (v, w)) :
    interest r s t = ((t.env.bRate r).val - v.bRate.val) * v.owed := by
  rw [interest, h]

omit [FixedPoint] in
/-- One more payout. -/
theorem State.paidAt_cons {p : Payout Address} (h : s'.pool.payouts = p :: s.pool.payouts) :
    s'.paidAt r = s.paidAt r + if p.reserve = r then p.paid else 0 := by
  rw [State.paidAt, h, List.filter_cons]
  by_cases hr : p.reserve = r
  · simp [hr, State.paidAt, add_comm]
  · simp [hr, State.paidAt]

/-- **Payouts.**  At positive rates the pool pays what a call asks of it: in every state that can
    be reached the position covers the request, so the branch that pays short is never taken. -/
theorem exec_paidAt (hs : Reachable Env.PositiveRates s) (hrate : t.env.PositiveRates)
    (h : exec s t = .ok (val, s')) : s'.paidAt r = s.paidAt r + paysOut r s t := by
  have hcover {r₀ : Address} {n : ℤ} (hn : n ≤ s.owedAt r₀) : n ≤ s.pool.bTokens r₀ := by
    have hsurplus := hs.surplus_nonneg r₀
    rw [State.surplusAt, State.positionAt] at hsurplus
    omega
  have hsound (r₀ : Address) : s.SoundAt r₀ := hs.soundAt fun _ he => he r₀
  have hsame (hp : s'.pool.payouts = s.pool.payouts) (hout : paysOut r s t = 0) :
      s'.paidAt r = s.paidAt r + paysOut r s t := by
    rw [hout, add_zero, State.paidAt, State.paidAt, hp]
  cases exec_committed h with
  | setFeeMode call _ _ _ pool | setAdmin call _ pool | addReserveVault call _ _ pool
  | claimEmissions call _ pool =>
    exact hsame (by rw [pool]) (by rw [paysOut, call])
  | deposit call _ _ _ pool =>
    exact hsame (Pool.supply_payouts pool) (by rw [paysOut, call])
  | withdraw call _ _ booked pool =>
    have hp := Pool.withdraw_payouts pool
      (hcover (withdraw_covered (hsound _) hs.keyed (hrate _) booked))
    rw [State.paidAt_cons hp, paysOut, call]
  | @claimFees r₀ toAddr x a call booked pool =>
    have hp := Pool.withdraw_payouts pool
      (hcover (claimFees_covered (hsound _) hs.keyed (hrate _) booked))
    obtain ⟨w, hw, -, -, ha, -⟩ := ReserveVault.claimFees_eq_ok booked
    obtain ⟨v, hv, hvw⟩ := ReserveVault.getReserveVaultUpdated_eq_ok.1 hw
    obtain ⟨-, hb⟩ := (hsound r₀).accrued (hs.keyed r₀) (hrate r₀) hv hvw
    rw [State.paidAt_cons hp, paysOut, call]
    by_cases hr : r₀ = r
    · subst hr
      have hacc : accrualAt r₀ s t = some (v, w) :=
        accrualAt_eq_some.2 ⟨by simp [call, Call.accrues], hv, hvw⟩
      simp only [hacc, if_pos]
      rw [(ReserveVault.bTokensToUnderlyingDown_eq_ok.1 ha).2, hb]
    · have hacc : accrualAt r s t = none :=
        accrualAt_of_untouched hs.listed (by simp [call, Call.reserve?, hr]) (by simp [call])
      simp only [hacc, if_neg hr]

/-- A call about another reserve, or about none, moves nothing in `r`. -/
theorem movements_of_other (h : t.call.reserve? ≠ some r) (hacc : accrualAt r s t = none) :
    t.call.paysIn r = 0 ∧ paysOut r s t = 0 ∧ t.call.dust r t.env = 0 := by
  have hne {r₀ : Address} (h : some r₀ ≠ some r) : r₀ ≠ r := fun heq => h (congrArg some heq)
  cases hc : t.call with
  | deposit | withdraw | claimFees =>
    rw [hc] at h
    simp [Call.paysIn, paysOut, Call.dust, hc, hacc, hne h]
  | setFeeMode | setAdmin | addReserveVault | claimEmissions =>
    simp [Call.paysIn, paysOut, Call.dust, hc]

/-- **Value step.**  Each movement is worth what it is booked for, but for its own rounding, and
    accrual is worth the interest. -/
theorem Effect.value (h : Effect t r s s') (hs : s.SoundAt r)
    (hkey : ∀ v, s.vaultAt r = some v → v.address = r) (hlisted : s.Listed)
    (hrate : 0 < (t.env.bRate r).val) :
    s'.valueAt r + scalar12 * paysOut r s t ≤
        s.valueAt r + (scalar12 * t.call.paysIn r + interest r s t) ∧
      s.valueAt r + (scalar12 * t.call.paysIn r + interest r s t) ≤
        s'.valueAt r + scalar12 * paysOut r s t + t.call.dust r t.env := by
  -- the accrued vault is worth the interest more
  have haccrued {v w : ReserveVault Address} (hacc : accrualAt r s t = some (v, w)) :
      s.valueAt r + interest r s t = w.bRate.val * w.owed := by
    obtain ⟨-, present, accrual⟩ := accrualAt_eq_some.1 hacc
    obtain ⟨-, hb⟩ := hs.accrued hkey hrate present accrual
    rw [interest_some hacc, State.valueAt_some present, ReserveVault.updateRate_owed accrual, hb]
    ring
  cases h with
  | untouched other unlisted vault =>
    have hacc := accrualAt_of_untouched hlisted other unlisted
    obtain ⟨hin, hout, hdust⟩ := movements_of_other other hacc
    have hint : interest r s t = 0 := by rw [interest, hacc]
    have hvalue : s'.valueAt r = s.valueAt r := by rw [State.valueAt, vault, State.valueAt]
    rw [hin, hout, hdust, hint, hvalue]
    omega
  | opened call absent vault =>
    have hacc := accrualAt_of_absent (t := t) absent
    have hvalue : s.valueAt r = 0 := by rw [State.valueAt, absent]
    have hvalue' : s'.valueAt r = 0 := by
      rw [State.valueAt_some vault]
      simp [ReserveVault.owed]
    simp [interest, hacc, call, Call.paysIn, paysOut, Call.dust, hvalue, hvalue']
  | accrued call present accrual vault =>
    have hacc := haccrued (accrualAt_eq_some.2 ⟨by rw [call]; rfl, present, accrual⟩)
    rw [State.valueAt_some vault]
    simp only [paysOut, call, Call.paysIn, Call.dust, mul_zero, zero_add, add_zero]
    omega
  | @deposited u a x m S T v w call auth amount_pos present accrual bTokens bTokens_pos minted
      minted_pos totalShares totalBTokens vault =>
    have hacc := haccrued
      (accrualAt_eq_some.2 ⟨by simp [call, Call.accrues], present, accrual⟩)
    obtain ⟨hw, hb⟩ := hs.accrued hkey hrate present accrual
    have hx := ((ReserveVault.underlyingToBTokensDown_eq_ok hw.rate_pos).1 bTokens).2
    have hle := MulDiv.floor_mul_le (x := a) (y := scalar12.val) hw.rate_pos
    have hlt := MulDiv.lt_floor_add_one_mul (x := a) (y := scalar12.val) hw.rate_pos
    rw [← hx] at hle hlt
    rw [State.valueAt_some vault]
    simp only [paysOut, call, Call.paysIn, Call.dust, if_pos, ← hb]
    rw [ReserveVault.owed] at hacc ⊢
    dsimp only
    rw [totalBTokens]
    constructor <;> linarith
  | @withdrawn u a x m S T v w call auth amount_pos present accrual bTokens burned burned_pos
      burned_le_total bTokens_le_total burned_le_balance totalShares totalBTokens vault =>
    have hacc := haccrued
      (accrualAt_eq_some.2 ⟨by simp [call, Call.accrues], present, accrual⟩)
    obtain ⟨hw, hb⟩ := hs.accrued hkey hrate present accrual
    have hx := ((ReserveVault.underlyingToBTokensUp_eq_ok hw.rate_pos).1 bTokens).2
    have hle := MulDiv.le_ceil_mul (x := a) (y := scalar12.val) hw.rate_pos
    have hlt := (MulDiv.lt_ceil_iff (x := a) (y := scalar12.val) hw.rate_pos).1 (sub_one_lt _)
    rw [← hx] at hle hlt
    rw [State.valueAt_some vault]
    simp only [paysOut, call, Call.paysIn, Call.dust, if_pos, ← hb]
    rw [ReserveVault.owed] at hacc ⊢
    dsimp only
    rw [totalBTokens]
    constructor <;> linarith
  | @claimed toAddr a v w call present accrual fees_pos underlying vault =>
    have hacc' := accrualAt_eq_some.2 ⟨by simp [call, Call.accrues], present, accrual⟩
    have hacc := haccrued hacc'
    obtain ⟨-, hb⟩ := hs.accrued hkey hrate present accrual
    have hle := MulDiv.floor_mul_le (x := w.accruedFees) (y := w.bRate.val) scalar12_pos
    have hlt := MulDiv.lt_floor_add_one_mul (x := w.accruedFees) (y := w.bRate.val) scalar12_pos
    rw [State.valueAt_some vault]
    simp only [paysOut, call, hacc', Call.paysIn, Call.dust, if_pos, ← hb]
    rw [ReserveVault.owed] at hacc ⊢
    dsimp only
    rw [I128.val_zero]
    constructor <;> linarith

/-- The sum of `f` over the transactions of a run that take effect. -/
def runSum {M : Type} [Zero M] [Add M] (f : State Address → Tx Address → M) (s : State Address)
    (ts : List (Tx Address)) : M :=
  (Revert.collect exec (fun s t _ => f s t) s ts).sum

/-- A transaction that takes effect contributes to the sum. -/
theorem runSum_cons_ok {M : Type} [AddMonoid M] {f : State Address → Tx Address → M}
    {ts : List (Tx Address)} (h : exec s t = .ok (val, s')) :
    runSum f s (t :: ts) = f s t + runSum f s' ts := by
  rw [runSum, Revert.collect_cons_ok h, List.sum_cons, runSum]

/-- One that fails contributes nothing. -/
theorem runSum_cons_error {M : Type} [AddMonoid M] {f : State Address → Tx Address → M}
    {ts : List (Tx Address)} {failure : Failure} (h : exec s t = .error failure) :
    runSum f s (t :: ts) = runSum f s ts := by
  rw [runSum, Revert.collect_cons_error h, runSum]

/-- **The underlying adds up.**  Over any run at positive rates from any state reached at positive
    rates, what `r` owes at the end and what the pool has paid out of it since are worth no more
    than what was owed, what was paid in since and the interest, and no less but for the rounding
    of each deposit, withdrawal and fee claim. -/
theorem run_value {ts : List (Tx Address)} (hs : Reachable Env.PositiveRates s)
    (hts : ∀ t ∈ ts, t.env.PositiveRates) (r : Address) :
    (Revert.run exec s ts).valueAt r + scalar12 * (Revert.run exec s ts).paidAt r ≤
        s.valueAt r + scalar12 * s.paidAt r +
          runSum (fun s t => scalar12 * t.call.paysIn r + interest r s t) s ts ∧
      s.valueAt r + scalar12 * s.paidAt r +
          runSum (fun s t => scalar12 * t.call.paysIn r + interest r s t - t.call.dust r t.env)
            s ts ≤
        (Revert.run exec s ts).valueAt r + scalar12 * (Revert.run exec s ts).paidAt r := by
  have hinv (s : State Address) (t : Tx Address) (val : Value) (s' : State Address)
      (hr : Reachable Env.PositiveRates s) (ht : t.env.PositiveRates)
      (h : exec s t = .ok (val, s')) : Reachable Env.PositiveRates s' :=
    Revert.step_ok h ▸ Revert.Reachable.step hr ht
  have hstep (s : State Address) (t : Tx Address) (val : Value) (s' : State Address)
      (hr : Reachable Env.PositiveRates s) (ht : t.env.PositiveRates)
      (h : exec s t = .ok (val, s')) :=
    And.intro (exec_paidAt (r := r) hr ht h)
      ((exec_effect hr.keyed h r).value (hr.soundAt fun _ he => he r) (hr.keyed r) hr.listed (ht r))
  let g := fun s : State Address => s.valueAt r + scalar12.val * s.paidAt r
  refine ⟨Revert.run_le_sum (g := g) hinv (fun s t val s' hr ht h => ?_) hs
      (Revert.along_of_forall hts),
    Revert.sum_le_run (g := g) hinv (fun s t val s' hr ht h => ?_) hs
      (Revert.along_of_forall hts)⟩
  · obtain ⟨hpaid, hle, -⟩ := hstep s t val s' hr ht h
    simp only [g, hpaid]
    linarith
  · obtain ⟨hpaid, -, hge⟩ := hstep s t val s' hr ht h
    simp only [g, hpaid]
    linarith

omit [FixedPoint] in
/-- The accounts of the concrete run, from deployment, when nothing is owed or paid yet. -/
theorem run_value_demo :
    Demo.state.valueAt 7 + scalar12 * Demo.state.paidAt 7 ≤
        @runSum ℕ _ FixedPoint.reference ℤ _ _
          (fun s t => scalar12 * t.call.paysIn 7 + @interest ℕ _ FixedPoint.reference 7 s t)
          Demo.deployed Demo.txs ∧
      @runSum ℕ _ FixedPoint.reference ℤ _ _
          (fun s t => scalar12 * t.call.paysIn 7 + @interest ℕ _ FixedPoint.reference 7 s t -
            t.call.dust 7 t.env)
          Demo.deployed Demo.txs ≤
        Demo.state.valueAt 7 + scalar12 * Demo.state.paidAt 7 := by
  have h := @run_value ℕ _ FixedPoint.reference Demo.deployed Demo.txs
    (.init Demo.deployed_deployed) Demo.txs_positiveRates 7
  have h0 : Demo.deployed.valueAt 7 + scalar12 * Demo.deployed.paidAt 7 = 0 := by decide
  rw [h0, zero_add, zero_add] at h
  exact h

/-! ### Fees -/

/-- The admin's exact part, in bTokens, of the rise of the pool's rate that a transaction accrues at
    the take rate in force. -/
def exactFee (r : Address) (s : State Address) (t : Tx Address) : ℚ :=
  match accrualAt r s t with
  | some (v, _) =>
    if v.bRate.val < t.env.bRate r then
      exactTakeRateFee v.totalBTokens v.bRate (t.env.bRate r) s.storage.feeMode.value
    else 0
  | none => 0

/-- The bTokens a transaction pays the admin, as fees of `r`. -/
def feesTaken (r : Address) (s : State Address) (t : Tx Address) : ℤ :=
  match t.call, accrualAt r s t with
  | .claimFees _ _, some (_, w) => w.accruedFees
  | _, _ => 0

/-- Only fee claims pay the admin. -/
theorem feesTaken_of_ne (h : ∀ r₀ toAddr, t.call ≠ .claimFees r₀ toAddr) :
    feesTaken r s t = 0 := by
  unfold feesTaken
  split
  · next hclaim _ => exact absurd hclaim (h _ _)
  · rfl

/-- What the three floors of an accrual may cost the admin, in bTokens. -/
def feeDust (r : Address) (s : State Address) (t : Tx Address) : ℚ :=
  if (accrualAt r s t).isSome then 3 else 0

/-- One accrual in take-rate mode, whether or not the rate rose: the admin's fees grow by the
    exact fee at the pool's rate, less what the three floors drop. -/
theorem exactFee_accrual (hv : v.Sound) (hfm : s.storage.feeMode.Valid)
    (htake : s.storage.feeMode.isAprCapped = false) (haddr : v.address = r)
    (hrate : scalar12.val ≤ t.env.bRate r) (h : accrualAt r s t = some (v, w)) :
    (w.accruedFees.val : ℚ) ≤ v.accruedFees.val + exactFee r s t ∧
      v.accruedFees.val + exactFee r s t - 3 ≤ w.accruedFees.val := by
  obtain ⟨-, -, hw⟩ := accrualAt_eq_some.1 h
  subst haddr
  obtain ⟨hacc, -⟩ := ReserveVault.updateRate_feeTaken hv.rate_pos hv.bTokens_nonneg hfm.1 hw
  have hfees : (w.accruedFees.val : ℚ) = v.accruedFees.val +
      ReserveVault.feeTaken t.env s.storage.feeMode v := by exact_mod_cast hacc.accruedFees
  rw [hfees, exactFee, h]
  dsimp only
  by_cases hlt : v.bRate.val < t.env.bRate v.address
  · have hn : 0 < (t.env.bRate v.address).val := hv.rate_pos.trans hlt
    rw [if_pos hlt, ReserveVault.feeTaken, if_neg (not_le.2 hlt), htake,
      if_neg Bool.false_ne_true]
    have hupper := takeRateFee_le_exact (T := v.totalBTokens) (b := v.bRate) hn hfm.1
    have hlower := exact_sub_three_le_takeRateFee (T := v.totalBTokens) (b := v.bRate) hrate
      hfm.1 hfm.2
    constructor <;> linarith
  · rw [if_neg hlt, ReserveVault.feeTaken, if_pos (not_lt.1 hlt)]
    simp

/-- **Fee step.**  A transaction adds the exact fee to what the admin has and is due, but for three
    bTokens at most. -/
theorem Effect.fees (h : Effect t r s s') (hs : s.SoundAt r)
    (hkey : ∀ v, s.vaultAt r = some v → v.address = r) (hlisted : s.Listed)
    (htake : s.storage.feeMode.isAprCapped = false) (hrate : scalar12.val ≤ t.env.bRate r) :
    (s'.feesAt r : ℚ) ≤ s.feesAt r + (exactFee r s t - feesTaken r s t) ∧
      s.feesAt r + (exactFee r s t - feesTaken r s t - feeDust r s t) ≤ s'.feesAt r := by
  -- an accrual, after which the fees are kept or taken
  have haccrued {v w : ReserveVault Address} (haccrues : t.call.accrues r = true)
      (present : s.vaultAt r = some v) (accrual : v.updateRate t.env s.storage.feeMode = .ok w)
      (htaken : s'.feesAt r + feesTaken r s t = w.accruedFees.val) :
      (s'.feesAt r : ℚ) ≤ s.feesAt r + (exactFee r s t - feesTaken r s t) ∧
        s.feesAt r + (exactFee r s t - feesTaken r s t - feeDust r s t) ≤ s'.feesAt r := by
    have hacc := accrualAt_eq_some.2 ⟨haccrues, present, accrual⟩
    obtain ⟨hupper, hlower⟩ := exactFee_accrual (hs.vault v present) hs.feeMode htake
      (hkey v present) hrate hacc
    have hdust : feeDust r s t = 3 := by simp [feeDust, hacc]
    have htaken' : (s'.feesAt r : ℚ) + feesTaken r s t = w.accruedFees.val := by
      exact_mod_cast htaken
    rw [hdust, State.feesAt_some present]
    constructor <;> linarith
  have hnone (hacc : accrualAt r s t = none) (hfees : s'.feesAt r = s.feesAt r) :
      (s'.feesAt r : ℚ) ≤ s.feesAt r + (exactFee r s t - feesTaken r s t) ∧
        s.feesAt r + (exactFee r s t - feesTaken r s t - feeDust r s t) ≤ s'.feesAt r := by
    have htaken : feesTaken r s t = 0 := by
      unfold feesTaken
      rw [hacc]
      cases t.call <;> rfl
    simp [exactFee, htaken, feeDust, hacc, hfees]
  cases h with
  | untouched other unlisted vault =>
    exact hnone (accrualAt_of_untouched hlisted other unlisted)
      (by rw [State.feesAt, vault, State.feesAt])
  | opened call absent vault =>
    refine hnone (accrualAt_of_absent absent) ?_
    rw [State.feesAt_some vault, State.feesAt, absent]
    rfl
  | accrued call present accrual vault =>
    refine haccrued (by rw [call]; rfl) present accrual ?_
    rw [State.feesAt_some vault, feesTaken_of_ne (by simp [call]), add_zero]
  | deposited call _ _ present accrual _ _ _ _ _ _ vault
  | withdrawn call _ _ present accrual _ _ _ _ _ _ _ _ vault =>
    refine haccrued (by simp [call, Call.accrues]) present accrual ?_
    rw [State.feesAt_some vault, feesTaken_of_ne (by simp [call]), add_zero]
  | claimed call present accrual _ _ vault =>
    refine haccrued (by simp [call, Call.accrues]) present accrual ?_
    have hacc := accrualAt_eq_some.2 ⟨by simp [call, Call.accrues], present, accrual⟩
    rw [State.feesAt_some vault, feesTaken, call, hacc]
    simp

/-- **The fees add up.**  Take any run in take-rate mode, at rates of at least one that may rise and
    fall, with any deposits, withdrawals and changes of the take rate.  The fees due at the end and
    those taken out since are together no more than the fees due before and the exact part of every
    accrued rise, and less than that by at most three bTokens an accrual. -/
theorem run_fees {ts : List (Tx Address)} (hs : Reachable (fun e => 0 < (e.bRate r).val) s)
    (htake : s.storage.feeMode.isAprCapped = false)
    (hmode : ∀ t ∈ ts, ∀ value, t.call ≠ .setFeeMode true value)
    (hrate : ∀ t ∈ ts, scalar12.val ≤ t.env.bRate r) :
    ((Revert.run exec s ts).feesAt r : ℚ) ≤
        s.feesAt r + runSum (fun s t => exactFee r s t - feesTaken r s t) s ts ∧
      s.feesAt r + runSum (fun s t => exactFee r s t - feesTaken r s t - feeDust r s t) s ts ≤
        (Revert.run exec s ts).feesAt r := by
  let I := fun s : State Address =>
    Reachable (fun e => 0 < (e.bRate r).val) s ∧ s.storage.feeMode.isAprCapped = false
  let P := fun (_ : State Address) (t : Tx Address) =>
    (∀ value, t.call ≠ .setFeeMode true value) ∧ scalar12.val ≤ t.env.bRate r
  have hinv (s : State Address) (t : Tx Address) (val : Value) (s' : State Address)
      (hI : I s) (ht : P s t) (h : exec s t = .ok (val, s')) : I s' := by
    refine ⟨Revert.step_ok h ▸ Revert.Reachable.step hI.1 (scalar12_pos.trans_le ht.2), ?_⟩
    obtain hsame | ⟨fm, -, hcall, hnew⟩ := (exec_settings h).1
    · exact hsame ▸ hI.2
    · rw [hnew]
      by_contra hcapped
      rw [Bool.not_eq_false] at hcapped
      exact ht.1 fm.value (hcapped ▸ hcall)
  have hstep (s : State Address) (t : Tx Address) (val : Value) (s' : State Address)
      (hI : I s) (ht : P s t) (h : exec s t = .ok (val, s')) :=
    (exec_effect hI.1.keyed h r).fees (hI.1.soundAt fun _ he => he) (hI.1.keyed r) hI.1.listed
      hI.2 ht.2
  have halong : Revert.Along exec P s ts :=
    Revert.along_of_forall (A := fun t => (∀ value, t.call ≠ .setFeeMode true value) ∧
      scalar12.val ≤ t.env.bRate r) fun t ht => ⟨hmode t ht, hrate t ht⟩
  exact ⟨Revert.run_le_sum (g := fun s : State Address => (s.feesAt r : ℚ)) hinv
      (fun s t val s' hI ht h => (hstep s t val s' hI ht h).1) ⟨hs, htake⟩ halong,
    Revert.sum_le_run (g := fun s : State Address => (s.feesAt r : ℚ)) hinv
      (fun s t val s' hI ht h => (hstep s t val s' hI ht h).2) ⟨hs, htake⟩ halong⟩

/-- Two movements and a claim after the concrete run, at its take rate of 10% and then at 20%. -/
def Demo.feeTxs : List (Tx ℕ) :=
  [⟨env 50 (I128.ofUInt64 1300000000000) 3, .deposit 7 3 (I128.ofUInt64 33333333)⟩,
   ⟨env 60 (I128.ofUInt64 1400000000000) 0, .setFeeMode false (I128.ofUInt64 2000000)⟩,
   ⟨env 70 (I128.ofUInt64 1500000000000) 4, .withdraw 7 4 (I128.ofUInt64 22222222)⟩,
   ⟨env 70 (I128.ofUInt64 1500000000000) 0, .claimFees 7 0⟩]

omit [FixedPoint] in
/-- The admin's account over that run, from both sides. -/
theorem run_fees_demo :
    ((Revert.run (@exec ℕ _ FixedPoint.reference) Demo.state Demo.feeTxs).feesAt 7 : ℚ) ≤
        Demo.state.feesAt 7 + @runSum ℕ _ FixedPoint.reference ℚ _ _
          (fun s t => @exactFee ℕ _ FixedPoint.reference 7 s t -
            @feesTaken ℕ _ FixedPoint.reference 7 s t) Demo.state Demo.feeTxs ∧
      Demo.state.feesAt 7 + @runSum ℕ _ FixedPoint.reference ℚ _ _
          (fun s t => @exactFee ℕ _ FixedPoint.reference 7 s t -
            @feesTaken ℕ _ FixedPoint.reference 7 s t -
            @feeDust ℕ _ FixedPoint.reference 7 s t) Demo.state Demo.feeTxs ≤
        ((Revert.run (@exec ℕ _ FixedPoint.reference) Demo.state Demo.feeTxs).feesAt 7 : ℚ) := by
  have hts : ∀ t ∈ Demo.feeTxs, (∀ value, t.call ≠ .setFeeMode true value) ∧
      scalar12.val ≤ t.env.bRate 7 := by
    intro t ht
    simp only [Demo.feeTxs, List.mem_cons, List.not_mem_nil, or_false] at ht
    obtain rfl | rfl | rfl | rfl := ht <;> exact ⟨by simp, by decide⟩
  exact @run_fees ℕ _ FixedPoint.reference Demo.state 7 Demo.feeTxs
    (Demo.state_reachable.mono fun _ h => h 7) (by decide) (fun t ht => (hts t ht).1)
    fun t ht => (hts t ht).2

end FeeVault
