import FeeVault.Authority
import FeeVault.Solvency
import FeeVault.Withdrawable

namespace FeeVault

/-!
# A bank run

Everybody takes out everything that is displayed to them, one after the other within one ledger, in
any order and with any number of them.  As long as the products of the whole vault fit to begin
with, all of these withdrawals succeed: nobody gets less for coming late, and what the last one
leaves behind is fewer bTokens than there were users.

* `exitAll` — the run: each user in turn reads the view and withdraws what it shows;
* `Exitable.step` — one exit takes exactly the bTokens that were displayed, and lowers nobody
  else's;
* `exitAll_isOk` — so the whole list goes through, by induction;
* `bank_run` — what that says about the amounts.
-/

variable {Address : Type}

namespace ReserveVault

/-- The bTokens that `a` shares are worth, rounded down. -/
def bTokensOf (w : ReserveVault Address) (a : ℤ) : ℤ :=
  MulDiv.floor a w.totalBTokens w.totalShares

/-- The underlying that `a` shares are worth, rounded down twice. -/
def underlyingOf (w : ReserveVault Address) (a : ℤ) : ℤ :=
  MulDiv.floor (w.bTokensOf a) w.bRate scalar12

end ReserveVault

variable [FixedPoint] [DecidableEq Address]

/-- The ledger of `e` in a transaction that `u` signs. -/
def Env.signedBy (e : Env Address) (u : Address) : Env Address :=
  { e with authorized := fun u' => u' = u }

/-- User `u` takes out all that is displayed.  Returns the amount. -/
def exitOne (e : Env Address) (r : Address) (s : State Address) (u : Address) :
    Except Failure (I128 × State Address) := do
  let amount ← Contract.getUnderlyingTokens e s r u
  if amount.val = 0 then pure (amount, s)
  else do
    let (_, s) ← Contract.withdraw (e.signedBy u) s r u amount
    pure (amount, s)

/-- Each of the users in turn does. -/
def exitAll (e : Env Address) (r : Address) :
    List Address → State Address → Except Failure (List I128 × State Address)
  | [], s => pure ([], s)
  | u :: us, s => do
    let (amount, s) ← exitOne e r s u
    let (amounts, s) ← exitAll e r us s
    pure (amount :: amounts, s)

/-- What the pool pays when the users are displayed these amounts in turn, latest first.  Nothing is
    asked of it for a user to whom nothing is displayed. -/
def exitPayouts (r : Address) : List Address → List I128 → List (Payout Address)
  | u :: us, amount :: amounts =>
    exitPayouts r us amounts ++ if amount.val = 0 then [] else [⟨r, u, amount, amount⟩]
  | _, _ => []

/-- The accrued vault `w` of `r` can be emptied at the ledger of `e`: the largest products that a
    view or a withdrawal may form fit. -/
structure Exitable (e : Env Address) (s : State Address) (r : Address) (w : ReserveVault Address) :
    Prop where
  reachable : Reachable (fun e => 0 < (e.bRate r).val) s
  rate : scalar12.val ≤ e.bRate r
  accepts : e.poolAccepts = true
  updated : Contract.getReserveVault e s r = .ok w
  shares_fit : w.totalShares.val * w.totalBTokens < 2 ^ 127
  bTokens_fit : w.totalBTokens.val * w.bRate < 2 ^ 127

variable {e : Env Address} {s s' : State Address} {r u : Address} {w w' : ReserveVault Address}

namespace Exitable

section

variable (h : Exitable e s r w)
include h

/-- A rate of at least one is positive. -/
theorem rate_pos : 0 < (e.bRate r).val := scalar12_pos.trans_le h.rate

/-- The vault that the exits start from is sound, at the pool's rate, and keeps the number of
    shares the users hold. -/
theorem sound : w.Sound ∧ w.bRate = e.bRate r ∧ w.address = r ∧
    w.totalShares.val = s.totalSharesAt r :=
  (h.reachable.soundAt fun _ he => he).updated h.reachable.keyed h.rate_pos h.updated

/-- No user holds more shares than there are. -/
theorem balance_le (u : Address) : s.sharesAt r u ≤ w.totalShares :=
  h.sound.2.2.2 ▸ (h.reachable.conserved r).le_total u

/-- The bTokens displayed to a user are not negative, in a vault without shares as well. -/
theorem bTokensOf_nonneg (u : Address) : 0 ≤ w.bTokensOf (s.sharesAt r u) := by
  have hu := (h.reachable.conserved r).nonneg u
  rcases (hu.trans (h.balance_le u)).eq_or_lt with hS | hS
  · rw [ReserveVault.bTokensOf, ← hS, MulDiv.floor, Int.ediv_zero]
  · exact MulDiv.floor_nonneg hu h.sound.1.bTokens_nonneg hS

/-- Every view of a position returns, and what it shows is the floor of a floor: the bTokens of
    the shares, then their underlying. -/
theorem view (u : Address) : ∃ v, Contract.getUnderlyingTokens e s r u = .ok v ∧
    v.val = w.underlyingOf (s.sharesAt r u) := by
  by_cases hu : 0 < s.sharesAt r u
  · obtain ⟨hsound, hb, -, -⟩ := h.sound
    have hle := h.balance_le u
    have hS := lt_of_lt_of_le hu hle
    have hz0 := h.bTokensOf_nonneg u
    have hz : w.bTokensOf (s.sharesAt r u) ≤ w.totalBTokens := hsound.pool.floor_le_assets hS hle
    have hprod := mul_le_mul_of_nonneg_right hle hsound.bTokens_nonneg
    have hvalue := mul_le_mul_of_nonneg_right hz hsound.rate_pos.le
    obtain ⟨-, v, hv⟩ := (views_isOk_iff (h.reachable.soundAt fun _ he => he)
      (h.reachable.conserved r) h.reachable.keyed h.rate_pos hu h.updated).2
      ⟨hprod.trans_lt h.shares_fit, hvalue.trans_lt h.bTokens_fit⟩
    obtain ⟨w₁, hw₁, z, hz, hvz⟩ := (Contract.getUnderlyingTokens_eq_ok hu).1 hv
    obtain rfl : w = w₁ := Except.ok.inj (h.updated.symm.trans hw₁)
    refine ⟨v, hv, ?_⟩
    rw [(ReserveVault.bTokensToUnderlyingDown_eq_ok.1 hvz).2,
      ((ReserveVault.sharesToBTokensDown_eq_ok hS).1 hz).2]
    rfl
  · have h0 : s.sharesAt r u = 0 :=
      le_antisymm (not_lt.1 hu) ((h.reachable.conserved r).nonneg u)
    refine ⟨0, Contract.getUnderlyingTokens_of_no_shares hu, ?_⟩
    simp [ReserveVault.underlyingOf, ReserveVault.bTokensOf, h0]

end

/-- **One exit.**  It takes exactly the bTokens displayed, and nobody else's are worth less. -/
theorem step (h : Exitable e s r w) (u : Address) :
    ∃ v s' w', exitOne e r s u = .ok (v, s') ∧ v.val = w.underlyingOf (s.sharesAt r u) ∧
      Exitable e s' r w' ∧ w'.bRate = w.bRate ∧
      w'.totalBTokens.val = w.totalBTokens - w.bTokensOf (s.sharesAt r u) ∧
      s'.pool.payouts = (if v.val = 0 then [] else [⟨r, u, v, v⟩]) ++ s.pool.payouts ∧
      ∀ u' ≠ u, w.bTokensOf (s.sharesAt r u') ≤ w'.bTokensOf (s'.sharesAt r u') := by
  obtain ⟨v, hv, hval⟩ := h.view u
  obtain ⟨hsound, hb, -, -⟩ := h.sound
  by_cases hv0 : v.val = 0
  · -- from a rate of one on, bTokens that are displayed as nothing are none
    have hz : w.bTokensOf (s.sharesAt r u) = 0 := by
      have hle := MulDiv.le_floor_self (h.bTokensOf_nonneg u) scalar12_pos (hb ▸ h.rate)
      rw [ReserveVault.underlyingOf] at hval
      have hnonneg := h.bTokensOf_nonneg u
      omega
    refine ⟨v, s, w, ?_, hval, h, rfl, by rw [hz, sub_zero], by rw [if_pos hv0]; rfl,
      fun u' _ => le_rfl⟩
    rw [exitOne, hv, ok_bind, if_pos hv0]
    rfl
  · have hu : 0 < s.sharesAt r u := by
      by_contra hnot
      rw [Contract.getUnderlyingTokens_of_no_shares hnot] at hv
      exact hv0 (Except.ok.inj hv ▸ rfl)
    have hv1 : 1 ≤ v.val := by
      have hnonneg := MulDiv.floor_nonneg (h.bTokensOf_nonneg u) hsound.rate_pos.le scalar12_pos
      rw [ReserveVault.underlyingOf] at hval
      omega
    have hs := h.reachable.soundAt fun _ he => he
    have hc := h.reachable.conserved r
    -- what is displayed can be withdrawn
    obtain ⟨⟨y, s'⟩, hw'⟩ := (withdraw_ok_iff_le_view (e := e.signedBy u) hs hc h.reachable.keyed
      h.rate_pos (decide_eq_true rfl) h.accepts hv).2 ⟨hv1, le_rfl⟩
    have hreach : Reachable (fun e => 0 < (e.bRate r).val) s' :=
      h.reachable.withdraw (e := e.signedBy u) h.rate_pos hw'
    obtain ⟨w₁, x, S, T, hw₁, hx, hm, hxT, hyu, hS, hT, -, hupdated, -⟩ :=
      withdraw_updated h.reachable.keyed hw'
    obtain rfl : w = w₁ := Except.ok.inj (h.updated.symm.trans hw₁)
    obtain ⟨w₂, hw₂, z, hz, hvz⟩ := (Contract.getUnderlyingTokens_eq_ok hu).1 hv
    obtain rfl : w = w₂ := Except.ok.inj (h.updated.symm.trans hw₂)
    have hwS : 0 < w.totalShares.val := lt_of_lt_of_le hu (h.balance_le u)
    have hxz : x.val = w.bTokensOf (s.sharesAt r u) := by
      rw [withdraw_view hsound (hb ▸ h.rate) hvz hx,
        ((ReserveVault.sharesToBTokensDown_eq_ok hwS).1 hz).2]
      rfl
    have hx0 : 0 ≤ x.val := hxz ▸ h.bTokensOf_nonneg u
    have hm0 : 0 ≤ y.val := hsound.burned hm ▸ hx0.trans (hsound.pool.le_burned hx0)
    have hsound' := hsound.withdraw hxT hm hS hT
    have hcross := hsound.withdraw_cross hxT hm hS hT
    have hSw : S.val ≤ w.totalShares := hS ▸ sub_le_self _ hm0
    have hTw : T.val ≤ w.totalBTokens := hT ▸ sub_le_self _ hx0
    have hexit : Exitable e s' r { w with totalShares := S, totalBTokens := T } := {
      reachable := hreach
      rate := h.rate
      accepts := h.accepts
      updated := hupdated
      shares_fit := by
        refine lt_of_le_of_lt ?_ h.shares_fit
        exact mul_le_mul hSw hTw hsound'.bTokens_nonneg hwS.le
      bTokens_fit := by
        refine lt_of_le_of_lt ?_ h.bTokens_fit
        exact mul_le_mul_of_nonneg_right hTw hsound.rate_pos.le }
    refine ⟨v, s', _, ?_, hval, hexit, rfl, hxz ▸ hT, ?_, ?_⟩
    · rw [exitOne, hv, ok_bind, if_neg hv0, hw']
      rfl
    · -- the position covers what the bookkeeping lets go
      obtain ⟨_, -, -, hpaid, hbooked⟩ := Contract.withdraw_eq_ok hw'
      have hcovered := withdraw_covered hs h.reachable.keyed h.rate_pos hbooked
      have hsurplus := h.reachable.surplusAt_nonneg
      rw [State.surplusAt, State.positionAt] at hsurplus
      rw [Pool.withdraw_payouts hpaid (hcovered.trans (sub_nonneg.1 hsurplus)), if_neg hv0]
      rfl
    · intro u' hu'
      have hexec : exec s ⟨e.signedBy u, .withdraw r u v⟩ = .ok (some y, s') := by
        simp [exec, hw']
      have hkept := (exec_effect h.reachable.keyed hexec r).shares_own (u := u')
        (decide_eq_false hu')
      rw [hkept]
      exact hsound.pool.floor_le_floor (q := hsound'.pool) (hc.nonneg u')
        (hkept ▸ hexit.balance_le u') hcross

end Exitable

/-- What a bank run `us` on `r` from `s` to `s'` has paid out, where `w` is the accrued vault before
    it and `w'` the one after it. -/
structure Exited (e : Env Address) (s s' : State Address) (r : Address)
    (w w' : ReserveVault Address) (us : List Address) (amounts : List I128) : Prop where
  updated : Contract.getReserveVault e s' r = .ok w'
  rate : w'.bRate = w.bRate
  /-- Nobody who exits once gets less than was displayed before the run. -/
  displayed_le : us.Nodup → List.Forall₂
    (fun u amount => w.underlyingOf (s.sharesAt r u) ≤ amount.val) us amounts
  /-- The bTokens displayed are gone, … -/
  bTokens_le : us.Nodup →
    w'.totalBTokens.val ≤ w.totalBTokens - (us.map fun u => w.bTokensOf (s.sharesAt r u)).sum
  /-- … no more of them than was paid for, … -/
  paid_le : scalar12.val * (amounts.map I128.val).sum ≤
    w.bRate * (w.totalBTokens.val - w'.totalBTokens)
  /-- … and all but one unit of underlying for each user was paid. -/
  le_paid : w.bRate.val * (w.totalBTokens.val - w'.totalBTokens) ≤
    scalar12.val * ((amounts.map I128.val).sum + us.length)
  /-- The pool has paid each of them that amount, in full. -/
  payouts : s'.pool.payouts = exitPayouts r us amounts ++ s.pool.payouts

/-- **The whole list.**  Whoever exits in whatever order, every exit succeeds: after each, the
    rest can still be emptied, and displays no less than before. -/
theorem exitAll_isOk (h : Exitable e s r w) (us : List Address) :
    ∃ amounts s' w', exitAll e r us s = .ok (amounts, s') ∧ Exited e s s' r w w' us amounts := by
  -- induction on the list, for every state and vault it may start from
  induction us generalizing s w with
  | nil =>
    refine ⟨[], s, w, rfl, h.updated, rfl, fun _ => .nil, fun _ => ?_, ?_, ?_, rfl⟩ <;> simp
  | cons u us ih =>
    obtain ⟨v, s₁, w₁, hstep, hval, h₁, hrate, hT, hpayout, hothers⟩ := h.step u
    obtain ⟨amounts, s', w', hexit, hrest⟩ := ih h₁
    have hv0 : v.val = MulDiv.floor (w.bTokensOf (s.sharesAt r u)) w.bRate scalar12 := hval
    have hfloor := MulDiv.floor_mul_le (x := w.bTokensOf (s.sharesAt r u)) (y := w.bRate.val)
      scalar12_pos
    have hlt := MulDiv.lt_floor_add_one_mul (x := w.bTokensOf (s.sharesAt r u)) (y := w.bRate.val)
      scalar12_pos
    rw [← hv0] at hfloor hlt
    refine ⟨v :: amounts, s', w', ?_, ?_⟩
    · rw [exitAll, hstep]
      show (exitAll e r us s₁ >>= _) = _
      rw [hexit]
      rfl
    -- the users still to come are worth no less after the first exit
    have hothers' (hnodup : (u :: us).Nodup) (u' : Address) (hu' : u' ∈ us) :
        w.bTokensOf (s.sharesAt r u') ≤ w₁.bTokensOf (s₁.sharesAt r u') := by
      refine hothers u' ?_
      rintro rfl
      exact (List.nodup_cons.1 hnodup).1 hu'
    exact {
      updated := hrest.updated
      rate := hrest.rate.trans hrate
      displayed_le := fun hnodup => by
        refine .cons hval.ge ?_
        refine (List.forall₂_iff_get.2 ?_)
        obtain ⟨hlen, hget⟩ := List.forall₂_iff_get.1
          (hrest.displayed_le (List.nodup_cons.1 hnodup).2)
        refine ⟨hlen, fun i hi hi' => le_trans ?_ (hget i hi hi')⟩
        rw [ReserveVault.underlyingOf, ReserveVault.underlyingOf, hrate]
        exact MulDiv.floor_mono h.sound.1.rate_pos.le scalar12_pos
          (hothers' hnodup _ (List.get_mem us ⟨i, hi⟩))
      bTokens_le := fun hnodup => by
        have hsum := hrest.bTokens_le (List.nodup_cons.1 hnodup).2
        have hle := List.sum_le_sum (hothers' hnodup)
        rw [List.map_cons, List.sum_cons]
        omega
      paid_le := by
        have hpaid := hrest.paid_le
        rw [hrate, hT] at hpaid
        rw [List.map_cons, List.sum_cons]
        linarith [mul_comm scalar12.val v.val]
      le_paid := by
        have hpaid := hrest.le_paid
        rw [hrate, hT] at hpaid
        rw [List.map_cons, List.sum_cons, List.length_cons]
        push_cast
        linarith [mul_comm scalar12.val v.val]
      payouts := by
        rw [hrest.payouts, hpayout, exitPayouts, List.append_assoc] }

/-! ### Everybody -/

omit [FixedPoint] in
/-- The shares of all holders, listed once each, are the total. -/
theorem sum_sharesAt (hc : s.Conserved r) {us : List Address} (hnodup : us.Nodup)
    (hall : ∀ u, 0 < s.sharesAt r u → u ∈ us) :
    (us.map (s.sharesAt r)).sum = s.totalSharesAt r := by
  have hsupport : Function.support (s.sharesAt r) ⊆ us.toFinset := by
    intro u hu
    rw [List.coe_toFinset]
    exact hall u (lt_of_le_of_ne (hc.nonneg u) (Ne.symm hu))
  rw [← List.sum_toFinset _ hnodup, ← finsum_eq_finsetSum_of_support_subset _ hsupport, hc.total]

/-- **Bank run.**  In any reachable state, at a rate of at least one, let the products of shares and
    bTokens and of bTokens and rate of the accrued vault fit.  Then every list of users can take
    out all that is displayed to them, each in turn, and the amounts are those of `Exited`.  When
    every holder is on the list, once, fewer bTokens than users are left behind. -/
theorem bank_run (hs : Reachable (fun e => 0 < (e.bRate r).val) s)
    (hrate : scalar12.val ≤ e.bRate r) (hpool : e.poolAccepts = true)
    (hw : Contract.getReserveVault e s r = .ok w)
    (hshares : w.totalShares.val * w.totalBTokens < 2 ^ 127)
    (hbTokens : w.totalBTokens.val * w.bRate < 2 ^ 127) (us : List Address) :
    ∃ amounts s' w', exitAll e r us s = .ok (amounts, s') ∧ Exited e s s' r w w' us amounts ∧
      (us.Nodup → us ≠ [] → (∀ u, 0 < (Contract.getShares s r u).val → u ∈ us) →
        w'.totalBTokens.val < us.length) := by
  have h : Exitable e s r w := ⟨hs, hrate, hpool, hw, hshares, hbTokens⟩
  obtain ⟨amounts, s', w', hexit, hexited⟩ := exitAll_isOk h us
  refine ⟨amounts, s', w', hexit, hexited, ?_⟩
  intro hnodup hne hall
  obtain ⟨hsound, -, -, htotal⟩ := h.sound
  have hleft := hexited.bTokens_le hnodup
  have hlen : 0 < us.length := List.length_pos_of_ne_nil hne
  rcases hsound.pool.shares_nonneg.eq_or_lt with hS | hS
  · -- nobody holds anything
    have hT : w.totalBTokens.val = 0 := hsound.pool.assets_eq_zero_iff.2 hS.symm
    have hsum : 0 ≤ (us.map fun u => w.bTokensOf (s.sharesAt r u)).sum := by
      apply List.sum_nonneg
      intro z hz
      obtain ⟨u, -, rfl⟩ := List.mem_map.1 hz
      exact h.bTokensOf_nonneg u
    omega
  · -- what is displayed to all of them falls short of everything by less than one each
    have hsum := MulDiv.sum_le_sum_floor (y := w.totalBTokens.val) hS (us.map (s.sharesAt r))
    rw [sum_sharesAt (hs.conserved r) hnodup hall, List.map_map, List.length_map,
      ← htotal, mul_comm w.totalShares.val] at hsum
    have hlt : w.totalBTokens.val * w.totalShares <
        ((us.map fun u => w.bTokensOf (s.sharesAt r u)).sum + us.length) * w.totalShares.val :=
      lt_of_lt_of_le (by omega) hsum
    have := lt_of_mul_lt_mul_right hlt hS.le
    omega

omit [FixedPoint] [DecidableEq Address] in
/-- After the concrete run the users `3` and `4` hold all the shares. -/
theorem Demo.state_holders (u : ℕ) (hu : 0 < (Contract.getShares Demo.state 7 u).val) :
    u ∈ [4, 3] := by
  have hc := @Reachable.conserved ℕ FixedPoint.reference _ _ _ Demo.state_reachable 7
  by_contra hmem
  have hle := FiniteSum.sum_le_finsum hc.finite hc.nonneg (insert u [4, 3].toFinset)
  rw [Finset.sum_insert (by simpa using hmem), hc.total] at hle
  have hall : Demo.state.totalSharesAt 7 = ∑ u ∈ [4, 3].toFinset, Demo.state.sharesAt 7 u := by
    decide
  have hpos : 0 < Demo.state.sharesAt 7 u := hu
  omega

omit [FixedPoint] in
/-- The two holders of the concrete run leave, are paid, and one bToken stays behind at most. -/
theorem bank_run_demo : ∃ amounts s' w', @exitAll ℕ FixedPoint.reference _
      (Demo.env 40 (I128.ofUInt64 1200000000000) 0) 7 [4, 3] Demo.state = .ok (amounts, s') ∧
    @Exited ℕ FixedPoint.reference (Demo.env 40 (I128.ofUInt64 1200000000000) 0) Demo.state s' 7
      Demo.vault w' [4, 3] amounts ∧ w'.totalBTokens.val < 2 := by
  obtain ⟨amounts, s', w', hexit, hexited, hleft⟩ := @bank_run ℕ FixedPoint.reference _
    (Demo.env 40 (I128.ofUInt64 1200000000000) 0) Demo.state 7 Demo.vault
    (Demo.state_reachable.mono fun _ h => h 7) (by decide) (by decide) (by decide) (by decide)
    (by decide) [4, 3]
  exact ⟨amounts, s', w', hexit, hexited, hleft (by decide) (by decide) Demo.state_holders⟩

end FeeVault
