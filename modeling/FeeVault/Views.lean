import FeeVault.BankRun
import FeeVault.Refinement
import FeeVault.RoundingLoss

namespace FeeVault

open Outcome

/-!
# What the contract shows

The read-only entry points bring the vault up to date on the fly, without storing it.

* `Ledger.settled` and the views after it — what there is to show, on the ideal ledger;
* `views_refine` — at any point of any run the contract shows what the ledger shows, or traps;
* `displayed_backed` — what is shown to everybody together is backed by the vault's position, and
  only the rounding of each view is missing from it.
-/

variable {Address : Type}

/-! ### On the ledger -/

namespace Ledger

variable (l : Ledger Address) (e : Env Address) (he : e.PositiveRates) (r u : Address)

/-- The reserve, settled at the pool's rate. -/
def settled : Except Failure Reserve := do
  let x ← l.find r
  .ok (x.accrue l.mode (e.bRate r) (he r) e.timestamp.toNat)

/-- What the shares of `u` own, in whole bTokens. -/
def bTokens : ℤ :=
  match l.settled e he r with
  | .ok y => MulDiv.floor (l.holdings r u) y.pool.assets y.pool.shares
  | .error _ => 0

/-- A user without shares owns no bTokens, with or without a reserve. -/
theorem bTokens_of_no_shares (h : l.holdings r u = 0) : l.bTokens e he r u = 0 := by
  unfold bTokens
  split
  · rw [h, MulDiv.floor_zero_left]
  · rfl

/-- What these are worth, in whole units of underlying. -/
def underlying : ℤ := MulDiv.floor (l.bTokens e he r u) (e.bRate r) scalar12

/-- What the fees are worth. -/
def collectedFees : ℤ :=
  match l.settled e he r with
  | .ok y => MulDiv.floor y.fees (e.bRate r) scalar12
  | .error _ => 0

end Ledger

variable [FixedPoint] [DecidableEq Address]
variable {s : State Address} {l : Ledger Address} {e : Env Address} {r u : Address}
  {w : ReserveVault Address}

/-- The contract shows the ledger, except where a view traps. -/
structure Shows (e : Env Address) (he : e.PositiveRates) (s : State Address)
    (l : Ledger Address) : Prop where
  shares : ∀ r u, (Contract.getShares s r u).val = l.holdings r u
  bTokens : ∀ r u, AgreeUnless .arithmetic (fun x n => x.val = n)
    (Contract.getBTokens e s r u) (.ok (l.bTokens e he r u))
  underlying : ∀ r u, AgreeUnless .arithmetic (fun x n => x.val = n)
    (Contract.getUnderlyingTokens e s r u) (.ok (l.underlying e he r u))
  collectedFees : ∀ r, AgreeUnless .arithmetic (fun x n => x.val = n)
    (Contract.getCollectedFees e s r) (.ok (l.collectedFees e he r))
  reserveVault : ∀ r, AgreeUnless .arithmetic ReserveVault.Implements
    (Contract.getReserveVault e s r) (l.settled e he r)

/-! ### In the contract -/

namespace Contract

omit [DecidableEq Address] in
/-- A view of bTokens fails in its arithmetic or not at all: it reads a vault only for a user
    with shares, and where there are shares there is a vault. -/
theorem getBTokens_failsOnly (hc : s.Conserved r) :
    FailsOnly (· = .arithmetic) (getBTokens e s r u) := by
  unfold getBTokens
  dsimp only
  split
  · next hpos =>
    have hv : ∃ v, s.storage.resVault r = some v :=
      Option.ne_none_iff_exists'.1 fun hnone => hpos.ne' (hc.eq_zero_of_absent hnone u)
    exact .bind (ReserveVault.getReserveVaultUpdated_failsOnly rfl (.inl hv)) fun _ _ =>
      failsOnly_unwrap (P := (· = .arithmetic)) rfl _
  · exact .ok 0

omit [DecidableEq Address] in
/-- So does a view of underlying, which converts the bTokens once more. -/
theorem getUnderlyingTokens_failsOnly (hc : s.Conserved r) :
    FailsOnly (· = .arithmetic) (getUnderlyingTokens e s r u) := by
  unfold getUnderlyingTokens
  dsimp only
  split
  · next hpos =>
    have hv : ∃ v, s.storage.resVault r = some v :=
      Option.ne_none_iff_exists'.1 fun hnone => hpos.ne' (hc.eq_zero_of_absent hnone u)
    exact .bind (ReserveVault.getReserveVaultUpdated_failsOnly rfl (.inl hv)) fun _ _ =>
      .bind (failsOnly_unwrap (P := (· = .arithmetic)) rfl _) fun _ _ =>
      failsOnly_unwrap (P := (· = .arithmetic)) rfl _
  · exact .ok 0

end Contract

namespace Simulated

variable (h : Simulated s l) (he : e.PositiveRates)
include h

/-- The vault shown is the reserve settled, and a reserve that has none is refused by both. -/
theorem settled :
    AgreeUnless .arithmetic ReserveVault.Implements (Contract.getReserveVault e s r)
      (l.settled e he r) := by
  have hst := h.implements.storage
  have hr := hst.reserves r
  unfold Contract.getReserveVault Ledger.settled Ledger.find
  cases hx : l.reserves r with
  | none =>
    rw [hx] at hr
    have hnone : s.storage.resVault r = none := by
      generalize s.storage.resVault r = v? at *
      cases hr
      rfl
    rw [ReserveVault.getReserveVaultUpdated, Storage.getReserveVault, hnone]
    exact .agree (.error _)
  | some x =>
    have hv : ∃ v, s.storage.resVault r = some v := by
      rw [hx] at hr
      generalize s.storage.resVault r = v? at *
      cases hr
      exact ⟨_, rfl⟩
    have hfails : FailsOnly (· = .arithmetic)
        (ReserveVault.getReserveVaultUpdated e s.storage r) :=
      ReserveVault.getReserveVaultUpdated_failsOnly rfl (.inl hv)
    cases hw : ReserveVault.getReserveVaultUpdated e s.storage r with
    | ok w => exact .agree (.ok (hst.updated (h.reachable.keyed r) (he r) hx hw).1)
    | error f =>
      obtain rfl := hfails f hw
      exact .stop _

/-- What is shown of a vault that is shown: the contract and the ledger have settled the same
    reserve, at the pool's rate. -/
theorem settled_of_ok (hw : ReserveVault.getReserveVaultUpdated e s.storage r = .ok w) :
    ∃ y, l.settled e he r = .ok y ∧ w.Implements y ∧ w.bRate.val = e.bRate r := by
  have hsettled := h.settled he (r := r)
  unfold Contract.getReserveVault at hsettled
  rw [hw] at hsettled
  cases hsettled with
  | agree hagree =>
    generalize hy : l.settled e he r = y? at *
    cases hagree with
    | @ok _ y hwy =>
      refine ⟨y, rfl, hwy, ?_⟩
      rw [hwy.rate]
      unfold Ledger.settled at hy
      obtain ⟨x, -, hx⟩ := bind_eq_ok.1 hy
      obtain rfl := Except.ok.inj hx
      rfl

/-- A user without shares in the contract has none in the ledger, since balances are not
    negative. -/
theorem no_holdings (hpos : ¬ 0 < s.sharesAt r u) : l.holdings r u = 0 := by
  rw [← h.implements.storage.holdings]
  exact le_antisymm (not_lt.1 hpos) ((h.reachable.conserved r).nonneg u)

/-- The bTokens shown are those the ledger says the shares own.  A user with shares has a vault in
    both, and one without is shown nothing. -/
theorem bTokens :
    AgreeUnless .arithmetic (fun x n => x.val = n) (Contract.getBTokens e s r u)
      (.ok (l.bTokens e he r u)) := by
  have hc := h.reachable.conserved r
  refine .of_failsOnly (Contract.getBTokens_failsOnly hc) fun z hz => ?_
  by_cases hpos : 0 < s.sharesAt r u
  · obtain ⟨w, hw, hz⟩ := (Contract.getBTokens_eq_ok hpos).1 hz
    obtain ⟨y, hy, hwy, -⟩ := h.settled_of_ok he hw
    have hS : 0 < w.totalShares.val := by
      obtain ⟨-, -, -, htotal⟩ :=
        (h.reachable.soundAt fun _ he => he r).updated h.reachable.keyed (he r) hw
      exact hpos.trans_le (htotal ▸ hc.le_total u)
    rw [Ledger.bTokens, hy, ((ReserveVault.sharesToBTokensDown_eq_ok hS).1 hz).2, hwy.shares,
      hwy.bTokens, ← h.implements.storage.holdings]
    rfl
  · rw [Contract.getBTokens_of_no_shares hpos] at hz
    rw [← Except.ok.inj hz, l.bTokens_of_no_shares e he r u (h.no_holdings hpos), I128.val_zero]

/-- The underlying shown is what the ledger says these are worth, by the second
    conversion at the same rate. -/
theorem underlying :
    AgreeUnless .arithmetic (fun x n => x.val = n) (Contract.getUnderlyingTokens e s r u)
      (.ok (l.underlying e he r u)) := by
  have hc := h.reachable.conserved r
  refine .of_failsOnly (Contract.getUnderlyingTokens_failsOnly hc) fun q hq => ?_
  by_cases hpos : 0 < s.sharesAt r u
  · obtain ⟨w, hw, z, hz, hq⟩ := (Contract.getUnderlyingTokens_eq_ok hpos).1 hq
    obtain ⟨-, -, -, hb⟩ := h.settled_of_ok he hw
    have hshown := h.bTokens (u := u) he (r := r)
    rw [(Contract.getBTokens_eq_ok hpos).2 ⟨w, hw, hz⟩] at hshown
    cases hshown with
    | agree hagree =>
      cases hagree with
      | ok hzval =>
        rw [(ReserveVault.bTokensToUnderlyingDown_eq_ok.1 hq).2, hzval, hb, Ledger.underlying]
  · rw [Contract.getUnderlyingTokens_of_no_shares hpos] at hq
    rw [← Except.ok.inj hq, Ledger.underlying,
      l.bTokens_of_no_shares e he r u (h.no_holdings hpos), MulDiv.floor_zero_left, I128.val_zero]

/-- The fees shown are the ledger's; for a reserve without a vault both say zero. -/
theorem collectedFees :
    AgreeUnless .arithmetic (fun x n => x.val = n) (Contract.getCollectedFees e s r)
      (.ok (l.collectedFees e he r)) := by
  have hsettled := h.settled he (r := r)
  unfold Contract.getCollectedFees Ledger.collectedFees
  by_cases hopen : s.storage.hasReserveVault r = true
  · rw [if_pos hopen]
    refine .bind_skip (ReserveVault.getReserveVaultUpdated_failsOnly rfl
      (.inl (Option.isSome_iff_exists.1 hopen))) fun w hw => ?_
    obtain ⟨y, hy, hwy, hb⟩ := h.settled_of_ok he hw
    refine .of_failsOnly (failsOnly_unwrap (P := (· = .arithmetic)) rfl _) fun q hq => ?_
    rw [hy, (ReserveVault.bTokensToUnderlyingDown_eq_ok.1 hq).2, hwy.fees, hb]
  · rw [if_neg hopen]
    have hnone : l.settled e he r = .error (.contract .reserveNotFound) := by
      have hfind := h.implements.storage.find r
      rw [requireHasReserve, if_neg hopen] at hfind
      rw [Ledger.settled]
      generalize l.find r = y? at *
      cases hfind
      rfl
    rw [hnone]
    exact .agree (.ok rfl)

end Simulated

/-- **Views.**  At any point of any run from deployment at positive rates, and in any surroundings
    where the rates are positive, each read-only entry point shows what the ideal ledger shows
    there, unless it traps. -/
theorem views_refine {s₀ : State Address} (hs₀ : Deployed s₀) (ts : List (PricedTx Address))
    (he : e.PositiveRates) :
    Shows e he (Revert.run execPriced s₀ ts)
      (Revert.run Ledger.exec hs₀.ledger (Revert.surviving execPriced .arithmetic s₀ ts)) := by
  obtain ⟨h, -⟩ := Revert.run_simulates (R := Simulated) (fun _ _ t h => exec_simulates h t)
    hs₀.simulated ts
  exact ⟨h.implements.storage.holdings, fun _ _ => h.bTokens he, fun _ _ => h.underlying he,
    fun _ => h.collectedFees he, fun _ => h.settled he⟩

omit [FixedPoint] in
/-- After the concrete run, once the rate has come to 1.3. -/
theorem views_refine_demo : @Shows ℕ FixedPoint.reference
    (Demo.env 80 (I128.ofUInt64 1300000000000) 3) (Demo.env_positiveRates (by decide))
    (Revert.run (@execPriced ℕ FixedPoint.reference _) Demo.deployed Demo.pricedTxs)
    (Revert.run Ledger.exec Demo.deployed_deployed.ledger
      (Revert.surviving (@execPriced ℕ FixedPoint.reference _) .arithmetic Demo.deployed
        Demo.pricedTxs)) :=
  @views_refine ℕ FixedPoint.reference _ _ _ Demo.deployed_deployed Demo.pricedTxs _

/-! ### All views together -/

section Backing

variable {us : List Address} {q fees : I128}

omit [DecidableEq Address] in
/-- The view of underlying, with or without shares: what it returns is the conversion of the
    balance, which is zero for none. -/
theorem Contract.getUnderlyingTokens_val (hw : Contract.getReserveVault e s r = .ok w)
    (ho : 0 ≤ s.sharesAt r u) (hoS : s.sharesAt r u ≤ w.totalShares)
    (h : Contract.getUnderlyingTokens e s r u = .ok q) :
    q.val = w.underlyingOf (s.sharesAt r u) := by
  rcases ho.eq_or_lt with ho | ho
  · rw [Contract.getUnderlyingTokens_of_no_shares ho.not_lt] at h
    rw [← Except.ok.inj h, ← ho, ReserveVault.underlyingOf, ReserveVault.bTokensOf,
      MulDiv.floor_zero_left, MulDiv.floor_zero_left, I128.val_zero]
  · obtain ⟨w', hw', z, hz, hq⟩ := (Contract.getUnderlyingTokens_eq_ok ho).1 h
    obtain rfl : w = w' := Except.ok.inj (hw.symm.trans hw')
    rw [(ReserveVault.bTokensToUnderlyingDown_eq_ok.1 hq).2,
      ((ReserveVault.sharesToBTokensDown_eq_ok (ho.trans_le hoS)).1 hz).2]
    rfl

omit [DecidableEq Address] in
/-- The view of the fees of a vault that is shown. -/
theorem Contract.getCollectedFees_val (hw : Contract.getReserveVault e s r = .ok w)
    (h : Contract.getCollectedFees e s r = .ok fees) :
    fees.val = MulDiv.floor w.accruedFees w.bRate scalar12 := by
  obtain ⟨v, hv, -⟩ := ReserveVault.getReserveVaultUpdated_eq_ok.1 hw
  have hopen : s.storage.hasReserveVault r = true := Option.isSome_iff_exists.2 ⟨v, hv⟩
  have hw' : ReserveVault.getReserveVaultUpdated e s.storage r = .ok w := hw
  rw [Contract.getCollectedFees, if_pos hopen, hw', ok_bind] at h
  exact (ReserveVault.bTokensToUnderlyingDown_eq_ok.1 h).2

omit [DecidableEq Address] in
/-- Bringing the vault up to date does not change what it owes. -/
theorem Contract.owedAt_of_getReserveVault (hw : Contract.getReserveVault e s r = .ok w) :
    s.owedAt r = w.owed := by
  obtain ⟨v, hv, hvw⟩ := ReserveVault.getReserveVaultUpdated_eq_ok.1 hw
  rw [State.owedAt_some hv, ReserveVault.updateRate_owed hvw]

/-- **Backing.**  In every reachable state, what the views show to any users and what is shown of
    the fees is together worth no more than the vault's position with the pool.  When every holder
    is among the users, what the vault owes is worth less than one unit a view and one bToken a user
    more than what is shown. -/
theorem displayed_backed (hs : Reachable Env.PositiveRates s) (he : e.PositiveRates)
    (hw : Contract.getReserveVault e s r = .ok w) (hnodup : us.Nodup) {shown : List I128}
    (hshown : List.Forall₂ (fun u q => Contract.getUnderlyingTokens e s r u = .ok q) us shown)
    (hfees : Contract.getCollectedFees e s r = .ok fees) :
    (shown.map I128.val).sum + fees ≤ MulDiv.floor (s.positionAt r) (e.bRate r) scalar12 ∧
      ((∀ u, 0 < (Contract.getShares s r u).val → u ∈ us) →
        w.owed * (e.bRate r).val <
          ((shown.map I128.val).sum + fees + us.length + 1) * scalar12 +
            us.length * (e.bRate r).val) := by
  obtain ⟨hsound, hb, -, htotal⟩ :=
    (hs.soundAt fun _ he => he r).updated hs.keyed (he r) hw
  have hc := hs.conserved r
  have hle (u : Address) : s.sharesAt r u ≤ w.totalShares := htotal ▸ hc.le_total u
  generalize hzs : (us.map (s.sharesAt r)).map w.bTokensOf = zs
  have hlen : zs.length = us.length := by simp [← hzs]
  -- what is shown are the bTokens of the users and of the admin, each rounded down to underlying
  have hval : (shown.map I128.val).sum = (zs.map fun z => MulDiv.floor z w.bRate scalar12).sum := by
    rw [← hzs, List.map_map, List.map_map]
    congr 1
    rw [← List.forall₂_eq_eq_eq, List.forall₂_map_left_iff, List.forall₂_map_right_iff]
    exact (hshown.imp fun u q hq =>
      Contract.getUnderlyingTokens_val hw (hc.nonneg u) (hle u) hq).flip
  have hfee := Contract.getCollectedFees_val hw hfees
  rw [hval, hfee, ← hb]
  refine ⟨?_, fun hall => ?_⟩
  · have hshares : (us.map (s.sharesAt r)).sum ≤ w.totalShares := by
      rw [htotal, ← hc.total, ← List.sum_toFinset _ hnodup]
      exact FiniteSum.sum_le_finsum hc.finite hc.nonneg _
    have hz : zs.sum ≤ w.totalBTokens := hzs ▸ hsound.pool.sum_floor_le_assets hshares
    have hsum := MulDiv.sum_floor_le (y := w.bRate.val) scalar12_pos (w.accruedFees.val :: zs)
    rw [List.map_cons, List.sum_cons, List.sum_cons] at hsum
    rw [add_comm]
    refine hsum.trans (MulDiv.floor_mono hsound.rate_pos.le scalar12_pos ?_)
    have hsurplus := hs.surplus_nonneg r
    rw [State.surplusAt, Contract.owedAt_of_getReserveVault hw, ReserveVault.owed] at hsurplus
    omega
  · have hshares : (us.map (s.sharesAt r)).sum = w.totalShares :=
      htotal ▸ sum_sharesAt hc hnodup hall
    have hz : w.totalBTokens ≤ zs.sum + us.length := by
      have h := hsound.pool.assets_le_sum_floor hshares
      rw [List.length_map] at h
      exact hzs ▸ h
    have hsum := MulDiv.sum_le_sum_floor (y := w.bRate.val) scalar12_pos (w.accruedFees.val :: zs)
    rw [List.map_cons, List.sum_cons, List.sum_cons, List.length_cons, hlen] at hsum
    have hrate := mul_le_mul_of_nonneg_right hz hsound.rate_pos.le
    rw [ReserveVault.owed]
    push_cast at hsum
    linarith

/-- The vault of reserve `7` as it is shown later, at a rate of 1.3. -/
def Demo.shownVault : ReserveVault ℕ :=
  { vault with
    bRate := I128.ofUInt64 1300000000000
    lastUpdateTimestamp := 80
    totalBTokens := I128.ofUInt64 135398219
    accruedFees := I128.ofUInt64 1049598 }

omit [FixedPoint] [DecidableEq Address] in
/-- What is shown then to the two holders and of the fees: three units less than the
    position is worth. -/
theorem displayed_backed_demo :
    (([59722219, 116295463].map I128.ofUInt64).map I128.val).sum + (I128.ofUInt64 1364477).val ≤
        MulDiv.floor (Demo.state.positionAt 7) (I128.ofUInt64 1300000000000) scalar12 ∧
      Demo.shownVault.owed * (I128.ofUInt64 1300000000000).val <
        ((([59722219, 116295463].map I128.ofUInt64).map I128.val).sum +
          (I128.ofUInt64 1364477).val + 2 + 1) * scalar12 +
            2 * (I128.ofUInt64 1300000000000).val := by
  obtain ⟨hbacked, howed⟩ := @displayed_backed ℕ FixedPoint.reference _ _
    (Demo.env 80 (I128.ofUInt64 1300000000000) 3) 7 Demo.shownVault [4, 3]
    (I128.ofUInt64 1364477) Demo.state_reachable (Demo.env_positiveRates (by decide))
    (by decide) (by decide) ([59722219, 116295463].map I128.ofUInt64)
    (.cons (by decide) (.cons (by decide) .nil)) (by decide)
  exact ⟨hbacked, howed Demo.state_holders⟩

end Backing

end FeeVault
