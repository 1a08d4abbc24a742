import FeeVault.FeeModes
import FeeVault.Ledger
import FeeVault.Solvency

namespace FeeVault

open Outcome

/-!
# The contract refines the ideal ledger

`State.Implements` relates what the contract stores, in 128 bits, to a `Ledger`; the pool's position
and the list of reserves have no counterpart there.  As long as the arithmetic does not trap, each
part of a call does what the ledger does and refuses what the ledger refuses:

* `ReserveVault.Implements.accrue` — settling a reserve;
* `Storage.Implements.mint` / `Storage.Implements.burn` — the bookkeeping of the two movements, with
  the checks that never fire;
* `exec_simulates` — a call, where the payments are in full because the position covers them;
* `run_refines` — so a whole run, less the calls that trap, is a run of the ledger.
-/

variable {Address : Type}

/-! ### The relation -/

/-- The totals stored for a reserve are its own. -/
structure ReserveVault.Implements (v : ReserveVault Address) (x : Reserve) : Prop where
  shares : v.totalShares.val = x.pool.shares
  bTokens : v.totalBTokens.val = x.pool.assets
  fees : v.accruedFees.val = x.fees
  rate : v.bRate.val = x.rate
  time : v.lastUpdateTimestamp.toNat = x.time

/-- The contract's storage holds the ledger. -/
structure Storage.Implements (st : Storage Address) (l : Ledger Address) : Prop where
  admin : st.admin = l.admin
  mode : st.feeMode = l.mode.1
  reserves : ∀ r, (st.resVault r).Rel ReserveVault.Implements (l.reserves r)
  holdings : ∀ r u, (st.getReserveVaultShares r u).val = l.holdings r u

/-- The contract holds the ledger, and what the pool has paid is what the ledger paid. -/
structure State.Implements (s : State Address) (l : Ledger Address) : Prop where
  storage : s.storage.Implements l
  payouts : s.pool.payouts.map (fun p => (p.reserve, p.toAddr, p.paid)) = l.payouts

variable [FixedPoint]

/-! ### One reserve -/

namespace ReserveVault.Implements

variable {v w : ReserveVault Address} {x : Reserve} {e : Env Address} {mode : Mode}
  {a b m : I128}

omit [FixedPoint] in
/-- The ledger's types carry what the contract keeps as an invariant. -/
theorem sound (h : v.Implements x) : v.Sound :=
  .ofPool x.pool h.shares h.bTokens (h.rate ▸ x.rate_pos) (h.fees ▸ x.fees_nonneg)

omit [FixedPoint] in
/-- The pool of shares that `sound` builds from the vault is the one the ledger keeps. -/
theorem pool (h : v.Implements x) : h.sound.pool = x.pool :=
  SharePool.ext h.shares h.bTokens

omit [FixedPoint] in
/-- The fee of an accrual is the ledger's.  Only a capped one looks at the time, and there it has
    not gone back since the accrual went through. -/
theorem feeTaken (h : v.Implements x)
    (htime : mode.1.isAprCapped = true → v.bRate.val < (e.bRate v.address).val →
      v.lastUpdateTimestamp.toNat ≤ e.timestamp.toNat) :
    ReserveVault.feeTaken e mode.1 v =
      x.fee mode.1 (e.bRate v.address) e.timestamp.toNat := by
  unfold ReserveVault.feeTaken Reserve.fee
  rw [h.bTokens, h.rate]
  split
  · rfl
  · next hlt =>
    split
    · next hc =>
      have hle := htime hc (h.rate ▸ not_le.1 hlt)
      rw [← h.time, Nat.cast_sub hle]
    · rfl

/-- **Accrual** settles the reserve: the vault that comes out of it holds the ledger's reserve at
    the new rate and time, with the same fee taken. -/
theorem accrue (h : v.Implements x) (hn : 0 < (e.bRate v.address).val)
    (hw : v.updateRate e mode.1 = .ok w) :
    w.Implements (x.accrue mode (e.bRate v.address) hn e.timestamp.toNat) := by
  obtain ⟨hacc, htime⟩ :=
    updateRate_feeTaken h.sound.rate_pos h.sound.bTokens_nonneg mode.2.1 hw
  rw [h.feeTaken htime] at hacc
  exact {
    shares := by rw [hacc.totalShares]; exact h.shares
    bTokens := by rw [hacc.totalBTokens, h.bTokens]; rfl
    fees := by rw [hacc.accruedFees, h.fees]; rfl
    rate := congrArg I128.val hacc.bRate
    time := congrArg UInt64.toNat hacc.lastUpdateTimestamp }

end ReserveVault.Implements

/-! ### The bookkeeping -/

omit [FixedPoint] in
/-- Checked arithmetic has no counterpart in the ledger. -/
theorem agreeUnless_unwrap {α β γ : Type} {Q : α → β → Prop} {o : Option γ}
    {g : γ → Except Failure α} {y : Except Failure β}
    (hg : ∀ c, o = some c → AgreeUnless .arithmetic Q (g c) y) :
    AgreeUnless .arithmetic Q (unwrapOptimized o >>= g) y :=
  .bind_skip (failsOnly_unwrap (P := (· = .arithmetic)) rfl o)
    fun c hc => hg c (unwrapOptimized_eq_ok.1 hc)

namespace Storage.Implements

variable [DecidableEq Address]
variable {st : Storage Address} {l : Ledger Address} {r u : Address} {x y : Reserve}
  {w : ReserveVault Address} {e : Env Address} {a bal : I128} {d : ℤ}

omit [FixedPoint] in
/-- Writing a vault is writing the ledger's reserve; the rest of the storage is as
    before on both sides. -/
theorem setReserve (h : st.Implements l) (hw : w.Implements y) :
    (st.setReserveVault r w).Implements (l.setReserve r y) where
  admin := h.admin
  mode := h.mode
  reserves r' := by
    rw [resVault_setReserveVault, Ledger.setReserve_reserves]
    split
    · exact .some hw
    · exact h.reserves r'
  holdings := h.holdings

omit [FixedPoint] in
/-- A movement writes the vault and the user's shares, in the ledger both at once. -/
theorem credit (h : st.Implements l) (hw : w.Implements y)
    (hbal : bal.val = (st.getReserveVaultShares r u).val + d) :
    ((st.setReserveVault r w).setReserveVaultShares r u bal).Implements (l.credit r u y d) where
  admin := h.admin
  mode := h.mode
  reserves := (h.setReserve hw).reserves
  holdings r' u' := by
    rw [getReserveVaultShares_setReserveVaultShares, Ledger.credit_holdings]
    split
    · rw [hbal, h.holdings]
    · exact h.holdings r' u'

omit [FixedPoint] [DecidableEq Address] in
/-- Payments have no counterpart in the storage, only in the pool. -/
theorem pay (h : st.Implements l) (r u : Address) (d : ℤ) : st.Implements (l.pay r u d) :=
  ⟨h.admin, h.mode, h.reserves, h.holdings⟩

omit [FixedPoint] [DecidableEq Address] in
/-- The contract finds a reserve when the ledger does. -/
theorem find (h : st.Implements l) (r : Address) :
    Agree (fun _ x => l.reserves r = some x ∧ ∃ v, st.resVault r = some v ∧ v.Implements x)
      (requireHasReserve st r) (l.find r) := by
  unfold requireHasReserve hasReserveVault Ledger.find
  have hr := h.reserves r
  generalize st.resVault r = v? at *
  generalize l.reserves r = x? at *
  cases hr with
  | none => exact .error _
  | some hv => exact .ok ⟨rfl, _, rfl, hv⟩

omit [DecidableEq Address] in
/-- What a movement works with: the vault read at the pool's rate holds the ledger's reserve
    settled at it, and is stored under that reserve. -/
theorem updated (h : st.Implements l) (hkey : ∀ v, st.resVault r = some v → v.address = r)
    (hn : 0 < (e.bRate r).val) (hx : l.reserves r = some x)
    (hw : ReserveVault.getReserveVaultUpdated e st r = .ok w) :
    w.Implements (x.accrue l.mode (e.bRate r) hn e.timestamp.toNat) ∧ w.address = r := by
  obtain ⟨v, hv, hvw⟩ := ReserveVault.getReserveVaultUpdated_eq_ok.1 hw
  have hvx := h.reserves r
  rw [hv, hx] at hvx
  cases hvx with
  | some hvx =>
    have haddr := hkey v hv
    subst haddr
    rw [h.mode] at hvw
    exact ⟨hvx.accrue hn hvw, (ReserveVault.updateRate_accrual hvw).choose_spec.address⟩

variable {bTokens : ℤ}

/-- **The bookkeeping of a deposit** is the ledger's: shares are minted for every bToken, so the
    check on the shares never fires. -/
theorem mint (h : st.Implements l) (hkey : ∀ v, st.resVault r = some v → v.address = r)
    (hn : 0 < (e.bRate r).val) (hv : ∃ v, st.resVault r = some v)
    (hx : l.reserves r = some x) :
    AgreeUnless .arithmetic
      (fun p q => p.1.2.val = q.1 ∧ p.2.Implements q.2 ∧ q.2.payouts = l.payouts)
      (ReserveVault.deposit e st r u a)
      (l.mint r u (x.accrue l.mode (e.bRate r) hn e.timestamp.toNat)
        (MulDiv.floor a scalar12 (e.bRate r))) := by
  refine .bind_skip (ReserveVault.getReserveVaultUpdated_failsOnly rfl (.inl hv)) ?_
  intro w hw
  obtain ⟨hwy, haddr⟩ := h.updated hkey hn hx hw
  generalize hy : x.accrue l.mode (e.bRate r) hn e.timestamp.toNat = y at hwy
  refine agreeUnless_unwrap ?_
  intro b hb
  have hbval := ((ReserveVault.underlyingToBTokensDown_eq_ok hwy.sound.rate_pos).1
    (unwrapOptimized_eq_ok.2 hb)).2
  have hrate : w.bRate.val = e.bRate r := by rw [hwy.rate, ← hy]; rfl
  rw [← hrate, ← hbval]
  unfold Ledger.mint
  by_cases hpos : 0 < b.val
  · have hpass : requirePositive b .invalidBTokensMinted = .ok () := requirePositive_eq_ok.2 hpos
    rw [dif_pos hpos, hpass, ok_bind]
    refine .bind_skip (ReserveVault.bTokensToSharesDown_failsOnly rfl) ?_
    intro m hm
    have hmval : m.val = y.pool.minted b := by rw [hwy.sound.minted hm, hwy.pool]
    have hmpos : 0 < m.val := hmval ▸ lt_of_lt_of_le hpos (y.pool.le_minted hpos.le)
    have hpass' : requirePositive m .invalidSharesMinted = .ok () := requirePositive_eq_ok.2 hmpos
    rw [hpass', ok_bind]
    refine agreeUnless_unwrap fun S hS => ?_
    refine agreeUnless_unwrap fun T hT => ?_
    refine agreeUnless_unwrap fun bal hbal => ?_
    rw [I128.checkedAdd_eq_some] at hS hT hbal
    rw [haddr] at hbal ⊢
    refine .agree (.ok ⟨hmval, h.credit ?_ (hbal.trans (by rw [hmval])), rfl⟩)
    exact {
      shares := by rw [hS, hwy.shares, hmval]; rfl
      bTokens := by rw [hT, hwy.bTokens]; rfl
      fees := hwy.fees
      rate := hwy.rate
      time := hwy.time }
  · rw [dif_neg hpos]
    have hrefused : requirePositive b .invalidBTokensMinted =
        .error (.contract .invalidBTokensMinted) := if_pos (not_lt.1 hpos)
    rw [hrefused]
    exact .agree (.error _)

/-- **The bookkeeping of a withdrawal** is the ledger's: shares are burned for every bToken, and no
    more than there are unless the bTokens are more than there are. -/
theorem burn (h : st.Implements l) (hkey : ∀ v, st.resVault r = some v → v.address = r)
    (hn : 0 < (e.bRate r).val) (hv : ∃ v, st.resVault r = some v)
    (hx : l.reserves r = some x) (ha : 0 < a.val) :
    AgreeUnless .arithmetic
      (fun p q => p.1.2.val = q.1 ∧ p.2.Implements q.2 ∧ q.2.payouts = l.payouts)
      (ReserveVault.withdraw e st r u a)
      (l.burn r u (x.accrue l.mode (e.bRate r) hn e.timestamp.toNat)
        (MulDiv.ceil a scalar12 (e.bRate r))) := by
  refine .bind_skip (ReserveVault.getReserveVaultUpdated_failsOnly rfl (.inl hv)) ?_
  intro w hw
  obtain ⟨hwy, haddr⟩ := h.updated hkey hn hx hw
  generalize hy : x.accrue l.mode (e.bRate r) hn e.timestamp.toNat = y at hwy
  have hrate : w.bRate.val = e.bRate r := by rw [hwy.rate, ← hy]; rfl
  refine agreeUnless_unwrap ?_
  intro b hb
  have hbval := ((ReserveVault.underlyingToBTokensUp_eq_ok hwy.sound.rate_pos).1
    (unwrapOptimized_eq_ok.2 hb)).2
  rw [← hrate, ← hbval]
  refine .bind_skip (ReserveVault.bTokensToSharesUp_failsOnly rfl) ?_
  intro m hm
  have hmval : m.val = y.pool.burned b := by rw [hwy.sound.burned hm, hwy.pool]
  have hmpos := (hwy.sound.burned_pos ha (unwrapOptimized_eq_ok.2 hb) hm).2
  have hpass : requirePositive m .invalidBTokensBurnt = .ok () := requirePositive_eq_ok.2 hmpos
  rw [hpass, ok_bind]
  unfold Ledger.burn
  by_cases hbT : b.val ≤ y.pool.assets
  · -- the shares burned are then no more than there are either
    have hmS : m.val ≤ w.totalShares := by
      have hrest := (y.pool.withdraw b hbT).shares_nonneg
      rw [SharePool.withdraw_shares, ← hmval, ← hwy.shares] at hrest
      omega
    have hnot : ¬ (w.totalShares < m ∨ w.totalBTokens < b) := by
      rw [I128.lt_iff, I128.lt_iff, hwy.bTokens]
      omega
    rw [dif_pos hbT, if_neg hnot, haddr, ← hmval, ← h.holdings]
    by_cases hmbal : m.val ≤ st.getReserveVaultShares r u
    · rw [if_pos hmbal, if_neg (mt I128.lt_iff.1 (not_lt.2 hmbal))]
      refine agreeUnless_unwrap fun S hS => ?_
      refine agreeUnless_unwrap fun T hT => ?_
      refine agreeUnless_unwrap fun bal hbal => ?_
      rw [I128.checkedSub_eq_some] at hS hT hbal
      refine .agree (.ok ⟨rfl, h.credit ?_ (hbal.trans (sub_eq_add_neg _ _)), rfl⟩)
      exact {
        shares := by rw [hS, hwy.shares, hmval]; rfl
        bTokens := by rw [hT, hwy.bTokens]; rfl
        fees := hwy.fees
        rate := hwy.rate
        time := hwy.time }
    · rw [if_neg hmbal, if_pos (I128.lt_iff.2 (not_le.1 hmbal))]
      exact .agree (.error _)
  · have hexceeds : w.totalShares < m ∨ w.totalBTokens < b := by
      rw [I128.lt_iff, I128.lt_iff, hwy.bTokens]
      omega
    rw [dif_neg hbT, if_pos hexceeds]
    exact .agree (.error _)

/-- **The bookkeeping of a fee claim** is the ledger's: it settles the reserve, refuses when
    there are no fees, and otherwise asks for their underlying, rounded down. -/
theorem claim (h : st.Implements l) (hkey : ∀ v, st.resVault r = some v → v.address = r)
    (hn : 0 < (e.bRate r).val) (hv : ∃ v, st.resVault r = some v)
    (hx : l.reserves r = some x)
    (hy : y = x.accrue l.mode (e.bRate r) hn e.timestamp.toNat) :
    AgreeUnless .arithmetic
      (fun p _ => p.1.1.val = y.fees ∧ p.1.2.val = MulDiv.floor y.fees (e.bRate r) scalar12 ∧
        p.2.Implements (l.setReserve r y.claimed))
      (ReserveVault.claimFees e st r) y.requireFees := by
  refine .bind_skip (ReserveVault.getReserveVaultUpdated_failsOnly rfl (.inl hv)) ?_
  intro w hw
  obtain ⟨hwy, haddr⟩ := h.updated hkey hn hx hw
  rw [← hy] at hwy
  have hrate : w.bRate.val = e.bRate r := by rw [hwy.rate, hy]; rfl
  unfold Reserve.requireFees
  dsimp only
  by_cases hpos : 0 < w.accruedFees.val
  · have hpass : requirePositive w.accruedFees .insufficientAccruedFees = .ok () :=
      requirePositive_eq_ok.2 hpos
    rw [if_pos (hwy.fees ▸ hpos), hpass, ok_bind]
    refine agreeUnless_unwrap fun q hq => ?_
    have hqval := (ReserveVault.bTokensToUnderlyingDown_eq_ok.1 (unwrapOptimized_eq_ok.2 hq)).2
    rw [haddr]
    refine .agree (.ok ⟨hwy.fees, by rw [hqval, hwy.fees, hrate], h.setReserve ?_⟩)
    exact ⟨hwy.shares, hwy.bTokens, rfl, hwy.rate, hwy.time⟩
  · have hrefused : requirePositive w.accruedFees .insufficientAccruedFees =
        .error (.contract .insufficientAccruedFees) := if_pos (not_lt.1 hpos)
    rw [if_neg (hwy.fees ▸ hpos), hrefused]
    exact .agree (.error _)

end Storage.Implements

/-! ### The calls -/

variable [DecidableEq Address]
variable {s : State Address} {l : Ledger Address} {e : Env Address} {r u : Address} {a : I128}

namespace Pool

omit [FixedPoint] in
/-- The pool takes a deposit exactly when the ledger's surroundings accept the call; what it does
    to the position, the ledger does not see. -/
theorem supply_agree (p : Pool Address) :
    Agree (fun p' _ => p.supply e r a = .ok p') (p.supply e r a) e.accepted := by
  unfold supply Env.accepted
  split
  · exact .ok rfl
  · exact .error _

omit [FixedPoint] in
/-- Likewise for a payment, whose success depends on nothing but that. -/
theorem withdraw_agree (p : Pool Address) :
    Agree (fun p' _ => p.withdraw e r u a = .ok p') (p.withdraw e r u a) e.accepted := by
  cases h : p.withdraw e r u a with
  | ok p' =>
    rw [Env.accepted, if_pos (withdraw_accepted h)]
    exact .ok rfl
  | error f =>
    have hrefused : e.poolAccepts ≠ true ∧ f = .pool := by
      simp only [withdraw] at h
      split at h
      · split at h <;> cases h
      · next hnot => exact ⟨hnot, (Except.error.inj h).symm⟩
    rw [Env.accepted, if_neg hrefused.1, hrefused.2]
    exact .error _

end Pool

/-- The contract holds the ledger in a state it can be in. -/
structure Simulated (s : State Address) (l : Ledger Address) : Prop where
  reachable : Reachable Env.PositiveRates s
  implements : s.Implements l

namespace Simulated

/-- What the position covers is paid in full. -/
theorem paid {p : Pool Address} (h : Simulated s l)
    (hp : s.pool.withdraw e r u a = .ok p)
    (hcover : MulDiv.ceil a scalar12 (e.bRate r) ≤ s.owedAt r) :
    p.payouts.map (fun p => (p.reserve, p.toAddr, p.paid)) = (r, u, a.val) :: l.payouts := by
  have hsurplus := h.reachable.surplus_nonneg r
  rw [State.surplusAt, State.positionAt] at hsurplus
  rw [Pool.withdraw_payouts hp (by omega), List.map_cons, h.implements.payouts]

variable (h : Simulated s l) (he : e.PositiveRates)
include h

/-- **Deposits** do what the ledger does.  Both make their checks in the same order, and the
    pool's part moves only the position. -/
theorem deposit :
    AgreeUnless .arithmetic (fun p q => p.1.val = q.1 ∧ p.2.Implements q.2)
      (Contract.deposit e s r u a) (l.deposit e he r u a) := by
  have hst := h.implements.storage
  refine .bind_left fun _ _ => ?_
  refine .bind (.agree (hst.find r)) ?_
  rintro _ x ⟨hx, v, hv, -⟩
  refine .bind_left fun _ _ => ?_
  refine .bind (.agree (Pool.supply_agree s.pool)) ?_
  intro p _ hp
  rw [← bind_pure (l.mint _ _ _ _)]
  refine .bind (hst.mint (h.reachable.keyed r) (he r) ⟨v, hv⟩ hx) ?_
  rintro ⟨⟨b, m⟩, st⟩ ⟨shares, l'⟩ ⟨hm, hst', hpayouts⟩
  refine .agree (.ok ⟨hm, hst', ?_⟩)
  show p.payouts.map _ = l'.payouts
  rw [Pool.supply_payouts hp, h.implements.payouts, hpayouts]

/-- **Withdrawals** do what the ledger does.  The pool pays before the shares are checked, yet in
    full, since what the bookkeeping lets through is covered by the position. -/
theorem withdraw :
    AgreeUnless .arithmetic (fun p q => p.1.val = q.1 ∧ p.2.Implements q.2)
      (Contract.withdraw e s r u a) (l.withdraw e he r u a) := by
  have hst := h.implements.storage
  refine .bind_left fun _ _ => ?_
  refine .bind (.agree (hst.find r)) ?_
  rintro _ x ⟨hx, v, hv, -⟩
  refine .bind_left fun _ ha => ?_
  refine .bind (.agree (Pool.withdraw_agree s.pool)) ?_
  intro p _ hp
  refine .bind (hst.burn (h.reachable.keyed r) (he r) ⟨v, hv⟩ hx
    (requirePositive_eq_ok.1 ha)).with_eq ?_
  rintro ⟨⟨b, m⟩, st⟩ ⟨shares, l'⟩ ⟨⟨hm, hst', hpayouts⟩, hbooked, -⟩
  refine .agree (.ok ⟨hm, hst'.pay r u a, ?_⟩)
  have hcover := withdraw_covered (h.reachable.soundAt fun _ he => he r) h.reachable.keyed (he r)
    hbooked
  show p.payouts.map _ = (r, u, a.val) :: l'.payouts
  rw [h.paid hp hcover, hpayouts]

/-- **Fee claims** do what the ledger does: the fees owed are covered by the position as well, so
    the pool pays the underlying asked for. -/
theorem claimFees {toAddr : Address} :
    AgreeUnless .arithmetic (fun p q => p.1.val = q.1 ∧ p.2.Implements q.2)
      (Contract.claimFees e s r toAddr) (l.claimFees e he r toAddr) := by
  have hst := h.implements.storage
  unfold Contract.claimFees Ledger.claimFees
  rw [hst.admin]
  refine .bind_left fun _ _ => ?_
  refine .bind (.agree (hst.find r)) ?_
  rintro _ x ⟨hx, v, hv, -⟩
  refine .bind (hst.claim (h.reachable.keyed r) (he r) ⟨v, hv⟩ hx rfl).with_eq ?_
  rintro ⟨⟨b, q⟩, st⟩ _ ⟨⟨hb, hq, hst'⟩, hbooked, -⟩
  refine .bind (.agree (Pool.withdraw_agree s.pool)) ?_
  intro p _ hp
  refine .agree (.ok ⟨hb, hst'.pay r toAddr _, ?_⟩)
  have hcover := claimFees_covered (h.reachable.soundAt fun _ he => he r) h.reachable.keyed (he r)
    hbooked
  show p.payouts.map _ = (r, toAddr, _) :: l.payouts
  rw [h.paid hp hcover, hq]

/-- **Fee mode.**  The loop over the list of reserves settles all reserves of the ledger, at once
    there, since every vault is on the list. -/
theorem setFeeMode {isAprCapped : Bool} {value : I128} :
    AgreeUnless .arithmetic (fun s' l' => s'.Implements l')
      (Contract.setFeeMode e s isAprCapped value) (l.setFeeMode e he isAprCapped value) := by
  have hst := h.implements.storage
  unfold Contract.setFeeMode Ledger.setFeeMode
  rw [hst.admin]
  refine .bind_left fun _ _ => ?_
  by_cases hvalid : (FeeMode.mk isAprCapped value).Valid
  · have hpass : Contract.requireFeeModeValue value = .ok () :=
      (Contract.requireFeeModeValue_eq_ok isAprCapped).2 hvalid
    rw [dif_pos hvalid, hpass, ok_bind]
    -- the loop over the list of reserves settles every one of them
    refine .bind_skip (ReserveVault.foldlM_accrue_failsOnly h.reachable.stored)
      fun st haccrued => ?_
    have haccruable := (accrueAll_isOk_iff h.reachable).1 ⟨st, haccrued⟩
    rw [accrueAll_eq h.reachable haccrued]
    refine .agree (.ok ⟨⟨hst.admin, rfl, fun r => ?_, hst.holdings⟩, h.implements.payouts⟩)
    have hr := hst.reserves r
    have hkey := h.reachable.keyed r
    have hok := haccruable r
    show (((s.vaultAt r).map _)).Rel _ ((l.reserves r).map _)
    unfold State.vaultAt at *
    generalize s.storage.resVault r = v? at *
    generalize l.reserves r = x? at *
    cases hr with
    | none => exact .none
    | @some v x hvx =>
      obtain ⟨w, hw⟩ := hok v rfl
      have haddr := hkey v rfl
      subst haddr
      refine .some ?_
      rw [ReserveVault.accrue_of_ok hw]
      rw [hst.mode] at hw
      exact hvx.accrue (he v.address) hw
  · have hrefused : Contract.requireFeeModeValue value =
        .error (.contract .invalidFeeModeValue) := by
      unfold Contract.requireFeeModeValue
      refine if_pos ?_
      by_contra hnot
      exact hvalid (show 0 ≤ value.val ∧ value.val ≤ 10000000 by omega)
    rw [dif_neg hvalid, hrefused]
    exact .agree (.error _)

/-- **Admin.**  Both sides ask the old admin and the new one. -/
theorem setAdmin {admin : Address} :
    AgreeUnless .arithmetic (fun s' l' => s'.Implements l')
      (Contract.setAdmin e s admin) (l.setAdmin e admin) := by
  have hst := h.implements.storage
  unfold Contract.setAdmin Ledger.setAdmin
  rw [hst.admin]
  refine .bind_left fun _ _ => .bind_left fun _ _ => ?_
  exact .agree (.ok ⟨⟨rfl, hst.mode, hst.reserves, hst.holdings⟩, h.implements.payouts⟩)

/-- **New reserves.**  The contract and the ledger find the same reserves taken, and start a new
    one with the same rate and time. -/
theorem addReserveVault :
    AgreeUnless .arithmetic (fun s' l' => s'.Implements l')
      (Contract.addReserveVault e s r) (l.addReserveVault e he r) := by
  have hst := h.implements.storage
  unfold Contract.addReserveVault Ledger.addReserveVault
  rw [hst.admin]
  refine .bind_left fun _ _ => ?_
  have hopen : s.storage.hasReserveVault r = (l.reserves r).isSome := by
    have hr := hst.reserves r
    unfold Storage.hasReserveVault
    generalize s.storage.resVault r = v? at *
    generalize l.reserves r = x? at *
    cases hr <;> rfl
  rw [hopen]
  split
  · exact .agree (.error _)
  · have hset := hst.setReserve (r := r)
      (w := ⟨r, e.bRate r, e.timestamp, 0, 0, 0⟩)
      (y := .fresh (e.bRate r) (he r) e.timestamp.toNat) ⟨rfl, rfl, rfl, rfl, rfl⟩
    exact .agree (.ok ⟨⟨hset.admin, hset.mode, hset.reserves, hset.holdings⟩,
      h.implements.payouts⟩)

/-- **Emissions** are the pool's affair: they change neither the storage nor the ledger. -/
theorem claimEmissions {ids : List UInt32} {toAddr : Address} :
    AgreeUnless .arithmetic (fun p q => p.1.val = q ∧ p.2.Implements l)
      (Contract.claimEmissions e s ids toAddr) (l.claimEmissions e ids toAddr) := by
  unfold Contract.claimEmissions Ledger.claimEmissions
  rw [h.implements.storage.admin]
  refine .bind_left fun _ _ => ?_
  have hclaim : Agree (fun y _ => y = e.emissions ids toAddr) (Pool.claim e ids toAddr)
      e.accepted := by
    unfold Pool.claim Env.accepted
    split
    · exact .ok rfl
    · exact .error _
  refine .bind (.agree hclaim) ?_
  rintro y _ rfl
  exact .agree (.ok ⟨rfl, h.implements.storage, h.implements.payouts⟩)

end Simulated

/-! ### Transactions and runs -/

/-- The contract under the transactions the ledger knows. -/
def execPriced (s : State Address) (t : PricedTx Address) :
    Except Failure (Value × State Address) := exec s t.toTx

/-- **Simulation.**  A call traps, or does what the ledger does: the same value or the same
    refusal, and states that are related again. -/
theorem exec_simulates (h : Simulated s l) (t : PricedTx Address) :
    AgreeUnless .arithmetic
      (fun p q => p.1.map I128.val = q.1 ∧ Simulated p.2 q.2) (execPriced s t) (l.exec t) := by
  have hcall : AgreeUnless .arithmetic
      (fun p q => p.1.map I128.val = q.1 ∧ p.2.Implements q.2) (execPriced s t) (l.exec t) := by
    obtain ⟨⟨e, call⟩, he⟩ := t
    cases call with
    | setFeeMode isAprCapped value => exact (h.setFeeMode he).map fun _ _ hq => ⟨rfl, hq⟩
    | setAdmin admin => exact h.setAdmin.map fun _ _ hq => ⟨rfl, hq⟩
    | addReserveVault r => exact (h.addReserveVault he).map fun _ _ hq => ⟨rfl, hq⟩
    | claimEmissions ids toAddr =>
      exact h.claimEmissions.map fun _ _ hq => ⟨congrArg some hq.1, hq.2⟩
    | claimFees r toAddr =>
      exact (h.claimFees he).map fun _ _ hq => ⟨congrArg some hq.1, hq.2⟩
    | deposit r u amount =>
      exact (h.deposit he).map fun _ _ hq => ⟨congrArg some hq.1, hq.2⟩
    | withdraw r u amount =>
      exact (h.withdraw he).map fun _ _ hq => ⟨congrArg some hq.1, hq.2⟩
  refine hcall.with_eq.mono ?_
  rintro ⟨val, s'⟩ ⟨y, l'⟩ ⟨⟨hval, hs'⟩, hexec, -⟩
  have hstep : Revert.step exec s t.toTx = s' := Revert.step_ok hexec
  exact ⟨hval, hstep ▸ h.reachable.step t.rates, hs'⟩

/-- The ledger of a contract just deployed. -/
def Deployed.ledger {s₀ : State Address} (hs₀ : Deployed s₀) : Ledger Address :=
  .fresh s₀.storage.admin ⟨s₀.storage.feeMode, hs₀.empty.2.2.2.2⟩

/-- A contract just deployed holds the fresh ledger, where the run of both starts. -/
theorem Deployed.simulated {s₀ : State Address} (hs₀ : Deployed s₀) :
    Simulated s₀ hs₀.ledger where
  reachable := .init hs₀
  implements := by
    obtain ⟨hvault, hshares, -, hpayouts, -⟩ := hs₀.empty
    refine ⟨⟨rfl, rfl, fun r => ?_, fun r u => congrFun (hshares r) u⟩, ?_⟩
    · have hr : s₀.storage.resVault r = none := hvault r
      rw [hr]
      exact .none
    · rw [hpayouts]
      rfl

/-- **Refinement.**  Take any run from deployment at positive rates, whatever is called, by whom and
    in which order, and leave out the calls that trap.  What is left is a run of the ideal ledger:
    every call returns what the ledger returns and is refused for the reason the ledger refuses it
    for, and in the end the contract holds exactly the ledger's reserves, shares and settings and
    has paid exactly what the ledger paid. -/
theorem run_refines {s₀ : State Address} (hs₀ : Deployed s₀) (ts : List (PricedTx Address)) :
    (Revert.run execPriced s₀ ts).Implements
        (Revert.run Ledger.exec hs₀.ledger (Revert.surviving execPriced .arithmetic s₀ ts)) ∧
      ((Revert.results execPriced (fun _ => true) s₀ ts).filter
          fun x => !stopsIn .arithmetic x).map (Except.map (Option.map I128.val)) =
        Revert.results Ledger.exec (fun _ => true) hs₀.ledger
          (Revert.surviving execPriced .arithmetic s₀ ts) := by
  obtain ⟨hend, hresults⟩ := Revert.run_simulates (R := Simulated)
    (fun _ _ t h => exec_simulates h t) hs₀.simulated ts
  exact ⟨hend.implements, hresults⟩

/-- The concrete run, at the rates it is run at. -/
def Demo.pricedTxs : List (PricedTx ℕ) :=
  Demo.txs.attach.map fun t => ⟨t.1, Demo.txs_positiveRates t.1 t.2⟩

omit [FixedPoint] in
/-- The concrete run is a run of the ledger of the admin `0`. -/
theorem run_refines_demo :
    (Revert.run (@execPriced ℕ FixedPoint.reference _) Demo.deployed Demo.pricedTxs).Implements
      (Revert.run Ledger.exec Demo.deployed_deployed.ledger
        (Revert.surviving (@execPriced ℕ FixedPoint.reference _) .arithmetic Demo.deployed
          Demo.pricedTxs)) :=
  (@run_refines ℕ FixedPoint.reference _ _ Demo.deployed_deployed Demo.pricedTxs).1

example : (Revert.surviving (@execPriced ℕ FixedPoint.reference _) .arithmetic Demo.deployed
    Demo.pricedTxs).length = 4 ∧
    (Revert.run Ledger.exec Demo.deployed_deployed.ledger Demo.pricedTxs).payouts =
      [(7, 0, 909090)] := by decide

end FeeVault
