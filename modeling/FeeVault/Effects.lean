import FeeVault.Accrual
import FeeVault.Contract

namespace FeeVault

/-!
# What one transaction does to one reserve

The inversions of `exec`, said once for all invariants:

* `exec_committed` — by entry point: the bookkeeping and the pool request that succeeded;
* `exec_effect` — by reserve: a committed transaction leaves it alone, opens it, accrues it, or
  accrues it and then carries out one deposit, one withdrawal or one fee claim.  The storage is
  written under `vault.address`, so this needs every vault to be stored under its own address
  (`State.Keyed`);
* `exec_settings` — what belongs to no reserve, the fee mode and the list of reserves;
* `deposit_updated` / `withdraw_updated` — the two movements as the same ledger shows them
  afterwards.
-/

variable {Address : Type}

/-! ### One reserve of a state -/

namespace State

variable (s : State Address) (r : Address)

/-- The vault of a reserve. -/
def vaultAt : Option (ReserveVault Address) := s.storage.resVault r

/-- The users' shares in a reserve. -/
def sharesAt (u : Address) : ℤ := s.storage.getReserveVaultShares r u

/-- The vault's bToken position with the pool. -/
def positionAt : ℤ := s.pool.bTokens r

/-- Every vault is stored under its own address. -/
def Keyed : Prop := ∀ r v, s.vaultAt r = some v → v.address = r

end State

/-- What is left of a position after the pool burned `toBurn` from it, or all there was. -/
def debited (held toBurn : ℤ) : ℤ := if toBurn ≤ held then held - toBurn else 0

variable [FixedPoint] [DecidableEq Address]

/-- One committed transaction `t` from `s` to `s'`, as reserve `r` sees it. -/
inductive Effect (t : Tx Address) (r : Address) (s s' : State Address) : Prop
  | untouched
      (other : t.call.reserve? ≠ some r)
      (unlisted : ∀ isAprCapped value, t.call = .setFeeMode isAprCapped value →
        r ∉ s.storage.getReserves)
      (vault : s'.vaultAt r = s.vaultAt r)
      (shares : s'.sharesAt r = s.sharesAt r)
      (position : s'.positionAt r = s.positionAt r)
  | opened
      (call : t.call = .addReserveVault r)
      (absent : s.vaultAt r = none)
      (vault : s'.vaultAt r = some ⟨r, t.env.bRate r, t.env.timestamp, 0, 0, 0⟩)
      (shares : s'.sharesAt r = s.sharesAt r)
      (position : s'.positionAt r = s.positionAt r)
  | accrued {v w : ReserveVault Address} {isAprCapped : Bool} {value : I128}
      (call : t.call = .setFeeMode isAprCapped value)
      (present : s.vaultAt r = some v)
      (accrual : v.updateRate t.env s.storage.feeMode = .ok w)
      (vault : s'.vaultAt r = some w)
      (shares : s'.sharesAt r = s.sharesAt r)
      (position : s'.positionAt r = s.positionAt r)
  | deposited {u : Address} {a x m S T : I128} {v w : ReserveVault Address}
      (call : t.call = .deposit r u a)
      (auth : t.env.authorized u = true)
      (amount_pos : 0 < a.val)
      (present : s.vaultAt r = some v)
      (accrual : v.updateRate t.env s.storage.feeMode = .ok w)
      (bTokens : w.underlyingToBTokensDown a = .ok x)
      (bTokens_pos : 0 < x.val)
      (minted : w.bTokensToSharesDown x = .ok m)
      (minted_pos : 0 < m.val)
      (totalShares : S.val = w.totalShares.val + m.val)
      (totalBTokens : T.val = w.totalBTokens.val + x.val)
      (vault : s'.vaultAt r = some { w with totalShares := S, totalBTokens := T })
      (shares : s'.sharesAt r = Function.update (s.sharesAt r) u (s.sharesAt r u + m))
      (position : s'.positionAt r =
        s.positionAt r + MulDiv.floor a scalar12 (t.env.bRate r))
  | withdrawn {u : Address} {a x m S T : I128} {v w : ReserveVault Address}
      (call : t.call = .withdraw r u a)
      (auth : t.env.authorized u = true)
      (amount_pos : 0 < a.val)
      (present : s.vaultAt r = some v)
      (accrual : v.updateRate t.env s.storage.feeMode = .ok w)
      (bTokens : w.underlyingToBTokensUp a = .ok x)
      (burned : w.bTokensToSharesUp x = .ok m)
      (burned_pos : 0 < m.val)
      (burned_le_total : m.val ≤ w.totalShares)
      (bTokens_le_total : x.val ≤ w.totalBTokens)
      (burned_le_balance : m.val ≤ s.sharesAt r u)
      (totalShares : S.val = w.totalShares.val - m.val)
      (totalBTokens : T.val = w.totalBTokens.val - x.val)
      (vault : s'.vaultAt r = some { w with totalShares := S, totalBTokens := T })
      (shares : s'.sharesAt r = Function.update (s.sharesAt r) u (s.sharesAt r u - m))
      (position : s'.positionAt r =
        debited (s.positionAt r) (MulDiv.ceil a scalar12 (t.env.bRate r)))
  | claimed {toAddr : Address} {a : I128} {v w : ReserveVault Address}
      (call : t.call = .claimFees r toAddr)
      (present : s.vaultAt r = some v)
      (accrual : v.updateRate t.env s.storage.feeMode = .ok w)
      (fees_pos : 0 < w.accruedFees.val)
      (underlying : w.bTokensToUnderlyingDown w.accruedFees = .ok a)
      (vault : s'.vaultAt r = some { w with accruedFees := 0 })
      (shares : s'.sharesAt r = s.sharesAt r)
      (position : s'.positionAt r =
        debited (s.positionAt r) (MulDiv.ceil a scalar12 (t.env.bRate r)))

/-! ### Inverting the bookkeeping -/

namespace ReserveVault

variable {e : Env Address} {st st' : Storage Address} {r u : Address} {a x m : I128}
  {v w : ReserveVault Address}

omit [DecidableEq Address] in
/-- Inversion of reading a vault at the pool's rate: the vault is there, and what is
    returned is its accrual. -/
theorem getReserveVaultUpdated_eq_ok :
    getReserveVaultUpdated e st r = .ok w ↔
      ∃ v, st.resVault r = some v ∧ v.updateRate e st.feeMode = .ok w := by
  simp [getReserveVaultUpdated]

omit [DecidableEq Address] in
/-- Accrual leaves the vault its address, so what is stored under a reserve stays that
    reserve's. -/
theorem updateRate_address (h : v.updateRate e st.feeMode = .ok w) : w.address = v.address := by
  obtain ⟨fee, hfee⟩ := updateRate_accrual h
  exact hfee.address

/-- Inversion of `reserve_vault::deposit`: the vault is accrued first, its conversions are those
    of the accrued vault, and the totals and the user's balance grow by what is minted.  All
    checks that passed are in the conclusion, so that no later proof opens the function. -/
theorem deposit_eq_ok (h : deposit e st r u a = .ok ((x, m), st')) :
    ∃ w S T bal, getReserveVaultUpdated e st r = .ok w ∧
      w.underlyingToBTokensDown a = .ok x ∧ 0 < x.val ∧
      w.bTokensToSharesDown x = .ok m ∧ 0 < m.val ∧
      S.val = w.totalShares.val + m.val ∧ T.val = w.totalBTokens.val + x.val ∧
      bal.val = (st.getReserveVaultShares w.address u).val + m.val ∧
      st' = (st.setReserveVault w.address
        { w with totalShares := S, totalBTokens := T }).setReserveVaultShares w.address u bal := by
  simp only [deposit, bind_eq_ok, requirePositive_eq_ok, unwrapOptimized_eq_ok,
    I128.checkedAdd_eq_some, pure_eq_ok] at h
  obtain ⟨w, hw, x', hx, -, hx0, m', hm, -, hm0, S, hS, T, hT, bal, hbal, h⟩ := h
  simp only [Except.ok.injEq, Prod.mk.injEq] at h
  obtain ⟨⟨rfl, rfl⟩, rfl⟩ := h
  exact ⟨w, S, T, bal, hw, hx, hx0, hm, hm0, hS, hT, hbal, rfl⟩

/-- Inversion of `reserve_vault::withdraw`: as for deposits, with the two checks against the
    vault's totals and the one against the user's shares, each of which the amounts taken have
    passed. -/
theorem withdraw_eq_ok (h : withdraw e st r u a = .ok ((x, m), st')) :
    ∃ w S T bal, getReserveVaultUpdated e st r = .ok w ∧
      w.underlyingToBTokensUp a = .ok x ∧
      w.bTokensToSharesUp x = .ok m ∧ 0 < m.val ∧
      m.val ≤ w.totalShares ∧ x.val ≤ w.totalBTokens ∧
      m.val ≤ st.getReserveVaultShares w.address u ∧
      S.val = w.totalShares.val - m.val ∧ T.val = w.totalBTokens.val - x.val ∧
      bal.val = (st.getReserveVaultShares w.address u).val - m.val ∧
      st' = (st.setReserveVault w.address
        { w with totalShares := S, totalBTokens := T }).setReserveVaultShares w.address u bal := by
  simp only [withdraw, bind_eq_ok, requirePositive_eq_ok] at h
  obtain ⟨w, hw, x', hx, m', hm, -, hm0, h⟩ := h
  split at h
  · cases h
  next htotal =>
  split at h
  · cases h
  next hbalance =>
  simp only [bind_eq_ok, unwrapOptimized_eq_ok, I128.checkedSub_eq_some, pure_eq_ok] at h
  obtain ⟨S, hS, T, hT, bal, hbal, h⟩ := h
  simp only [Except.ok.injEq, Prod.mk.injEq] at h
  obtain ⟨⟨rfl, rfl⟩, rfl⟩ := h
  simp only [I128.lt_iff, not_or, not_lt, gt_iff_lt] at htotal hbalance
  exact ⟨w, S, T, bal, hw, hx, hm, hm0, htotal.1, htotal.2, hbalance, hS, hT, hbal, rfl⟩

/-- Inversion of `reserve_vault::claim_fees`: all fees of the accrued vault leave, there are
    some, and the underlying asked of the pool for them is rounded down. -/
theorem claimFees_eq_ok (h : claimFees e st r = .ok ((x, a), st')) :
    ∃ w, getReserveVaultUpdated e st r = .ok w ∧ x = w.accruedFees ∧ 0 < w.accruedFees.val ∧
      w.bTokensToUnderlyingDown w.accruedFees = .ok a ∧
      st' = st.setReserveVault w.address { w with accruedFees := 0 } := by
  simp only [claimFees, bind_eq_ok, requirePositive_eq_ok, pure_eq_ok] at h
  obtain ⟨w, hw, -, hfees, a', ha, h⟩ := h
  simp only [Except.ok.injEq, Prod.mk.injEq] at h
  obtain ⟨⟨rfl, rfl⟩, rfl⟩ := h
  exact ⟨w, hw, rfl, hfees, ha, rfl⟩

/-- The loop over the reserves writes vaults only. -/
theorem foldlM_accrue_frame {rs : List Address}
    (h : rs.foldlM (accrueInterestForReserve e) st = .ok st') :
    ∃ f, st' = { st with resVault := f } := by
  induction rs generalizing st with
  | nil => exact ⟨_, (Except.ok.inj h).symm⟩
  | cons r₀ rs ih =>
    simp only [List.foldlM_cons, bind_eq_ok, accrueInterestForReserve, pure_eq_ok] at h
    obtain ⟨st₁, ⟨w₀, -, h₁⟩, h⟩ := h
    obtain rfl := Except.ok.inj h₁
    obtain ⟨f, hf⟩ := ih h
    exact ⟨f, hf⟩

/-- It accrues each listed reserve exactly once — a second visit finds it at the pool's rate —
    and leaves the others alone. -/
theorem foldlM_accrue_eq_ok {rs : List Address}
    (hkey : ∀ r v, st.resVault r = some v → v.address = r)
    (h : rs.foldlM (accrueInterestForReserve e) st = .ok st') (r : Address) :
    (r ∉ rs → st'.resVault r = st.resVault r) ∧
      (r ∈ rs → ∃ v w, st.resVault r = some v ∧ v.updateRate e st.feeMode = .ok w ∧
        st'.resVault r = some w) := by
  -- induction on the list, for every storage the loop may have reached
  induction rs generalizing st with
  | nil =>
    obtain rfl := Except.ok.inj h
    exact ⟨fun _ => rfl, fun hr => absurd hr List.not_mem_nil⟩
  | cons r₀ rs ih =>
    simp only [List.foldlM_cons, bind_eq_ok, accrueInterestForReserve,
      getReserveVaultUpdated_eq_ok, pure_eq_ok] at h
    obtain ⟨st₁, ⟨w₀, ⟨v₀, hv₀, hw₀⟩, h₁⟩, h⟩ := h
    obtain rfl := Except.ok.inj h₁
    have haddr : w₀.address = r₀ := (updateRate_address hw₀).trans (hkey r₀ v₀ hv₀)
    have hkey₁ : ∀ r v, (st.setReserveVault r₀ w₀).resVault r = some v → v.address = r := by
      intro r v hv
      rw [Storage.resVault_setReserveVault] at hv
      split at hv
      · next hr => exact (Option.some.inj hv) ▸ hr ▸ haddr
      · exact hkey r v hv
    obtain ⟨hout, hin⟩ := ih hkey₁ h
    rw [Storage.resVault_setReserveVault] at hout hin
    by_cases hr : r = r₀
    · subst hr
      refine ⟨fun hnot => absurd List.mem_cons_self hnot, fun _ => ⟨v₀, w₀, hv₀, hw₀, ?_⟩⟩
      by_cases hmem : r ∈ rs
      -- the list may name a reserve again
      · obtain ⟨v, w, hv, hw, hst'⟩ := hin hmem
        rw [if_pos rfl] at hv
        obtain rfl := Option.some.inj hv
        have hidem : w₀.updateRate e (st.setReserveVault r w₀).feeMode = .ok w₀ :=
          updateRate_idem hw₀ rfl rfl
        rw [hidem] at hw
        rw [hst', Except.ok.inj hw]
      · rw [hout hmem, if_pos rfl]
    · rw [if_neg hr] at hout hin
      simp only [List.mem_cons, hr, false_or]
      exact ⟨hout, hin⟩

end ReserveVault

/-! ### Inverting the entry points -/

section EntryPoints

variable {e : Env Address} {s s' : State Address} {r r' u : Address} {a x m y : I128}
  {t : Tx Address} {val : Value}

namespace Pool

omit [FixedPoint] in
/-- What a deposit does to the positions: the one of its reserve grows by the bTokens the pool
    gives, rounded down, and no other changes. -/
theorem supply_eq_ok {p p' : Pool Address} (h : p.supply e r a = .ok p') (r' : Address) :
    p'.bTokens r' = p.bTokens r' + (if r' = r then MulDiv.floor a scalar12 (e.bRate r) else 0) := by
  unfold supply at h
  split at h
  · obtain rfl := Except.ok.inj h
    by_cases hr : r' = r
    · subst hr; simp
    · simp [hr]
  · cases h

omit [FixedPoint] in
/-- What a payment does to the positions: the one of its reserve is debited the bTokens the pool
    takes, rounded up, or all of it, and no other changes. -/
theorem withdraw_eq_ok {p p' : Pool Address} (h : p.withdraw e r u a = .ok p') (r' : Address) :
    p'.bTokens r' = if r' = r then debited (p.bTokens r) (MulDiv.ceil a scalar12 (e.bRate r))
      else p.bTokens r' := by
  simp only [withdraw] at h
  split at h
  · by_cases hr : r' = r
    · subst hr
      rw [if_pos rfl, debited]
      split at h <;> obtain rfl := Except.ok.inj h <;> simp [*]
    · rw [if_neg hr]
      split at h <;> obtain rfl := Except.ok.inj h <;> simp [hr]
  · cases h

omit [FixedPoint] in
/-- A deposit the pool has taken is a request it accepts. -/
theorem supply_accepted {p p' : Pool Address} (h : p.supply e r a = .ok p') :
    e.poolAccepts = true := by
  unfold supply at h
  split at h
  · assumption
  · cases h

omit [FixedPoint] in
/-- And so is a withdrawal it has paid. -/
theorem withdraw_accepted {p p' : Pool Address} (h : p.withdraw e r u a = .ok p') :
    e.poolAccepts = true := by
  unfold withdraw at h
  split at h
  · assumption
  · cases h

end Pool

namespace Contract

/-- Inversion of `deposit`: the user has authorized it, the amount is positive, the pool was
    asked first and the bookkeeping done second, and the new state is made of what both
    return. -/
theorem deposit_eq_ok (h : deposit e s r u a = .ok (y, s')) :
    ∃ x, e.authorized u = true ∧ 0 < a.val ∧ s.pool.supply e r a = .ok s'.pool ∧
      ReserveVault.deposit e s.storage r u a = .ok ((x, y), s'.storage) := by
  simp only [deposit, bind_eq_ok, requireAuth_eq_ok, requireHasReserve_eq_ok,
    requirePositive_eq_ok, pure_eq_ok] at h
  obtain ⟨-, hauth, -, -, -, ha, p, hp, ⟨⟨x, m⟩, st⟩, hst, h⟩ := h
  simp only [Except.ok.injEq, Prod.mk.injEq] at h
  obtain ⟨rfl, rfl⟩ := h
  exact ⟨x, hauth, ha, hp, hst⟩

/-- Inversion of `withdraw`, in the same parts. -/
theorem withdraw_eq_ok (h : withdraw e s r u a = .ok (y, s')) :
    ∃ x, e.authorized u = true ∧ 0 < a.val ∧ s.pool.withdraw e r u a = .ok s'.pool ∧
      ReserveVault.withdraw e s.storage r u a = .ok ((x, y), s'.storage) := by
  simp only [withdraw, bind_eq_ok, requireAuth_eq_ok, requireHasReserve_eq_ok,
    requirePositive_eq_ok, pure_eq_ok] at h
  obtain ⟨-, hauth, -, -, -, ha, p, hp, ⟨⟨x, m⟩, st⟩, hst, h⟩ := h
  simp only [Except.ok.injEq, Prod.mk.injEq] at h
  obtain ⟨rfl, rfl⟩ := h
  exact ⟨x, hauth, ha, hp, hst⟩

/-- Inversion of `claim_fees`, where the bookkeeping comes first since it says what to
    ask the pool for. -/
theorem claimFees_eq_ok (h : claimFees e s r u = .ok (y, s')) :
    ∃ a, ReserveVault.claimFees e s.storage r = .ok ((y, a), s'.storage) ∧
      s.pool.withdraw e r u a = .ok s'.pool := by
  simp only [claimFees, bind_eq_ok, requireAuth_eq_ok, requireHasReserve_eq_ok, pure_eq_ok] at h
  obtain ⟨-, -, -, -, ⟨⟨x, a⟩, st⟩, hst, p, hp, h⟩ := h
  simp only [Except.ok.injEq, Prod.mk.injEq] at h
  obtain ⟨rfl, rfl⟩ := h
  exact ⟨a, hst, hp⟩

omit [FixedPoint] [DecidableEq Address] in
/-- The check on the value of a fee mode passes exactly for the valid modes; the code makes it
    without regard to the kind of mode. -/
theorem requireFeeModeValue_eq_ok {value : I128} {x : Unit} (isAprCapped : Bool) :
    requireFeeModeValue value = .ok x ↔ (FeeMode.mk isAprCapped value).Valid := by
  unfold requireFeeModeValue FeeMode.Valid
  split <;> simp <;> omega

/-- Inversion of `set_fee_mode`: the new mode is valid, every listed reserve is accrued under the
    old one, and nothing else in the storage changes. -/
theorem setFeeMode_eq_ok {isAprCapped : Bool} {value : I128}
    (h : setFeeMode e s isAprCapped value = .ok s') :
    (FeeMode.mk isAprCapped value).Valid ∧ s'.pool = s.pool ∧
      ∃ st, ReserveVault.accrueInterestForAllReserves e s.storage = .ok st ∧
        s'.storage = { st with feeMode := ⟨isAprCapped, value⟩ } := by
  simp only [setFeeMode, bind_eq_ok, requireAuth_eq_ok, requireFeeModeValue_eq_ok isAprCapped,
    pure_eq_ok] at h
  obtain ⟨-, -, -, hvalue, st, hst, h⟩ := h
  obtain rfl := Except.ok.inj h
  exact ⟨hvalue, rfl, st, hst, rfl⟩

omit [FixedPoint] in
/-- Inversion of `add_reserve_vault`: there was no vault, and the one stored now is empty, at the
    pool's rate and the present time. -/
theorem addReserveVault_eq_ok (h : addReserveVault e s r = .ok s') :
    s.vaultAt r = none ∧ s'.pool = s.pool ∧
      s'.storage = (s.storage.setReserveVault r
        ⟨r, e.bRate r, e.timestamp, 0, 0, 0⟩).addReserveToReserves r := by
  simp only [addReserveVault, bind_eq_ok, requireAuth_eq_ok] at h
  obtain ⟨-, -, h⟩ := h
  split at h
  · cases h
  · next hnone =>
    obtain rfl := Except.ok.inj h
    exact ⟨by simpa [Storage.hasReserveVault, State.vaultAt] using hnone, rfl, rfl⟩

/-! ### Inverting the views -/

omit [DecidableEq Address] in
/-- A user without shares is shown nothing, and no vault is read for it: there need not
    be one. -/
theorem getUnderlyingTokens_of_no_shares (h : ¬ 0 < s.sharesAt r u) :
    getUnderlyingTokens e s r u = .ok 0 := if_neg h

omit [DecidableEq Address] in
/-- The view of a user with shares goes through the accrued vault and two floors. -/
theorem getUnderlyingTokens_eq_ok (h : 0 < s.sharesAt r u) :
    getUnderlyingTokens e s r u = .ok y ↔
      ∃ w, ReserveVault.getReserveVaultUpdated e s.storage r = .ok w ∧
        ∃ x, w.sharesToBTokensDown (getShares s r u) = .ok x ∧
          w.bTokensToUnderlyingDown x = .ok y := by
  have h' : (s.storage.getReserveVaultShares r u).val > 0 := h
  simp only [getUnderlyingTokens, if_pos h', bind_eq_ok, getShares]

omit [DecidableEq Address] in
/-- Likewise for the bTokens. -/
theorem getBTokens_of_no_shares (h : ¬ 0 < s.sharesAt r u) : getBTokens e s r u = .ok 0 :=
  if_neg h

omit [DecidableEq Address] in
/-- With shares, the bTokens shown are those of the shares in the vault at the pool's rate, which
    must be there. -/
theorem getBTokens_eq_ok (h : 0 < s.sharesAt r u) :
    getBTokens e s r u = .ok y ↔
      ∃ w, ReserveVault.getReserveVaultUpdated e s.storage r = .ok w ∧
        w.sharesToBTokensDown (getShares s r u) = .ok y := by
  have h' : (s.storage.getReserveVaultShares r u).val > 0 := h
  simp only [getBTokens, if_pos h', bind_eq_ok, getShares]

end Contract

/-! ### The case analysis -/

omit [FixedPoint] in
/-- Writing back a vault and one balance, seen from any reserve. -/
theorem sharesAt_setReserveVaultShares {r₀ : Address} {w : ReserveVault Address} {bal : I128}
    {d : ℤ} (hstorage : s'.storage =
      (s.storage.setReserveVault r₀ w).setReserveVaultShares r₀ u bal)
    (hbal : bal.val = s.sharesAt r₀ u + d) (r : Address) :
    s'.sharesAt r = if r = r₀ then Function.update (s.sharesAt r) u (s.sharesAt r u + d)
      else s.sharesAt r := by
  funext u'
  rw [State.sharesAt, hstorage, Storage.getReserveVaultShares_setReserveVaultShares,
    Storage.getReserveVaultShares_setReserveVault]
  by_cases hr : r = r₀
  · subst hr
    by_cases hu : u' = u
    · subst hu; simp [hbal]
    · simp [hu, State.sharesAt]
  · simp [hr, State.sharesAt]

omit [FixedPoint] in
/-- What a movement stores: one vault is replaced, and the write to the user's shares afterwards
    touches no vault. -/
theorem vaultAt_setReserveVaultShares {r₀ : Address} {w : ReserveVault Address} {bal : I128}
    (hstorage : s'.storage = (s.storage.setReserveVault r₀ w).setReserveVaultShares r₀ u bal)
    (r : Address) : s'.vaultAt r = if r = r₀ then some w else s.vaultAt r := by
  rw [State.vaultAt, hstorage]
  exact Storage.resVault_setReserveVault _

/-- What a committed transaction did, by entry point. -/
inductive Committed (t : Tx Address) (s s' : State Address) : Prop
  | setFeeMode {fm : FeeMode} {st : Storage Address}
      (call : t.call = .setFeeMode fm.isAprCapped fm.value)
      (valid : fm.Valid)
      (accrued : ReserveVault.accrueInterestForAllReserves t.env s.storage = .ok st)
      (storage : s'.storage = { st with feeMode := fm })
      (pool : s'.pool = s.pool)
  | setAdmin {admin : Address}
      (call : t.call = .setAdmin admin)
      (storage : s'.storage = { s.storage with admin := admin })
      (pool : s'.pool = s.pool)
  | addReserveVault {r : Address}
      (call : t.call = .addReserveVault r)
      (absent : s.vaultAt r = none)
      (storage : s'.storage = (s.storage.setReserveVault r
        ⟨r, t.env.bRate r, t.env.timestamp, 0, 0, 0⟩).addReserveToReserves r)
      (pool : s'.pool = s.pool)
  | claimEmissions {ids : List UInt32} {toAddr : Address}
      (call : t.call = .claimEmissions ids toAddr)
      (storage : s'.storage = s.storage)
      (pool : s'.pool = s.pool)
  | claimFees {r toAddr : Address} {x a : I128}
      (call : t.call = .claimFees r toAddr)
      (booked : ReserveVault.claimFees t.env s.storage r = .ok ((x, a), s'.storage))
      (pool : s.pool.withdraw t.env r toAddr a = .ok s'.pool)
  | deposit {r u : Address} {a x m : I128}
      (call : t.call = .deposit r u a)
      (auth : t.env.authorized u = true)
      (amount_pos : 0 < a.val)
      (booked : ReserveVault.deposit t.env s.storage r u a = .ok ((x, m), s'.storage))
      (pool : s.pool.supply t.env r a = .ok s'.pool)
  | withdraw {r u : Address} {a x m : I128}
      (call : t.call = .withdraw r u a)
      (auth : t.env.authorized u = true)
      (amount_pos : 0 < a.val)
      (booked : ReserveVault.withdraw t.env s.storage r u a = .ok ((x, m), s'.storage))
      (pool : s.pool.withdraw t.env r u a = .ok s'.pool)

/-- **Inversion**, by entry point: what a transaction that succeeds has checked, and what it has
    made of the storage and of the pool.  Every result about steps starts from here or from
    `exec_effect`. -/
theorem exec_committed (h : exec s t = .ok (val, s')) : Committed t s s' := by
  obtain ⟨e, call⟩ := t
  cases call with
  | setFeeMode isAprCapped value =>
    simp only [exec, map_eq_ok, Prod.mk.injEq] at h
    obtain ⟨s₁, h, -, rfl⟩ := h
    obtain ⟨hvalue, hpool, st, hst, hstorage⟩ := Contract.setFeeMode_eq_ok h
    exact .setFeeMode rfl hvalue hst hstorage hpool
  | setAdmin admin =>
    simp only [exec, map_eq_ok, Contract.setAdmin, bind_eq_ok, pure_eq_ok, Prod.mk.injEq] at h
    obtain ⟨s₁, ⟨-, -, -, -, h⟩, -, rfl⟩ := h
    obtain rfl := Except.ok.inj h
    exact .setAdmin rfl rfl rfl
  | addReserveVault r =>
    simp only [exec, map_eq_ok, Prod.mk.injEq] at h
    obtain ⟨s₁, h, -, rfl⟩ := h
    obtain ⟨hnone, hpool, hstorage⟩ := Contract.addReserveVault_eq_ok h
    exact .addReserveVault rfl hnone hstorage hpool
  | claimEmissions ids toAddr =>
    simp only [exec, map_eq_ok, Contract.claimEmissions, bind_eq_ok, pure_eq_ok,
      Prod.mk.injEq] at h
    obtain ⟨⟨y, s₁⟩, ⟨-, -, emissions, -, h⟩, -, rfl⟩ := h
    obtain ⟨-, rfl⟩ := Prod.mk.inj (Except.ok.inj h)
    exact .claimEmissions rfl rfl rfl
  | claimFees r toAddr =>
    simp only [exec, map_eq_ok, Prod.mk.injEq] at h
    obtain ⟨⟨y, s₁⟩, h, -, rfl⟩ := h
    obtain ⟨a, hst, hpool⟩ := Contract.claimFees_eq_ok h
    exact .claimFees rfl hst hpool
  | deposit r u a =>
    simp only [exec, map_eq_ok, Prod.mk.injEq] at h
    obtain ⟨⟨y, s₁⟩, h, -, rfl⟩ := h
    obtain ⟨x, hauth, ha, hpool, hst⟩ := Contract.deposit_eq_ok h
    exact .deposit rfl hauth ha hst hpool
  | withdraw r u a =>
    simp only [exec, map_eq_ok, Prod.mk.injEq] at h
    obtain ⟨⟨y, s₁⟩, h, -, rfl⟩ := h
    obtain ⟨x, hauth, ha, hpool, hst⟩ := Contract.withdraw_eq_ok h
    exact .withdraw rfl hauth ha hst hpool

/-- **Inversion**, by reserve.  Every committed transaction has one of the six effects on each. -/
theorem exec_effect (hs : s.Keyed) (h : exec s t = .ok (val, s')) (r : Address) :
    Effect t r s s' := by
  -- a call about another reserve, or about none, other than `set_fee_mode`
  have huntouched {c : Call Address} (hcall : t.call = c) (hreserve : c.reserve? ≠ some r)
      (hfm : ∀ isAprCapped value, c ≠ .setFeeMode isAprCapped value)
      (hvault : s'.vaultAt r = s.vaultAt r) (hshares : s'.sharesAt r = s.sharesAt r)
      (hposition : s'.positionAt r = s.positionAt r) : Effect t r s s' := by
    subst hcall
    exact .untouched hreserve (fun _ _ hcall => absurd hcall (hfm _ _)) hvault hshares hposition
  have hne {r₀ : Address} (hr : r ≠ r₀) : some r₀ ≠ some r :=
    fun h => hr (Option.some.inj h).symm
  have hpool (hpool : s'.pool = s.pool) : s'.positionAt r = s.positionAt r := by
    rw [State.positionAt, hpool, State.positionAt]
  cases exec_committed h with
  | @setFeeMode fm st call _ accrued storage pool =>
    -- the loop accrues what is on the list, and the fee mode is written after it
    obtain ⟨f, hf⟩ := ReserveVault.foldlM_accrue_frame accrued
    have hvaults := ReserveVault.foldlM_accrue_eq_ok hs accrued r
    have hshares : s'.sharesAt r = s.sharesAt r := by
      funext u
      rw [State.sharesAt, storage, hf]
      rfl
    have hvault : s'.vaultAt r = st.resVault r := by rw [State.vaultAt, storage]
    by_cases hmem : r ∈ s.storage.getReserves
    · obtain ⟨v, w, hv, hw, hst⟩ := hvaults.2 hmem
      exact .accrued call hv hw (hvault.trans hst) hshares (hpool pool)
    · refine .untouched ?_ (fun _ _ _ => hmem) (hvault.trans (hvaults.1 hmem)) hshares (hpool pool)
      rw [call]
      exact (Option.some_ne_none r).symm
  | setAdmin call storage pool =>
    refine huntouched call (Option.some_ne_none r).symm (by rintro _ _ ⟨⟩) ?_ ?_ (hpool pool)
    · rw [State.vaultAt, storage, State.vaultAt]
    · funext u
      rw [State.sharesAt, storage]
      rfl
  | @addReserveVault r₀ call absent storage pool =>
    have hshares : s'.sharesAt r = s.sharesAt r := by
      funext u
      rw [State.sharesAt, storage]
      rfl
    have hvault : s'.vaultAt r =
        if r = r₀ then some ⟨r₀, t.env.bRate r₀, t.env.timestamp, 0, 0, 0⟩ else s.vaultAt r := by
      rw [State.vaultAt, storage]
      exact Storage.resVault_setReserveVault _
    by_cases hr : r = r₀
    · subst hr
      exact .opened call absent (hvault.trans (if_pos rfl)) hshares (hpool pool)
    · exact huntouched call (hne hr) (by rintro _ _ ⟨⟩) (hvault.trans (if_neg hr)) hshares
        (hpool pool)
  | claimEmissions call storage pool =>
    refine huntouched call (Option.some_ne_none r).symm (by rintro _ _ ⟨⟩) ?_ ?_ (hpool pool)
    · rw [State.vaultAt, storage, State.vaultAt]
    · funext u
      rw [State.sharesAt, storage, State.sharesAt]
  | @claimFees r₀ toAddr x a call booked pool =>
    obtain ⟨w, hw, -, hfees, ha, storage⟩ := ReserveVault.claimFees_eq_ok booked
    obtain ⟨v, hv, hvw⟩ := ReserveVault.getReserveVaultUpdated_eq_ok.1 hw
    -- the vault is written back under its address: the reserve it was read from
    obtain rfl : w.address = r₀ := (ReserveVault.updateRate_address hvw).trans (hs r₀ v hv)
    have hposition := Pool.withdraw_eq_ok pool r
    have hshares : s'.sharesAt r = s.sharesAt r := by
      funext u
      rw [State.sharesAt, storage]
      rfl
    have hvault : s'.vaultAt r =
        if r = w.address then some { w with accruedFees := 0 } else s.vaultAt r := by
      rw [State.vaultAt, storage]
      exact Storage.resVault_setReserveVault _
    by_cases hr : r = w.address
    · subst hr
      rw [if_pos rfl] at hvault hposition
      exact .claimed call hv hvw hfees ha hvault hshares hposition
    · rw [if_neg hr] at hvault hposition
      exact huntouched call (hne hr) (by rintro _ _ ⟨⟩) hvault hshares hposition
  | @deposit r₀ u a x m call auth amount_pos booked pool =>
    obtain ⟨w, S, T, bal, hw, hx, hx0, hm, hm0, hS, hT, hbal, storage⟩ :=
      ReserveVault.deposit_eq_ok booked
    obtain ⟨v, hv, hvw⟩ := ReserveVault.getReserveVaultUpdated_eq_ok.1 hw
    obtain rfl : w.address = r₀ := (ReserveVault.updateRate_address hvw).trans (hs r₀ v hv)
    have hposition := Pool.supply_eq_ok pool r
    have hshares := sharesAt_setReserveVaultShares (s := s) storage hbal r
    have hvault := vaultAt_setReserveVaultShares (s := s) storage r
    by_cases hr : r = w.address
    · subst hr
      rw [if_pos rfl] at hvault hposition hshares
      exact .deposited call auth amount_pos hv hvw hx hx0 hm hm0 hS hT hvault hshares hposition
    · rw [if_neg hr] at hvault hposition hshares
      exact huntouched call (hne hr) (by rintro _ _ ⟨⟩) hvault hshares
        (hposition.trans (add_zero _))
  | @withdraw r₀ u a x m call auth amount_pos booked pool =>
    obtain ⟨w, S, T, bal, hw, hx, hm, hm0, hmS, hxT, hmbal, hS, hT, hbal, storage⟩ :=
      ReserveVault.withdraw_eq_ok booked
    obtain ⟨v, hv, hvw⟩ := ReserveVault.getReserveVaultUpdated_eq_ok.1 hw
    obtain rfl : w.address = r₀ := (ReserveVault.updateRate_address hvw).trans (hs r₀ v hv)
    have hposition := Pool.withdraw_eq_ok pool r
    have hshares := sharesAt_setReserveVaultShares (s := s) storage hbal r
    have hvault := vaultAt_setReserveVaultShares (s := s) storage r
    by_cases hr : r = w.address
    · subst hr
      rw [if_pos rfl] at hvault hposition hshares
      exact .withdrawn call auth amount_pos hv hvw hx hm hm0 hmS hxT hmbal hS hT hvault hshares
        hposition
    · rw [if_neg hr] at hvault hposition hshares
      exact huntouched call (hne hr) (by rintro _ _ ⟨⟩) hvault hshares hposition

/-- **What is not per reserve.**  Only `set_fee_mode` changes the fee mode, to a value it has
    checked, and only `add_reserve_vault` changes the list of reserves, by a new last entry. -/
theorem exec_settings (h : exec s t = .ok (val, s')) :
    (s'.storage.feeMode = s.storage.feeMode ∨
      ∃ fm : FeeMode, fm.Valid ∧ t.call = .setFeeMode fm.isAprCapped fm.value ∧
        s'.storage.feeMode = fm) ∧
    s'.storage.getReserves = s.storage.getReserves ++ t.call.opens := by
  cases exec_committed h with
  | @setFeeMode fm st call valid accrued storage =>
    obtain ⟨f, hf⟩ := ReserveVault.foldlM_accrue_frame accrued
    refine ⟨Or.inr ⟨fm, valid, call, by rw [storage]⟩, ?_⟩
    rw [storage, hf, call]
    exact (List.append_nil _).symm
  | addReserveVault call _ storage =>
    rw [storage, call]
    exact ⟨Or.inl rfl, rfl⟩
  | setAdmin call storage | claimEmissions call storage =>
    rw [storage, call]
    exact ⟨Or.inl rfl, (List.append_nil _).symm⟩
  | claimFees call booked =>
    obtain ⟨w, -, -, -, -, storage⟩ := ReserveVault.claimFees_eq_ok booked
    rw [storage, call]
    exact ⟨Or.inl rfl, (List.append_nil _).symm⟩
  | deposit call _ _ booked =>
    obtain ⟨w, S, T, bal, -, -, -, -, -, -, -, -, storage⟩ := ReserveVault.deposit_eq_ok booked
    rw [storage, call]
    exact ⟨Or.inl rfl, (List.append_nil _).symm⟩
  | withdraw call _ _ booked =>
    obtain ⟨w, S, T, bal, -, -, -, -, -, -, -, -, -, -, storage⟩ :=
      ReserveVault.withdraw_eq_ok booked
    rw [storage, call]
    exact ⟨Or.inl rfl, (List.append_nil _).symm⟩

/-- A deposit and a withdrawal that succeed are steps of a run. -/
theorem Reachable.deposit {ok : Env Address → Prop} (hs : Reachable ok s) (he : ok e)
    (h : Contract.deposit e s r u a = .ok (y, s')) : Reachable ok s' := by
  have hexec : exec s ⟨e, .deposit r u a⟩ = .ok (some y, s') := by simp [exec, h]
  exact Revert.step_ok hexec ▸ hs.step he

/-- The same for a withdrawal, which lets the claims about one movement be read off the runs. -/
theorem Reachable.withdraw {ok : Env Address → Prop} (hs : Reachable ok s) (he : ok e)
    (h : Contract.withdraw e s r u a = .ok (y, s')) : Reachable ok s' := by
  have hexec : exec s ⟨e, .withdraw r u a⟩ = .ok (some y, s') := by simp [exec, h]
  exact Revert.step_ok hexec ▸ hs.step he

/-! ### The same ledger, afterwards -/

/-- A vault written at the pool's rate is read back as it was written. -/
theorem getReserveVaultUpdated_written {v w : ReserveVault Address} {fm : FeeMode}
    {S T bal : I128} (hw : v.updateRate e fm = .ok w) (hstorage : s'.storage =
      (s.storage.setReserveVault w.address
        { w with totalShares := S, totalBTokens := T }).setReserveVaultShares w.address u bal) :
    s'.vaultAt w.address = some { w with totalShares := S, totalBTokens := T } ∧
      ReserveVault.getReserveVaultUpdated e s'.storage w.address =
        .ok { w with totalShares := S, totalBTokens := T } := by
  obtain ⟨fee, hfee⟩ := ReserveVault.updateRate_accrual hw
  have hvault : s'.vaultAt w.address = some { w with totalShares := S, totalBTokens := T } := by
    rw [State.vaultAt, hstorage]
    exact (Storage.resVault_setReserveVault _).trans (if_pos rfl)
  refine ⟨hvault, ReserveVault.getReserveVaultUpdated_eq_ok.2 ⟨_, hvault, ?_⟩⟩
  rw [ReserveVault.updateRate_of_rate_eq (v := { w with totalShares := S, totalBTokens := T })
    (by rw [hfee.bRate, hfee.address]), ← hfee.lastUpdateTimestamp]

/-- A deposit, between the vault accrued before it and the one accrued after it. -/
theorem deposit_updated (hs : s.Keyed) (h : Contract.deposit e s r u a = .ok (y, s')) :
    ∃ w x S T, ReserveVault.getReserveVaultUpdated e s.storage r = .ok w ∧
      w.underlyingToBTokensDown a = .ok x ∧ 0 < x.val ∧ w.bTokensToSharesDown x = .ok y ∧
      S.val = w.totalShares.val + y.val ∧ T.val = w.totalBTokens.val + x.val ∧
      s'.vaultAt r = some { w with totalShares := S, totalBTokens := T } ∧
      ReserveVault.getReserveVaultUpdated e s'.storage r =
        .ok { w with totalShares := S, totalBTokens := T } ∧
      s'.sharesAt r u = s.sharesAt r u + y.val := by
  obtain ⟨x, -, -, -, hst⟩ := Contract.deposit_eq_ok h
  obtain ⟨w, S, T, bal, hw, hx, hx0, hm, -, hS, hT, hbal, hstorage⟩ :=
    ReserveVault.deposit_eq_ok hst
  obtain ⟨v, hv, hvw⟩ := ReserveVault.getReserveVaultUpdated_eq_ok.1 hw
  obtain rfl : w.address = r := (ReserveVault.updateRate_address hvw).trans (hs r v hv)
  obtain ⟨hvault, hupdated⟩ := getReserveVaultUpdated_written hvw hstorage
  refine ⟨w, x, S, T, hw, hx, hx0, hm, hS, hT, hvault, hupdated, ?_⟩
  rw [sharesAt_setReserveVaultShares (s := s) hstorage hbal, if_pos rfl, Function.update_self]

/-- A withdrawal, between the vault accrued before it and the one accrued after it. -/
theorem withdraw_updated (hs : s.Keyed) (h : Contract.withdraw e s r u a = .ok (y, s')) :
    ∃ w x S T, ReserveVault.getReserveVaultUpdated e s.storage r = .ok w ∧
      w.underlyingToBTokensUp a = .ok x ∧ w.bTokensToSharesUp x = .ok y ∧
      x.val ≤ w.totalBTokens ∧ y.val ≤ s.sharesAt r u ∧
      S.val = w.totalShares.val - y.val ∧ T.val = w.totalBTokens.val - x.val ∧
      s'.vaultAt r = some { w with totalShares := S, totalBTokens := T } ∧
      ReserveVault.getReserveVaultUpdated e s'.storage r =
        .ok { w with totalShares := S, totalBTokens := T } ∧
      s'.sharesAt r u = s.sharesAt r u - y.val := by
  obtain ⟨x, -, -, -, hst⟩ := Contract.withdraw_eq_ok h
  obtain ⟨w, S, T, bal, hw, hx, hm, -, -, hxT, hmbal, hS, hT, hbal, hstorage⟩ :=
    ReserveVault.withdraw_eq_ok hst
  obtain ⟨v, hv, hvw⟩ := ReserveVault.getReserveVaultUpdated_eq_ok.1 hw
  obtain rfl : w.address = r := (ReserveVault.updateRate_address hvw).trans (hs r v hv)
  obtain ⟨hvault, hupdated⟩ := getReserveVaultUpdated_written hvw hstorage
  refine ⟨w, x, S, T, hw, hx, hm, hxT, hmbal, hS, hT, hvault, hupdated, ?_⟩
  rw [sharesAt_setReserveVaultShares (s := s) hstorage (d := -y.val) (by rw [hbal]; rfl),
    if_pos rfl, Function.update_self, sub_eq_add_neg]

end EntryPoints

end FeeVault
