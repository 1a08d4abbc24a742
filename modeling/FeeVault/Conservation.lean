import FeeVault.Effects
import FeeVault.Lib.FiniteSum

namespace FeeVault

open FiniteSum

/-!
# The share ledger

Shares live in two places, the users' entries and each vault's `totalShares`, written
separately.  `Conserved` says that they agree; it is kept by every effect, at any rate and in
any fee mode, so it holds in every reachable state (`Reachable.conserved`).
-/

variable {Address : Type} [FixedPoint] [DecidableEq Address]
variable {ok : Env Address → Prop} {s s' : State Address} {t : Tx Address} {r : Address}

/-! ### Vaults stay under their own address -/

/-- Every effect leaves the vault under its own address: it is created under the reserve's, and
    accrual and movements keep it. -/
theorem Effect.vault_address (h : Effect t r s s')
    (hr : ∀ v, s.vaultAt r = some v → v.address = r) :
    ∀ v, s'.vaultAt r = some v → v.address = r := by
  intro v' hv'
  -- no movement writes the address of the vault it accrued
  have hkept {v w : ReserveVault Address} (present : s.vaultAt r = some v)
      (accrual : v.updateRate t.env s.storage.feeMode = .ok w) : w.address = r :=
    (ReserveVault.updateRate_address accrual).trans (hr v present)
  cases h with
  | untouched _ _ vault => exact hr v' (vault ▸ hv')
  | opened _ _ vault =>
    obtain rfl := Option.some.inj (vault.symm.trans hv')
    rfl
  | accrued _ present accrual vault =>
    obtain rfl := Option.some.inj (vault.symm.trans hv')
    exact hkept present accrual
  | deposited _ _ _ present accrual _ _ _ _ _ _ vault
  | withdrawn _ _ _ present accrual _ _ _ _ _ _ _ _ vault
  | claimed _ present accrual _ _ vault =>
    obtain rfl := Option.some.inj (vault.symm.trans hv')
    have haddr := hkept present accrual
    exact haddr

omit [FixedPoint] [DecidableEq Address] in
/-- A deployed contract has no vaults, no shares and no position. -/
theorem Deployed.empty (h : Deployed s) :
    (∀ r, s.vaultAt r = none) ∧ (∀ r, s.sharesAt r = 0) ∧ (∀ r, s.positionAt r = 0) ∧
      s.pool.payouts = [] ∧ s.storage.feeMode.Valid := by
  obtain ⟨e, admin, pool, isAprCapped, value, h⟩ := h
  simp only [Contract.constructor, bind_eq_ok, requireAuth_eq_ok,
    Contract.requireFeeModeValue_eq_ok isAprCapped, pure_eq_ok] at h
  obtain ⟨-, -, -, hvalue, h⟩ := h
  obtain rfl := Except.ok.inj h
  exact ⟨fun _ => rfl, fun _ => rfl, fun _ => rfl, rfl, hvalue⟩

/-- Every vault is stored under its own address, so a call that names a reserve reads and writes
    that reserve's vault only. -/
theorem Reachable.keyed (hs : Reachable ok s) : s.Keyed := by
  refine Revert.Reachable.invariant (I := State.Keyed) ?_ ?_ hs
  · intro s hs r v hv
    rw [hs.empty.1 r] at hv
    cases hv
  · intro s t _ s' _ hkeyed _ h r
    exact (exec_effect hkeyed h r).vault_address (hkeyed r)

/-! ### Vaults stay on the list -/

/-- Every vault's reserve is on the list `set_fee_mode` walks. -/
def State.Listed (s : State Address) : Prop :=
  ∀ r v, s.vaultAt r = some v → r ∈ s.storage.getReserves

/-- Every vault's reserve is on the list: only `add_reserve_vault` makes a vault and nothing
    takes a reserve off the list, so the loop of `set_fee_mode` misses none. -/
theorem Reachable.listed (hs : Reachable ok s) : s.Listed := by
  refine Revert.Reachable.invariant (I := State.Listed) ?_ ?_ hs
  · intro s hs r v hv
    rw [hs.empty.1 r] at hv
    cases hv
  · intro s t val s' hr hlisted _ h r v hv
    rw [(exec_settings h).2, List.mem_append]
    have hkeyed := Reachable.keyed (show Reachable ok s from hr)
    -- only `add_reserve_vault` makes a vault, and it appends its reserve to the list
    cases exec_effect hkeyed h r with
    | untouched _ _ vault => exact Or.inl (hlisted r v (vault ▸ hv))
    | opened call => exact Or.inr (by rw [call]; exact List.mem_singleton_self r)
    | accrued _ present => exact Or.inl (hlisted r _ present)
    | deposited _ _ _ present => exact Or.inl (hlisted r _ present)
    | withdrawn _ _ _ present => exact Or.inl (hlisted r _ present)
    | claimed _ present => exact Or.inl (hlisted r _ present)

/-! ### Conservation -/

namespace State

/-- The total a reserve's vault keeps, `0` without a vault. -/
def totalSharesAt (s : State Address) (r : Address) : ℤ :=
  match s.vaultAt r with
  | some v => v.totalShares
  | none => 0

omit [FixedPoint] [DecidableEq Address] in
/-- With a vault, the total is the one it keeps. -/
theorem totalSharesAt_some {v : ReserveVault Address} (h : s.vaultAt r = some v) :
    s.totalSharesAt r = v.totalShares.val := by
  rw [totalSharesAt, h]

/-- The users' shares in `r` are non-negative and add up to the vault's total. -/
structure Conserved (s : State Address) (r : Address) : Prop where
  nonneg : ∀ u, 0 ≤ s.sharesAt r u
  finite : (Function.support (s.sharesAt r)).Finite
  total : ∑ᶠ u, s.sharesAt r u = s.totalSharesAt r

namespace Conserved

variable {v w : ReserveVault Address} {u : Address}

omit [FixedPoint] [DecidableEq Address] in
/-- No user holds more shares than the vault has issued. -/
theorem le_total (h : s.Conserved r) (u : Address) : s.sharesAt r u ≤ s.totalSharesAt r :=
  h.total ▸ le_finsum h.finite h.nonneg u

omit [FixedPoint] [DecidableEq Address] in
/-- Nobody holds shares in a reserve without a vault. -/
theorem eq_zero_of_absent (h : s.Conserved r) (hr : s.vaultAt r = none) (u : Address) :
    s.sharesAt r u = 0 := by
  have hle := h.le_total u
  rw [totalSharesAt, hr] at hle
  exact le_antisymm hle (h.nonneg u)

omit [FixedPoint] [DecidableEq Address] in
/-- Nothing changes when neither the users' shares nor the total do. -/
theorem congr (h : s.Conserved r) (hshares : s'.sharesAt r = s.sharesAt r)
    (htotal : s'.totalSharesAt r = s.totalSharesAt r) : s'.Conserved r where
  nonneg := hshares ▸ h.nonneg
  finite := hshares ▸ h.finite
  total := by rw [htotal, ← h.total, hshares]

omit [FixedPoint] in
/-- One balance and the total move by the same amount. -/
theorem update (h : s.Conserved r) {d : ℤ}
    (hshares : s'.sharesAt r = Function.update (s.sharesAt r) u (s.sharesAt r u + d))
    (hpos : 0 ≤ s.sharesAt r u + d) (htotal : s'.totalSharesAt r = s.totalSharesAt r + d) :
    s'.Conserved r where
  nonneg u' := by
    rw [hshares]
    by_cases hu : u' = u
    · subst hu; simpa using hpos
    · rw [Function.update_of_ne hu]; exact h.nonneg u'
  finite := hshares ▸ support_update_finite h.finite
  total := by rw [hshares, finsum_update h.finite, h.total, htotal]; ring

end Conserved

end State

/-- **Conservation step.**  A movement changes one balance and the total by the same amount, and
    no other call touches either. -/
theorem Effect.conserved (h : Effect t r s s') (hs : s.Conserved r) : s'.Conserved r := by
  -- accrual does not touch the total
  have htotal {v w : ReserveVault Address} (present : s.vaultAt r = some v)
      (accrual : v.updateRate t.env s.storage.feeMode = .ok w) :
      s.totalSharesAt r = w.totalShares.val := by
    obtain ⟨fee, hfee⟩ := ReserveVault.updateRate_accrual accrual
    rw [State.totalSharesAt_some present, hfee.totalShares]
  cases h with
  | untouched _ _ vault shares =>
    exact hs.congr shares (by rw [State.totalSharesAt, vault, State.totalSharesAt])
  | opened _ absent vault shares =>
    refine hs.congr shares ?_
    rw [State.totalSharesAt_some vault, State.totalSharesAt, absent]
    rfl
  | accrued _ present accrual vault shares =>
    exact hs.congr shares (by rw [State.totalSharesAt_some vault, htotal present accrual])
  | @deposited u _ _ _ _ _ _ _ _ _ _ present accrual _ _ _ minted_pos totalShares _ vault shares =>
    refine hs.update shares (by have := hs.nonneg u; omega) ?_
    rw [State.totalSharesAt_some vault, htotal present accrual, totalShares]
  | withdrawn _ _ _ present accrual _ _ _ _ _ burned_le_balance totalShares _ vault shares =>
    refine hs.update (d := -_) shares (by omega) ?_
    rw [State.totalSharesAt_some vault, htotal present accrual, totalShares, sub_eq_add_neg]
  | claimed _ present accrual _ _ vault shares =>
    exact hs.congr shares (by rw [State.totalSharesAt_some vault, htotal present accrual])

/-- **Conservation.**  In every state that can be reached, shares are neither lost nor made up:
    the balances add up to the vault's total. -/
theorem Reachable.conserved (hs : Reachable ok s) (r : Address) : s.Conserved r := by
  refine Revert.Reachable.invariant (I := fun s => s.Conserved r) ?_ ?_ hs
  · intro s hs
    obtain ⟨hvault, hshares, -⟩ := hs.empty
    have h0 : s.sharesAt r = 0 := hshares r
    refine ⟨fun u => (congrFun h0 u).ge, by simp [h0], ?_⟩
    rw [h0, State.totalSharesAt, hvault r]
    exact finsum_zero
  · intro s t _ s' hr hI _ h
    have hkeyed := Reachable.keyed (show Reachable ok s from hr)
    exact (exec_effect hkeyed h r).conserved hI

/-! ### What the views and `withdraw` rely on -/

/-- The share ledger of a state, as the contract's readers rely on it. -/
structure LedgerConserved (s : State Address) : Prop where
  /-- Every user's shares are non-negative. -/
  nonneg : ∀ r u, 0 ≤ (Contract.getShares s r u).val
  /-- Only finitely many users hold shares, and they add up to the vault's total. -/
  total : ∀ r v, s.storage.resVault r = some v →
    (Function.support fun u => (Contract.getShares s r u).val).Finite ∧
      ∑ᶠ u, (Contract.getShares s r u).val = v.totalShares.val
  /-- The vault stored under a key has that address. -/
  address : ∀ r v, s.storage.resVault r = some v → v.address = r
  /-- No user holds shares in a reserve without a vault. -/
  absent : ∀ r u, s.storage.resVault r = none → (Contract.getShares s r u).val = 0
  /-- A user with shares finds a vault, and the views divide by its positive total. -/
  divisor_pos : ∀ r u, 0 < (Contract.getShares s r u).val →
    (∃ v, s.storage.resVault r = some v) ∧
      ∀ e w, Contract.getReserveVault e s r = .ok w → 0 < w.totalShares.val
  /-- In `withdraw`, the check against the user's balance implies the one against the total. -/
  balance_check : ∀ e r u w a x m, Contract.getReserveVault e s r = .ok w →
    w.underlyingToBTokensUp a = .ok x → w.bTokensToSharesUp x = .ok m →
    m ≤ Contract.getShares s r u → m ≤ w.totalShares

/-- **Share ledger conservation.**  In every state the contract can reach, whatever the pool's
    rates were, the users' shares are non-negative and add up to the vaults' totals. -/
theorem reachable_ledgerConserved (hs : Reachable (fun _ => True) s) : LedgerConserved s := by
  have hupdated {e : Env Address} {r : Address} {w : ReserveVault Address}
      (hw : Contract.getReserveVault e s r = .ok w) : s.totalSharesAt r = w.totalShares.val := by
    obtain ⟨v, hv, hvw⟩ := ReserveVault.getReserveVaultUpdated_eq_ok.1 hw
    obtain ⟨fee, hfee⟩ := ReserveVault.updateRate_accrual hvw
    rw [State.totalSharesAt_some hv, hfee.totalShares]
  exact {
    nonneg := fun r u => (hs.conserved r).nonneg u
    total := fun r v hv =>
      ⟨(hs.conserved r).finite, (hs.conserved r).total.trans (State.totalSharesAt_some hv)⟩
    address := hs.keyed
    absent := fun r u hr => (hs.conserved r).eq_zero_of_absent hr u
    divisor_pos := fun r u hu => by
      constructor
      · cases hv : s.storage.resVault r with
        -- without a vault the user would have no shares
        | none => exact absurd ((hs.conserved r).eq_zero_of_absent hv u) hu.ne'
        | some v => exact ⟨v, rfl⟩
      · intro e w hw
        exact hupdated hw ▸ lt_of_lt_of_le hu ((hs.conserved r).le_total u)
    balance_check := fun e r u w a x m hw _ _ hm =>
      le_trans (I128.le_iff.1 hm) (hupdated hw ▸ (hs.conserved r).le_total u) }

omit [FixedPoint] in
/-- The ledger at the end of the concrete run. -/
theorem ledgerConserved_demo : @LedgerConserved ℕ FixedPoint.reference Demo.state :=
  @reachable_ledgerConserved ℕ FixedPoint.reference _ _
    (Demo.state_reachable.mono fun _ _ => trivial)

end FeeVault
