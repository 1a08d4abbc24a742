import FeeVault.Soundness

namespace FeeVault

/-!
# The accrual inside a transaction

Interest is accrued lazily, by the calls that need the vault up to date.  `accrualAt` is the vault
of one reserve before and after the accrual that a transaction performs on it, and the lemmas below
say which of the effects performs one.  What is then charged, kept or earned over a run is summed
up from it.
-/

variable {Address : Type} [DecidableEq Address]

/-- Whether a call accrues the reserve `r`, given that `r` has a vault. -/
def Call.accrues (r : Address) : Call Address → Bool
  | .setFeeMode _ _ => true
  | .claimFees reserve _ => reserve = r
  | .deposit reserve _ _ => reserve = r
  | .withdraw reserve _ _ => reserve = r
  | _ => false

variable [FixedPoint]

/-- The vault of `r` before and after the accrual the transaction `t` performs on it, if any. -/
def accrualAt (r : Address) (s : State Address) (t : Tx Address) :
    Option (ReserveVault Address × ReserveVault Address) :=
  if t.call.accrues r then
    (s.vaultAt r).bind fun v =>
      match v.updateRate t.env s.storage.feeMode with
      | .ok w => some (v, w)
      | .error _ => none
  else none

variable {s s' : State Address} {t : Tx Address} {r : Address} {v w : ReserveVault Address}

/-- Inversion: the accrual of a transaction is that of the stored vault under the stored mode, in
    a call that accrues the reserve. -/
theorem accrualAt_eq_some : accrualAt r s t = some (v, w) ↔
    t.call.accrues r = true ∧ s.vaultAt r = some v ∧
      v.updateRate t.env s.storage.feeMode = .ok w := by
  unfold accrualAt
  split
  · next haccrues =>
    rw [Option.bind_eq_some_iff]
    constructor
    · rintro ⟨v', hv, h⟩
      split at h
      · next hw =>
        obtain ⟨rfl, rfl⟩ := Prod.mk.inj (Option.some.inj h)
        exact ⟨haccrues, hv, hw⟩
      · cases h
    · rintro ⟨-, hv, hw⟩
      exact ⟨v, hv, by simp only [hw]⟩
  · next hnot => simp [hnot]

/-- A transaction that leaves the reserve alone accrues nothing there: `set_fee_mode` would have
    found the vault on its list. -/
theorem accrualAt_of_untouched (hlisted : s.Listed) (other : t.call.reserve? ≠ some r)
    (unlisted : ∀ isAprCapped value, t.call = .setFeeMode isAprCapped value →
      r ∉ s.storage.getReserves) : accrualAt r s t = none := by
  apply Option.eq_none_iff_forall_ne_some.2
  rintro ⟨v, w⟩ h
  obtain ⟨haccrues, hv, -⟩ := accrualAt_eq_some.1 h
  cases hcall : t.call with
  | setFeeMode isAprCapped value => exact unlisted _ _ hcall (hlisted r v hv)
  | claimFees | deposit | withdraw =>
    rw [hcall] at haccrues other
    exact other (congrArg some (of_decide_eq_true haccrues))
  | setAdmin | addReserveVault | claimEmissions =>
    rw [hcall] at haccrues
    cases haccrues

/-- A reserve without a vault has nothing to accrue. -/
theorem accrualAt_of_absent (h : s.vaultAt r = none) : accrualAt r s t = none := by
  apply Option.eq_none_iff_forall_ne_some.2
  rintro ⟨v, w⟩ hsome
  obtain ⟨-, hv, -⟩ := accrualAt_eq_some.1 hsome
  rw [h] at hv
  cases hv

/-- Where the vault accrues, a call that does not accrue it is not one of those that do. -/
theorem not_accrues (h : accrualAt r s t = none) (hv : s.vaultAt r = some v)
    (hw : v.updateRate t.env s.storage.feeMode = .ok w) : t.call.accrues r = false := by
  by_contra haccrues
  rw [accrualAt_eq_some.2 ⟨eq_true_of_ne_false haccrues, hv, hw⟩] at h
  cases h

end FeeVault
