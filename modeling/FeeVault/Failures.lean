import FeeVault.Effects

namespace FeeVault

open Outcome

/-!
# How a call can fail

The counterpart of the inversions of `Effects`: which failures the parts of an entry point can
end in.  Accrual and the conversions only ever trap (`updateRate_failsOnly`,
`bTokensToSharesDown_failsOnly`), everything around them refuses the call as a whole, so that an
entry point fails like its bookkeeping apart from these refusals (`Contract.deposit_failsOnly`,
`Contract.withdraw_failsOnly`, `Contract.claimFees_failsOnly`).  Each check takes either the reason
it passes for or the failure it would end in.
-/

variable {Address : Type} [FixedPoint]
variable {P : Failure → Prop} {e : Env Address} {fm : FeeMode} {r u : Address} {a n : I128}

namespace ReserveVault

variable {v : ReserveVault Address} {st : Storage Address} {now : UInt64}

/-- Shares for a deposit: the conversion of an empty vault cannot fail, and the other one only in
    its arithmetic. -/
theorem bTokensToSharesDown_failsOnly (hP : P .arithmetic) :
    FailsOnly P (v.bTokensToSharesDown a) := by
  unfold bTokensToSharesDown
  split
  · exact .ok a
  · exact failsOnly_unwrap hP _

/-- Shares for a withdrawal, likewise. -/
theorem bTokensToSharesUp_failsOnly (hP : P .arithmetic) :
    FailsOnly P (v.bTokensToSharesUp a) := by
  unfold bTokensToSharesUp
  split
  · exact .ok a
  · exact failsOnly_unwrap hP _

/-- The fee of an accrual.  Both modes are chains of checked operations, so whichever of them does
    not go through, the failure is the same. -/
theorem adminTake_failsOnly (hP : P .arithmetic) : FailsOnly P (v.adminTake fm now n) := by
  unfold adminTake
  split
  · refine .bind (failsOnly_unwrap hP _) fun _ _ => .bind (failsOnly_unwrap hP _) fun _ _ =>
      .bind (failsOnly_unwrap hP _) fun _ _ => .bind (failsOnly_unwrap hP _) fun _ _ =>
      .bind (failsOnly_unwrap hP _) fun _ _ => .bind (failsOnly_unwrap hP _) fun _ _ => ?_
    split
    · exact .ok 0
    · exact .bind (failsOnly_unwrap hP _) fun _ _ => failsOnly_unwrap hP _
  · exact .bind (failsOnly_unwrap hP _) fun _ _ => .bind (failsOnly_unwrap hP _) fun _ _ =>
      .bind (failsOnly_unwrap hP _) fun _ _ => failsOnly_unwrap hP _

/-- Accrual fails in its arithmetic or not at all. -/
theorem updateRate_failsOnly (hP : P .arithmetic) : FailsOnly P (v.updateRate e fm) := by
  unfold updateRate
  dsimp only
  split
  · exact .ok _
  · apply FailsOnly.bind (adminTake_failsOnly hP)
    intro _ _
    split
    · exact .ok _
    · exact .bind (failsOnly_unwrap hP _) fun _ _ => .bind (failsOnly_unwrap hP _) fun _ _ => .ok _

omit [FixedPoint] in
/-- Reading a vault refuses only a reserve that has none. -/
theorem getReserveVault_failsOnly
    (h : (∃ v, st.resVault r = some v) ∨ P (.contract .reserveNotFound)) :
    FailsOnly P (st.getReserveVault r) := by
  unfold Storage.getReserveVault
  split
  · exact .ok _
  · next hnone =>
    refine .error (h.resolve_left ?_)
    rintro ⟨v, hv⟩
    cases hnone.symm.trans hv

/-- Reading a vault at the pool's rate: what it can fail in is what reading it and
    accruing it can fail in. -/
theorem getReserveVaultUpdated_failsOnly (hP : P .arithmetic)
    (h : (∃ v, st.resVault r = some v) ∨ P (.contract .reserveNotFound)) :
    FailsOnly P (getReserveVaultUpdated e st r) :=
  .bind (getReserveVault_failsOnly h) fun _ _ => updateRate_failsOnly hP

end ReserveVault

omit [FixedPoint] in
/-- Every entry point but the views checks the caller first: it passes, or
    `Unauthorized` is admitted. -/
theorem requireAuth_failsOnly (h : e.authorized u = true ∨ P .unauthorized) :
    FailsOnly P (e.requireAuth u) := by
  unfold Env.requireAuth
  split
  · exact .ok ()
  · next hnot => exact .error (h.resolve_left hnot)

omit [FixedPoint] in
/-- The entry points look for the vault before they do anything else with the reserve, and refuse
    one that has none. -/
theorem requireHasReserve_failsOnly {st : Storage Address}
    (h : (∃ v, st.resVault r = some v) ∨ P (.contract .reserveNotFound)) :
    FailsOnly P (requireHasReserve st r) := by
  unfold requireHasReserve
  split
  · exact .ok ()
  · next hnot => exact .error (h.resolve_left (mt Option.isSome_iff_exists.2 hnot))

namespace Pool

variable [DecidableEq Address]

omit [FixedPoint] in
/-- The pool takes a deposit unless it refuses the request, whatever the amount. -/
theorem supply_failsOnly (p : Pool Address) (h : e.poolAccepts = true ∨ P .pool) :
    FailsOnly P (p.supply e r a) := by
  unfold supply
  split
  · exact .ok _
  · next hnot => exact .error (h.resolve_left hnot)

omit [FixedPoint] in
/-- The pool pays a withdrawal unless it refuses the request: a request beyond the position is
    paid short, not refused. -/
theorem withdraw_failsOnly (p : Pool Address) (h : e.poolAccepts = true ∨ P .pool) :
    FailsOnly P (p.withdraw e r u a) := by
  unfold withdraw
  dsimp only
  split
  · split
    · exact .ok _
    · exact .ok _
  · next hnot => exact .error (h.resolve_left hnot)

end Pool

namespace Contract

variable [DecidableEq Address] {s : State Address} {toAddr : Address}
variable (hreserve : (∃ v, s.storage.resVault r = some v) ∨ P (.contract .reserveNotFound))
  (hpool : e.poolAccepts = true ∨ P .pool)
include hreserve hpool

/-- **Fee claims** fail like their bookkeeping, which comes before the pool: apart from the
    refusals given, an error out of `claim_fees` is one of `reserve_vault::claim_fees`. -/
theorem claimFees_failsOnly (hauth : e.authorized s.storage.admin = true ∨ P .unauthorized)
    (hbook : FailsOnly P (ReserveVault.claimFees e s.storage r)) :
    FailsOnly P (claimFees e s r toAddr) := by
  refine .bind (requireAuth_failsOnly hauth) ?_
  intro _ _
  refine .bind (requireHasReserve_failsOnly hreserve) ?_
  intro _ _
  refine .bind hbook ?_
  intro _ _
  exact .bind (Pool.withdraw_failsOnly s.pool hpool) fun _ _ => .ok _

variable (hauth : e.authorized u = true ∨ P .unauthorized)
  (hamount : 0 < a.val ∨ P (.contract .invalidAmount))
include hauth hamount

/-- **Deposits** fail like their bookkeeping, which may take the amount to be positive since the
    entry point has checked it by then. -/
theorem deposit_failsOnly
    (hbook : 0 < a.val → FailsOnly P (ReserveVault.deposit e s.storage r u a)) :
    FailsOnly P (deposit e s r u a) := by
  refine .bind (requireAuth_failsOnly hauth) ?_
  intro _ _
  refine .bind (requireHasReserve_failsOnly hreserve) ?_
  intro _ _
  refine .bind (failsOnly_positive hamount) ?_
  intro _ ha
  refine .bind (Pool.supply_failsOnly s.pool hpool) ?_
  intro _ _
  exact .bind (hbook (requirePositive_eq_ok.1 ha)) fun _ _ => .ok _

/-- **Withdrawals** fail like their bookkeeping.  The pool is asked before, but its part of the
    call is undone when the bookkeeping fails. -/
theorem withdraw_failsOnly
    (hbook : 0 < a.val → FailsOnly P (ReserveVault.withdraw e s.storage r u a)) :
    FailsOnly P (withdraw e s r u a) := by
  refine .bind (requireAuth_failsOnly hauth) ?_
  intro _ _
  refine .bind (requireHasReserve_failsOnly hreserve) ?_
  intro _ _
  refine .bind (failsOnly_positive hamount) ?_
  intro _ ha
  refine .bind (Pool.withdraw_failsOnly s.pool hpool) ?_
  intro _ _
  exact .bind (hbook (requirePositive_eq_ok.1 ha)) fun _ _ => .ok _

end Contract

end FeeVault
