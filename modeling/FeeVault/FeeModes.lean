import FeeVault.Conservation
import FeeVault.Failures

namespace FeeVault

open Outcome

/-!
# A new fee mode, all reserves at once

`set_fee_mode` walks the list of reserves and accrues one vault after the other before it writes
the new mode, and any vault that traps on the way takes the whole call with it.

* `ReserveVault.foldlM_accrue_isOk_iff` — the loop succeeds exactly when every vault on the list
  accrues on its own;
* `setFeeModeAtOnce` — the same without a loop or a list: all vaults accrue at once, or none;
* `setFeeMode_eq_atOnce` — in every reachable state the two are equal, failures included, because
  there the list names exactly the reserves that have a vault.
-/

variable {Address : Type}

/-- Every reserve on the list has a vault. -/
def State.Stored (s : State Address) : Prop :=
  ∀ r ∈ s.storage.getReserves, ∃ v, s.vaultAt r = some v

variable [FixedPoint]

/-- The vault brought up to date, or as it is where that traps. -/
def ReserveVault.accrue (e : Env Address) (fm : FeeMode) (v : ReserveVault Address) :
    ReserveVault Address :=
  match v.updateRate e fm with
  | .ok w => w
  | .error _ => v

/-- Where accrual goes through, the loop-free step takes its result. -/
theorem ReserveVault.accrue_of_ok {e : Env Address} {fm : FeeMode} {v w : ReserveVault Address}
    (h : v.updateRate e fm = .ok w) : v.accrue e fm = w := by
  rw [accrue, h]

/-- Every vault accrues under the mode in force. -/
def State.Accruable (e : Env Address) (s : State Address) : Prop :=
  ∀ r v, s.vaultAt r = some v → ∃ w, v.updateRate e s.storage.feeMode = .ok w

open Classical in
/-- `set_fee_mode` as a single step: all vaults accrue under the mode in force, then the
    mode is the new one. -/
noncomputable def setFeeModeAtOnce (e : Env Address) (s : State Address) (isAprCapped : Bool)
    (value : I128) : Except Failure (State Address) :=
  if ¬ e.authorized s.storage.admin then .error .unauthorized
  else if ¬ (FeeMode.mk isAprCapped value).Valid then .error (.contract .invalidFeeModeValue)
  else if ¬ s.Accruable e then .error .arithmetic
  else .ok { s with
    storage := { s.storage with
      resVault := fun r => (s.vaultAt r).map (ReserveVault.accrue e s.storage.feeMode)
      feeMode := ⟨isAprCapped, value⟩ }
    events := s.events ++ [.feeModeUpdate isAprCapped value] }

variable [DecidableEq Address]
variable {ok : Env Address → Prop} {e : Env Address} {s s' : State Address} {t : Tx Address}
  {r : Address} {val : Value}

/-! ### The list names what is stored -/

/-- No effect takes a vault away. -/
theorem Effect.vault_kept (h : Effect t r s s') (hr : ∃ v, s.vaultAt r = some v) :
    ∃ v, s'.vaultAt r = some v := by
  cases h with
  | untouched _ _ vault => exact vault ▸ hr
  | opened _ _ vault | accrued _ _ _ vault | deposited _ _ _ _ _ _ _ _ _ _ _ vault
  | withdrawn _ _ _ _ _ _ _ _ _ _ _ _ _ vault | claimed _ _ _ _ _ vault => exact ⟨_, vault⟩

/-- Conversely, every reserve on the list has a vault: the two are made in the same call. -/
theorem Reachable.stored (hs : Reachable ok s) : s.Stored := by
  refine Revert.Reachable.invariant (I := State.Stored) ?_ ?_ hs
  · rintro s ⟨e, admin, pool, isAprCapped, value, h⟩ r hr
    simp only [Contract.constructor, bind_eq_ok, pure_eq_ok] at h
    obtain ⟨-, -, -, -, h⟩ := h
    obtain rfl := Except.ok.inj h
    cases hr
  · intro s t val s' hreach hstored _ h r hr
    have heffect := exec_effect (Reachable.keyed (show Reachable ok s from hreach)) h r
    rw [(exec_settings h).2, List.mem_append] at hr
    obtain hold | hnew := hr
    · exact heffect.vault_kept (hstored r hold)
    · -- a reserve that is added gets its vault in the same call
      have hcall : t.call = .addReserveVault r := by
        cases hc : t.call with
        | addReserveVault r₀ =>
          rw [hc] at hnew
          rw [List.mem_singleton.1 hnew]
        | _ => rw [hc] at hnew; cases hnew
      cases heffect with
      | untouched other => rw [hcall] at other; exact absurd rfl other
      | opened _ _ vault => exact ⟨_, vault⟩
      | accrued call | deposited call | withdrawn call | claimed call =>
        rw [hcall] at call
        cases call

/-! ### The loop -/

namespace ReserveVault

variable {st st' : Storage Address} {rs : List Address}

/-- A walk over stored vaults succeeds when each of them accrues, in whatever order and however
    often it comes to them, … -/
theorem foldlM_accrue_isOk (hkey : ∀ r v, st.resVault r = some v → v.address = r)
    (h : ∀ r ∈ rs, ∃ v w, st.resVault r = some v ∧ v.updateRate e st.feeMode = .ok w) :
    ∃ st', rs.foldlM (accrueInterestForReserve e) st = .ok st' := by
  induction rs generalizing st with
  | nil => exact ⟨st, rfl⟩
  | cons r₀ rs ih =>
    obtain ⟨v₀, w₀, hv₀, hw₀⟩ := h r₀ List.mem_cons_self
    have haddr : w₀.address = r₀ := (updateRate_address hw₀).trans (hkey r₀ v₀ hv₀)
    have hstep : accrueInterestForReserve e st r₀ = .ok (st.setReserveVault r₀ w₀) := by
      rw [accrueInterestForReserve, getReserveVaultUpdated_eq_ok.2 ⟨v₀, hv₀, hw₀⟩]
      rfl
    rw [List.foldlM_cons, hstep, ok_bind]
    apply ih
    · intro r v hv
      rw [Storage.resVault_setReserveVault] at hv
      split at hv
      · next hr => exact (Option.some.inj hv) ▸ hr ▸ haddr
      · exact hkey r v hv
    · intro r hr
      by_cases heq : r = r₀
      -- a reserve named again is up to date already
      · exact ⟨w₀, w₀, (Storage.resVault_setReserveVault st).trans (if_pos heq),
          updateRate_idem hw₀ rfl rfl⟩
      · obtain ⟨v, w, hv, hw⟩ := h r (List.mem_cons_of_mem r₀ hr)
        exact ⟨v, w, (Storage.resVault_setReserveVault st).trans ((if_neg heq).trans hv), hw⟩

/-- … and otherwise traps, since every reserve on the list has a vault to read. -/
theorem foldlM_accrue_failsOnly (hstored : ∀ r ∈ rs, ∃ v, st.resVault r = some v) :
    FailsOnly (· = .arithmetic) (rs.foldlM (accrueInterestForReserve e) st) := by
  induction rs generalizing st with
  | nil => exact .ok st
  | cons r₀ rs ih =>
    rw [List.foldlM_cons]
    refine .bind (.bind (getReserveVaultUpdated_failsOnly rfl
      (.inl (hstored r₀ List.mem_cons_self))) fun _ _ => .ok _) ?_
    intro st₁ h
    simp only [accrueInterestForReserve, bind_eq_ok, pure_eq_ok] at h
    obtain ⟨w₀, -, h⟩ := h
    obtain rfl := Except.ok.inj h
    apply ih
    intro r hr
    rw [Storage.resVault_setReserveVault]
    split
    · exact ⟨w₀, rfl⟩
    · exact hstored r (List.mem_cons_of_mem r₀ hr)

/-- **The loop.**  Over stored vaults it succeeds exactly when each of them accrues on its own. -/
theorem foldlM_accrue_isOk_iff (hkey : ∀ r v, st.resVault r = some v → v.address = r)
    (hstored : ∀ r ∈ rs, ∃ v, st.resVault r = some v) :
    (∃ st', rs.foldlM (accrueInterestForReserve e) st = .ok st') ↔
      ∀ r ∈ rs, ∀ v, st.resVault r = some v → ∃ w, v.updateRate e st.feeMode = .ok w := by
  constructor
  · rintro ⟨st', h⟩ r hr v hv
    obtain ⟨v', w, hv', hw, -⟩ := (foldlM_accrue_eq_ok hkey h r).2 hr
    obtain rfl := Option.some.inj (hv'.symm.trans hv)
    exact ⟨w, hw⟩
  · intro h
    refine foldlM_accrue_isOk hkey ?_
    intro r hr
    obtain ⟨v, hv⟩ := hstored r hr
    obtain ⟨w, hw⟩ := h r hr v hv
    exact ⟨v, w, hv, hw⟩

end ReserveVault

/-! ### The call -/

/-- Accruing all reserves succeeds exactly when every vault accrues, … -/
theorem accrueAll_isOk_iff (hs : Reachable ok s) :
    (∃ st, ReserveVault.accrueInterestForAllReserves e s.storage = .ok st) ↔ s.Accruable e := by
  rw [ReserveVault.accrueInterestForAllReserves,
    ReserveVault.foldlM_accrue_isOk_iff hs.keyed hs.stored]
  constructor
  · intro h r v hv
    exact h r (hs.listed r v hv) v hv
  · intro h r _ v hv
    exact h r v hv

/-- … and then every vault is its own accrual, whatever the order of the list. -/
theorem accrueAll_eq (hs : Reachable ok s) {st : Storage Address}
    (h : ReserveVault.accrueInterestForAllReserves e s.storage = .ok st) :
    st = { s.storage with
      resVault := fun r => (s.vaultAt r).map (ReserveVault.accrue e s.storage.feeMode) } := by
  obtain ⟨f, rfl⟩ := ReserveVault.foldlM_accrue_frame h
  congr 1
  funext r
  have hvaults := ReserveVault.foldlM_accrue_eq_ok hs.keyed h r
  by_cases hr : r ∈ s.storage.getReserves
  · obtain ⟨v, w, hv, hw, hf⟩ := hvaults.2 hr
    rw [State.vaultAt, hv, Option.map_some, ReserveVault.accrue_of_ok hw]
    exact hf
  · have hnone : s.vaultAt r = none := by
      by_contra hne
      obtain ⟨v, hv⟩ := Option.ne_none_iff_exists'.1 hne
      exact hr (hs.listed r v hv)
    rw [hnone]
    exact (hvaults.1 hr).trans hnone

/-- **All at once.**  In every reachable state `set_fee_mode` is the loop-free step: the same
    vaults, settings and events when it succeeds, and the same failure when it does not. -/
theorem setFeeMode_eq_atOnce (hs : Reachable (fun _ => True) s) (e : Env Address)
    (isAprCapped : Bool) (value : I128) :
    Contract.setFeeMode e s isAprCapped value = setFeeModeAtOnce e s isAprCapped value := by
  unfold Contract.setFeeMode setFeeModeAtOnce
  by_cases hauth : e.authorized s.storage.admin = true
  · have hsigned : e.requireAuth s.storage.admin = .ok () := requireAuth_eq_ok.2 hauth
    rw [hsigned, ok_bind, if_neg (not_not.2 hauth)]
    by_cases hvalue : (FeeMode.mk isAprCapped value).Valid
    · have hadmitted : Contract.requireFeeModeValue value = .ok () :=
        (Contract.requireFeeModeValue_eq_ok isAprCapped).2 hvalue
      rw [hadmitted, ok_bind, if_neg (not_not.2 hvalue)]
      have hiff := accrueAll_isOk_iff (e := e) hs
      have hfails : FailsOnly (· = .arithmetic)
          (ReserveVault.accrueInterestForAllReserves e s.storage) :=
        ReserveVault.foldlM_accrue_failsOnly hs.stored
      cases h : ReserveVault.accrueInterestForAllReserves e s.storage with
      | ok st =>
        rw [if_neg (not_not.2 (hiff.1 ⟨st, h⟩)), ok_bind, accrueAll_eq hs h]
        rfl
      | error f =>
        obtain rfl := hfails f h
        rw [if_pos]
        · rfl
        · intro haccruable
          obtain ⟨st, hst⟩ := hiff.2 haccruable
          cases h.symm.trans hst
    · rw [if_pos hvalue]
      have hrefused : Contract.requireFeeModeValue value =
          .error (.contract .invalidFeeModeValue) := by
        unfold Contract.requireFeeModeValue
        apply if_pos
        by_contra hnot
        apply hvalue
        show 0 ≤ value.val ∧ value.val ≤ 10000000
        omega
      rw [hrefused]
      rfl
  · rw [if_pos hauth, Env.requireAuth, if_neg hauth]
    rfl

/-- The concrete run, after which reserve `8` is opened too and user `4` deposits there. -/
def Demo.twoReserves : State ℕ :=
  Revert.run (@exec ℕ _ FixedPoint.reference) state
    [⟨env 45 (I128.ofUInt64 1200000000000) 0, .addReserveVault 8⟩,
     ⟨env 46 (I128.ofUInt64 1200000000000) 4, .deposit 8 4 (I128.ofUInt64 33333333)⟩]

omit [FixedPoint] in
/-- A change of mode then, with interest pending on both reserves. -/
theorem setFeeMode_eq_atOnce_demo : Demo.twoReserves.storage.getReserves = [7, 8] ∧
    @Contract.setFeeMode ℕ _ FixedPoint.reference (Demo.env 50 (I128.ofUInt64 1300000000000) 0)
        Demo.twoReserves true (I128.ofUInt64 500000) =
      @setFeeModeAtOnce ℕ FixedPoint.reference (Demo.env 50 (I128.ofUInt64 1300000000000) 0)
        Demo.twoReserves true (I128.ofUInt64 500000) := by
  refine ⟨by decide, @setFeeMode_eq_atOnce ℕ FixedPoint.reference _ _ ?_ _ _ _⟩
  exact Revert.Reachable.run (Demo.state_reachable.mono fun _ _ => trivial) fun _ _ => trivial

end FeeVault
