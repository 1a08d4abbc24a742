import FeeVault.Accounting
import FeeVault.FairClaims

namespace FeeVault

open FairLedger

/-!
# Within one ledger

All transactions of one ledger find the pool at the same time and the same rate.  The first call
that needs a reserve up to date accrues it, and no later one does, whatever becomes of the fee mode.

* `exec_shown` — what a call leaves of the vault that was shown before it;
* `one_ledger` — so over any run within the ledger the fees shown are neither raised nor lost, and
  the depositors' bTokens change by those that move, however the calls are ordered;
* `run_fairRun` — the fair ledger of such a run is one scaling and a sum of credits;
* `reordering_bounded` — two orders of the same calls leave every claim the same, but for the
  rounding of each movement.
-/

variable {Address : Type}

/-- The same time, and the same rate of `r`. -/
def Env.SameAt (r : Address) (e e' : Env Address) : Prop :=
  e'.timestamp = e.timestamp ∧ e'.bRate r = e.bRate r

instance (r : Address) (e e' : Env Address) : Decidable (e.SameAt r e') :=
  inferInstanceAs (Decidable (_ ∧ _))

variable [DecidableEq Address]

/-- The bTokens a call moves into `r` for the users `who`; out of it they count negative. -/
def Call.moved (r : Address) (who : Address → Bool) (e : Env Address) : Call Address → ℤ
  | .deposit reserve user amount =>
    if reserve = r ∧ who user then MulDiv.floor amount scalar12 (e.bRate r) else 0
  | .withdraw reserve user amount =>
    if reserve = r ∧ who user then -MulDiv.ceil amount scalar12 (e.bRate r) else 0
  | _ => 0

variable [FixedPoint]
variable {ok : Env Address → Prop} {e e' : Env Address} {s s' : State Address} {t : Tx Address}
  {ts ts' : List (Tx Address)} {r u : Address} {v w : ReserveVault Address} {val : Value}

omit [DecidableEq Address] in
/-- Accrual of one reserve reads the time and that reserve's rate, so it is the same
    throughout the ledger. -/
theorem ReserveVault.updateRate_sameAt {fm : FeeMode} (h : e.SameAt v.address e') :
    v.updateRate e' fm = v.updateRate e fm := by
  rw [updateRate, updateRate, h.1, h.2]

/-! ### One call -/

/-- A call that commits without accruing a reserve moves nothing in it, as every
    movement accrues first. -/
theorem moved_of_unaccrued (hs : Reachable ok s) (h : exec s t = .ok (val, s'))
    (hacc : accrualAt r s t = none) (who : Address → Bool) (e : Env Address) :
    t.call.moved r who e = 0 := by
  cases exec_effect hs.keyed h r with
  | untouched other =>
    cases hcall : t.call with
    | deposit reserve user amount | withdraw reserve user amount =>
      rw [hcall] at other
      exact if_neg fun hr => other (congrArg some hr.1)
    | setFeeMode | setAdmin | addReserveVault | claimEmissions | claimFees => rfl
  | opened call => rw [call]; rfl
  | accrued call | claimed call => rw [call]; rfl
  | deposited call _ _ present accrual | withdrawn call _ _ present accrual =>
    have hnot := not_accrues hacc present accrual
    simp [call, Call.accrues] at hnot

/-- … and leaves what is shown of the reserve: neither its vault nor the fee mode changes, as a
    change of mode would accrue it. -/
theorem exec_unaccrued (hs : Reachable ok s) (h : exec s t = .ok (val, s'))
    (hv : s.vaultAt r = some v) (hacc : accrualAt r s t = none) :
    s'.vaultAt r = some v ∧ s'.storage.feeMode = s.storage.feeMode ∧
      t.call.accrues r = false := by
  cases exec_effect hs.keyed h r with
  | untouched other unlisted vault =>
    refine ⟨vault.trans hv, ?_, ?_⟩
    · obtain hsame | ⟨fm, -, hcall, -⟩ := (exec_settings h).1
      · exact hsame
      · exact absurd (hs.listed r v hv) (unlisted _ _ hcall)
    · cases hcall : t.call with
      | setFeeMode isAprCapped value =>
        exact absurd (hs.listed r v hv) (unlisted _ _ hcall)
      | deposit | withdraw | claimFees =>
        rw [hcall] at other
        exact decide_eq_false fun hr => other (congrArg some hr)
      | setAdmin | addReserveVault | claimEmissions => rfl
  | opened _ absent => cases absent.symm.trans hv
  | accrued call present accrual | deposited call _ _ present accrual
  | withdrawn call _ _ present accrual | claimed call present accrual =>
    have hnot := not_accrues hacc present accrual
    simp [call, Call.accrues] at hnot

/-- A call that accrues a reserve finds the vault that was shown, and leaves one at the
    pool's rate. -/
theorem exec_accrued (hs : Reachable ok s) (hpos : 0 < (e.bRate r).val)
    (hsound : s.SoundAt r) (he : e.SameAt r t.env)
    (h : exec s t = .ok (val, s')) (hacc : accrualAt r s t = some (v, w)) :
    Contract.getReserveVault e s r = .ok w ∧ ∃ w', s'.vaultAt r = some w' ∧
      w'.address = r ∧ w'.bRate = e.bRate r ∧ w'.lastUpdateTimestamp = e.timestamp ∧
      w'.accruedFees.val + feesTaken r s t = w.accruedFees ∧
      w'.totalBTokens.val = w.totalBTokens + t.call.moved r (fun _ => true) t.env := by
  obtain ⟨haccrues, hv, hvw⟩ := accrualAt_eq_some.1 hacc
  have haddr := hs.keyed r v hv
  obtain ⟨fee, hfee⟩ := ReserveVault.updateRate_accrual hvw
  have hb : w.bRate = e.bRate r := by rw [hfee.bRate, haddr, he.2]
  have htime : w.lastUpdateTimestamp = e.timestamp := hfee.lastUpdateTimestamp.trans he.1
  have haddr' : w.address = r := hfee.address.trans haddr
  have hrate : 0 < (t.env.bRate r).val := by rw [he.2]; exact hpos
  have hsameAt : e.SameAt v.address t.env := haddr ▸ he
  have hshown : Contract.getReserveVault e s r = .ok w :=
    ReserveVault.getReserveVaultUpdated_eq_ok.2
      ⟨v, hv, (ReserveVault.updateRate_sameAt hsameAt).symm.trans hvw⟩
  have hsame {v' w' : ReserveVault Address} (present : s.vaultAt r = some v')
      (accrual : v'.updateRate t.env s.storage.feeMode = .ok w') : w' = w := by
    obtain rfl := Option.some.inj (present.symm.trans hv)
    exact Except.ok.inj (accrual.symm.trans hvw)
  refine ⟨hshown, ?_⟩
  cases exec_effect hs.keyed h r with
  | untouched other unlisted =>
    rw [accrualAt_of_untouched hs.listed other unlisted] at hacc
    cases hacc
  | opened _ absent => cases absent.symm.trans hv
  | accrued call present accrual vault =>
    obtain rfl := hsame present accrual
    exact ⟨_, vault, haddr', hb, htime, by rw [feesTaken_of_ne (by simp [call]), add_zero],
      by simp [call, Call.moved]⟩
  | deposited call _ _ present accrual bTokens _ _ _ _ totalBTokens vault =>
    obtain ⟨hw, hwb⟩ := hsound.accrued (hs.keyed r) hrate present accrual
    have hx := ((ReserveVault.underlyingToBTokensDown_eq_ok hw.rate_pos).1 bTokens).2
    obtain rfl := hsame present accrual
    refine ⟨_, vault, haddr', hb, htime, by rw [feesTaken_of_ne (by simp [call]), add_zero], ?_⟩
    rw [totalBTokens, hx, hwb]
    simp [call, Call.moved]
  | withdrawn call _ _ present accrual bTokens _ _ _ _ _ _ totalBTokens vault =>
    obtain ⟨hw, hwb⟩ := hsound.accrued (hs.keyed r) hrate present accrual
    have hx := ((ReserveVault.underlyingToBTokensUp_eq_ok hw.rate_pos).1 bTokens).2
    obtain rfl := hsame present accrual
    refine ⟨_, vault, haddr', hb, htime, by rw [feesTaken_of_ne (by simp [call]), add_zero], ?_⟩
    rw [totalBTokens, hx, hwb]
    simp [call, Call.moved, sub_eq_add_neg]
  | claimed call present accrual _ _ vault =>
    obtain rfl := hsame present accrual
    refine ⟨_, vault, haddr', hb, htime, ?_, by simp [call, Call.moved]⟩
    rw [feesTaken, call, hacc, I128.val_zero, zero_add]

/-! ### What is shown -/

/-- What the vault of `r` shows before and after a run within one ledger. -/
structure OneLedger (r : Address) (s : State Address) (ts : List (Tx Address))
    (w w' : ReserveVault Address) : Prop where
  bRate : w'.bRate = w.bRate
  lastUpdateTimestamp : w'.lastUpdateTimestamp = w.lastUpdateTimestamp
  /-- Fees are taken, and no other falls due. -/
  fees : w'.accruedFees.val + runSum (feesTaken r) s ts = w.accruedFees
  bTokens : w'.totalBTokens.val = w.totalBTokens +
    runSum (fun _ t => t.call.moved r (fun _ => true) t.env) s ts

/-- **One call** of the ledger.  Interest falls due with the first accrual at the latest and is
    shown before it, so what is shown changes by the fees that are claimed and the bTokens that
    are moved. -/
theorem exec_shown (hs : Reachable ok s) (hpos : 0 < (e.bRate r).val) (hsound : s.SoundAt r)
    (he : e.SameAt r t.env) (h : exec s t = .ok (val, s'))
    (hw : Contract.getReserveVault e s r = .ok w) :
    ∃ w', Contract.getReserveVault e s' r = .ok w' ∧ w'.bRate = w.bRate ∧
      w'.lastUpdateTimestamp = w.lastUpdateTimestamp ∧
      w'.accruedFees.val + feesTaken r s t = w.accruedFees ∧
      w'.totalBTokens.val = w.totalBTokens + t.call.moved r (fun _ => true) t.env := by
  obtain ⟨v, hv, hvw⟩ := ReserveVault.getReserveVaultUpdated_eq_ok.1 hw
  cases hacc : accrualAt r s t with
  | none =>
    obtain ⟨hvault, hmode, -⟩ := exec_unaccrued hs h hv hacc
    refine ⟨w, ReserveVault.getReserveVaultUpdated_eq_ok.2 ⟨v, hvault, by rw [hmode, hvw]⟩, rfl,
      rfl, ?_, by rw [moved_of_unaccrued hs h hacc, add_zero]⟩
    have hfees : feesTaken r s t = 0 := by
      rw [feesTaken, hacc]
      cases t.call <;> rfl
    rw [hfees, add_zero]
  | some vw =>
    obtain ⟨v₁, w₁⟩ := vw
    obtain ⟨hshown, w', hvault, haddr, hb, htime, hfees, hbTokens⟩ :=
      exec_accrued hs hpos hsound he h hacc
    obtain rfl := Except.ok.inj (hshown.symm.trans hw)
    -- what is written at the pool's rate is read back as it is, under the new fee mode too
    have hread : Contract.getReserveVault e s' r = .ok w' := by
      refine ReserveVault.getReserveVaultUpdated_eq_ok.2 ⟨w', hvault, ?_⟩
      rw [ReserveVault.updateRate_of_rate_eq (by rw [haddr, hb]), ← htime]
    obtain ⟨fee, hfee⟩ := ReserveVault.updateRate_accrual hvw
    have hb' : w₁.bRate = e.bRate r := by rw [hfee.bRate, hs.keyed r v hv]
    exact ⟨w', hread, hb.trans hb'.symm, htime.trans hfee.lastUpdateTimestamp.symm, hfees,
      hbTokens⟩

/-- **Accrual happens once.**  Take any reachable state in which the reserve accrues, and any run in
    the same ledger: by anybody, in any order, with changes of the fee mode in between.  The fees
    shown before the run are those shown after it and those taken in between, and the depositors
    own the bTokens shown before and those that have moved. -/
theorem one_ledger (hs : Reachable (fun e => 0 < (e.bRate r).val) s)
    (hw : Contract.getReserveVault e s r = .ok w) (hpos : 0 < (e.bRate r).val)
    (hts : ∀ t ∈ ts, e.SameAt r t.env) :
    ∃ w', Contract.getReserveVault e (Revert.run exec s ts) r = .ok w' ∧
      OneLedger r s ts w w' := by
  induction ts generalizing s w with
  | nil => exact ⟨w, hw, rfl, rfl, add_zero _, (add_zero _).symm⟩
  | cons t ts ih =>
    have ht := hts t List.mem_cons_self
    have hrest := fun t' ht' => hts t' (List.mem_cons_of_mem t ht')
    rw [Revert.run_cons]
    cases h : exec s t with
    | error f =>
      rw [Revert.step_error h]
      obtain ⟨w', hw', hone⟩ := ih hs hw hrest
      refine ⟨w', hw', hone.bRate, hone.lastUpdateTimestamp, ?_, ?_⟩
      · rw [runSum_cons_error h]
        exact hone.fees
      · rw [runSum_cons_error h]
        exact hone.bTokens
    | ok res =>
      obtain ⟨val, s'⟩ := res
      rw [Revert.step_ok h]
      have hrate : 0 < (t.env.bRate r).val := by rw [ht.2]; exact hpos
      have hs' : Reachable (fun e => 0 < (e.bRate r).val) s' :=
        Revert.step_ok h ▸ Revert.Reachable.step hs hrate
      obtain ⟨w₁, hw₁, hb, htime, hfees, hbTokens⟩ :=
        exec_shown hs hpos (hs.soundAt fun _ he => he) ht h hw
      obtain ⟨w', hw', hone⟩ := ih hs' hw₁ hrest
      refine ⟨w', hw', hone.bRate.trans hb, hone.lastUpdateTimestamp.trans htime, ?_, ?_⟩
      · have hlater := hone.fees
        rw [runSum_cons_ok h]
        omega
      · have hlater := hone.bTokens
        rw [runSum_cons_ok h]
        omega

/-! ### The order of the calls -/

/-- The part of the depositors' bTokens that is theirs once `r` is accrued in `e`. -/
def State.keptAt (s : State Address) (e : Env Address) (r : Address) : ℚ :=
  match s.vaultAt r with
  | none => 1
  | some v =>
    match v.updateRate e s.storage.feeMode with
    | .ok w => v.kept w
    | .error _ => 1

/-- The vault of `r`, if there is one, is at the pool's rate. -/
def State.SettledAt (s : State Address) (e : Env Address) (r : Address) : Prop :=
  ∀ v, s.vaultAt r = some v → v.bRate = e.bRate r

omit [DecidableEq Address] in
/-- With a vault that accrues, what is kept is its part. -/
theorem State.keptAt_some (hv : s.vaultAt r = some v)
    (hw : v.updateRate e s.storage.feeMode = .ok w) : s.keptAt e r = v.kept w := by
  rw [State.keptAt, hv]
  simp only [hw]

omit [DecidableEq Address] in
/-- Nothing more is taken from a settled reserve. -/
theorem State.SettledAt.kept (h : s.SettledAt e r) (hkeyed : s.Keyed) : s.keptAt e r = 1 := by
  unfold State.keptAt
  split
  · rfl
  · next v hv =>
    rw [ReserveVault.updateRate_of_rate_eq (by rw [hkeyed r v hv, h v hv])]
    show v.kept _ = 1
    unfold ReserveVault.kept
    split
    · rfl
    · next hT => exact div_self (by exact_mod_cast hT)

/-- A call either settles the reserve or leaves open what is to be settled.  Over a run of one
    ledger, the fee falls due once at most. -/
theorem exec_settled (hs : Reachable ok s) (hpos : 0 < (e.bRate r).val) (hsound : s.SoundAt r)
    (he : e.SameAt r t.env) (h : exec s t = .ok (val, s')) :
    s'.SettledAt e r ∧ (accrualAt r s t = none → s.keptAt e r = 1) ∨
      accrualAt r s t = none ∧ t.call.accrues r = false ∧ s'.keptAt e r = s.keptAt e r := by
  cases hacc : accrualAt r s t with
  | some vw =>
    obtain ⟨-, w', hvault, -, hb, -⟩ := exec_accrued hs hpos hsound he h hacc
    refine .inl ⟨?_, by simp⟩
    intro v hv
    obtain rfl := Option.some.inj (hvault.symm.trans hv)
    exact hb
  | none =>
    cases hv : s.vaultAt r with
    | some v =>
      obtain ⟨hvault, hmode, haccrues⟩ := exec_unaccrued hs h hv hacc
      exact .inr ⟨rfl, haccrues, by rw [State.keptAt, hvault, hmode, State.keptAt, hv]⟩
    | none =>
      refine .inl ⟨?_, fun _ => by rw [State.keptAt, hv]⟩
      intro v' hv'
      cases exec_effect hs.keyed h r with
      | untouched _ _ vault => cases hv'.symm.trans (vault.trans hv)
      | opened _ _ vault =>
        obtain rfl := Option.some.inj (vault.symm.trans hv')
        exact he.2
      | accrued _ present | deposited _ _ _ present | withdrawn _ _ _ present
      | claimed _ present => cases present.symm.trans hv

omit [FixedPoint] in
/-- The bTokens a call moves are those of the ledger's rate. -/
theorem Call.moved_sameAt (he : e.SameAt r e') (who : Address → Bool) (c : Call Address) :
    c.moved r who e' = c.moved r who e := by
  cases c <;> simp [Call.moved, he.2]

omit [FixedPoint] in
/-- The credits of a call, to one account: those of its own movement, and none for a call that
    moves nothing. -/
theorem run_credits (c : Call Address) (f : Address → ℚ) :
    run (c.credits r e) f u = f u + c.moved r (· = u) e := by
  cases c with
  | deposit reserve user amount | withdraw reserve user amount =>
    simp only [Call.credits, Call.moved]
    by_cases hr : reserve = r
    · by_cases hu : user = u
      · subst hu
        simp [hr, run, Move.apply]
      · simp [hr, hu, run, Move.apply, Function.update_of_ne (Ne.symm hu)]
    · simp [hr, run]
  | setFeeMode | setAdmin | addReserveVault | claimEmissions | claimFees =>
    simp [Call.credits, Call.moved, run]

/-- **The fair ledger within one ledger** takes the fee once, from the first call that accrues on,
    and otherwise adds up what moves. -/
theorem run_fairRun (hs : Reachable (fun e => 0 < (e.bRate r).val) s) (hpos : 0 < (e.bRate r).val)
    (hts : ∀ t ∈ ts, e.SameAt r t.env) (f : Address → ℚ) (u : Address) :
    run (fairRun r s ts) f u =
      (if (Revert.committed exec s ts).any fun t => t.call.accrues r then s.keptAt e r else 1) * f u
        + ((Revert.committed exec s ts).map fun t => (t.call.moved r (· = u) e : ℚ)).sum := by
  induction ts generalizing s f with
  | nil => simp [fairRun, Revert.collect, Revert.committed, run]
  | cons t ts ih =>
    have ht := hts t List.mem_cons_self
    have hrest := fun t' ht' => hts t' (List.mem_cons_of_mem t ht')
    cases h : exec s t with
    | error failure =>
      rw [fairRun, Revert.collect_cons_error h, Revert.committed_cons_error h]
      exact ih hs hrest f
    | ok res =>
      obtain ⟨val, s'⟩ := res
      have hrate : 0 < (t.env.bRate r).val := by rw [ht.2]; exact hpos
      have hs' : Reachable (fun e => 0 < (e.bRate r).val) s' :=
        Revert.step_ok h ▸ Revert.Reachable.step hs hrate
      have hsettles := exec_settled hs hpos (hs.soundAt fun _ he => he) ht h
      have hlater := ih hs' hrest (run (fairMoves r s t) f)
      -- once the reserve is settled no factor is left
      have hone (hset : s'.SettledAt e r) (b : Bool) : (if b then s'.keptAt e r else 1) = 1 := by
        rw [hset.kept hs'.keyed, ite_self]
      rw [fairRun, Revert.collect_cons_ok h, Revert.committed_cons_ok h, List.flatten_cons,
        run_append, List.map_cons, List.sum_cons, List.any_cons, ← fairRun, hlater]
      cases hacc : accrualAt r s t with
      | none =>
        have hmoves : run (fairMoves r s t) f = f := by rw [fairMoves, hacc]; rfl
        rw [hmoves, moved_of_unaccrued hs h hacc, Int.cast_zero, zero_add]
        obtain ⟨hset, hkept⟩ | ⟨-, haccrues, hkept⟩ := hsettles
        · rw [hone hset, hkept hacc, ite_self]
        · rw [haccrues, Bool.false_or, hkept]
      | some vw =>
        obtain ⟨v, w⟩ := vw
        obtain ⟨haccrues, hv, hvw⟩ := accrualAt_eq_some.1 hacc
        have hset : s'.SettledAt e r := by
          obtain ⟨hset, -⟩ | ⟨hnone, -⟩ := hsettles
          · exact hset
          · cases hacc.symm.trans hnone
        have hkept : s.keptAt e r = v.kept w := by
          refine State.keptAt_some hv ?_
          rw [← hvw]
          exact (ReserveVault.updateRate_sameAt (by rw [hs.keyed r v hv]; exact ht)).symm
        have hmoves : run (fairMoves r s t) f u =
            v.kept w * f u + t.call.moved r (· = u) e := by
          rw [fairMoves, hacc]
          show run (t.call.credits r t.env) (fun j => v.kept w * f j) u = _
          rw [run_credits, Call.moved_sameAt ht]
        rw [hone hset, haccrues, Bool.true_or, if_pos rfl, hkept, hmoves]
        ring

/-- **Ordering.**  Let the calls that take effect in two runs within one ledger be the same, in
    different orders.  Then every user's claim on `r` is the same at the end of both, up to one
    bToken for each deposit and withdrawal: nobody gains more by having the calls put in order. -/
theorem reordering_bounded (hs : Reachable (fun e => 0 < (e.bRate r).val) s)
    (hpos : 0 < (e.bRate r).val) (hts : ∀ t ∈ ts, e.SameAt r t.env)
    (hts' : ∀ t ∈ ts', e.SameAt r t.env)
    (hperm : (Revert.committed exec s ts).Perm (Revert.committed exec s ts')) (u : Address) :
    |(Revert.run exec s ts).claimAt r u - (Revert.run exec s ts').claimAt r u| ≤
      (Revert.committed exec s ts).countP (fun t => t.call.movesFor r u) +
        (Revert.committed exec s ts).countP fun t => t.call.movesForOther r u := by
  have hrates {ts : List (Tx Address)} (hts : ∀ t ∈ ts, e.SameAt r t.env) :
      ∀ t ∈ ts, 0 < (t.env.bRate r).val := by
    intro t ht
    rw [(hts t ht).2]
    exact hpos
  obtain ⟨hlow, hupp⟩ := run_tracks hs (hrates hts) u
  obtain ⟨hlow', hupp'⟩ := run_tracks hs (hrates hts') u
  have hfair : run (fairRun r s ts) (s.claimAt r) u = run (fairRun r s ts') (s.claimAt r) u := by
    rw [run_fairRun hs hpos hts, run_fairRun hs hpos hts', hperm.any_eq,
      (hperm.map _).sum_eq]
  rw [← hperm.countP_eq, ← hfair] at hlow' hupp'
  rw [abs_le]
  constructor <;> linarith

/-- A deposit, a change of the fee mode and a withdrawal that one ledger holds. -/
def Demo.sameLedgerTxs : List (Tx ℕ) :=
  [⟨env 50 (I128.ofUInt64 1300000000000) 5, .deposit 7 5 (I128.ofUInt64 33333333)⟩,
   ⟨env 50 (I128.ofUInt64 1300000000000) 0, .setFeeMode true (I128.ofUInt64 500000)⟩,
   ⟨env 50 (I128.ofUInt64 1300000000000) 4, .withdraw 7 4 (I128.ofUInt64 22222222)⟩]

omit [FixedPoint] [DecidableEq Address] in
/-- Three calls of one ledger on a reserve whose interest is pending, a change of the
    fee mode among them. -/
theorem one_ledger_demo : ∃ w', @Contract.getReserveVault ℕ FixedPoint.reference
    (Demo.env 50 (I128.ofUInt64 1300000000000) 3)
    (Revert.run (@exec ℕ _ FixedPoint.reference) Demo.state Demo.sameLedgerTxs) 7 = .ok w' ∧
      @OneLedger ℕ _ FixedPoint.reference 7 Demo.state Demo.sameLedgerTxs
        { Demo.vault with
          bRate := I128.ofUInt64 1300000000000
          lastUpdateTimestamp := 50
          totalBTokens := I128.ofUInt64 135398219
          accruedFees := I128.ofUInt64 1049598 } w' :=
  @one_ledger ℕ _ FixedPoint.reference _ _ _ _ _ (Demo.state_reachable.mono fun _ h => h 7)
    (by decide) (by decide) (by decide)

omit [FixedPoint] [DecidableEq Address] in
/-- The three calls in the opposite order. -/
theorem reordering_bounded_demo :
    |(Revert.run (@exec ℕ _ FixedPoint.reference) Demo.state Demo.sameLedgerTxs).claimAt 7 4 -
      (Revert.run (@exec ℕ _ FixedPoint.reference) Demo.state
        Demo.sameLedgerTxs.reverse).claimAt 7 4| ≤ (1 : ℕ) + (1 : ℕ) :=
  @reordering_bounded ℕ _ FixedPoint.reference (Demo.env 50 (I128.ofUInt64 1300000000000) 3)
    Demo.state Demo.sameLedgerTxs Demo.sameLedgerTxs.reverse 7
    (Demo.state_reachable.mono fun _ h => h 7) (by decide) (by decide) (by decide)
    (List.reverse_perm Demo.sameLedgerTxs).symm 4

end FeeVault
