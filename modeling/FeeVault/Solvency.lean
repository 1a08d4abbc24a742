import FeeVault.Soundness

namespace FeeVault

/-!
# Solvency against the pool

What a reserve owes — the depositors' bTokens and the admin's fees — never exceeds the vault's
position with the pool, so the pool never pays the vault short:

* `State.surplusAt` — position less what is owed;
* `Effect.surplus` — no committed transaction lowers it, and only a fee claim below a rate of one
  raises it, because fees leave as a floor of underlying that the pool takes back as a ceiling of
  bTokens;
* `exec_payouts` — while nothing is owed beyond the position, the pool pays in full.
-/

variable {Address : Type} [FixedPoint]

/-! ### Requests the bookkeeping covers -/

namespace ReserveVault

variable {v w : ReserveVault Address} {e : Env Address} {fm : FeeMode} {a x : I128}

/-- What the vault owes in bTokens, to depositors and admin together. -/
def owed (v : ReserveVault Address) : ℤ := v.totalBTokens + v.accruedFees

/-- Accrual only moves bTokens from one creditor to the other. -/
theorem updateRate_owed (h : v.updateRate e fm = .ok w) : w.owed = v.owed := by
  obtain ⟨fee, hfee⟩ := updateRate_accrual h
  have hT := hfee.totalBTokens
  have hF := hfee.accruedFees
  unfold owed
  omega

/-- Fees leave as whole units of underlying, never worth more bTokens than were owed. -/
theorem Sound.claim_covered (h : w.Sound) (ha : w.bTokensToUnderlyingDown w.accruedFees = .ok a) :
    MulDiv.ceil a scalar12 w.bRate ≤ w.accruedFees := by
  rw [(bTokensToUnderlyingDown_eq_ok.1 ha).2]
  exact MulDiv.ceil_floor_le scalar12_pos h.rate_pos

/-- From a rate of one on, they take exactly the bTokens owed. -/
theorem claim_exact (ha : w.bTokensToUnderlyingDown w.accruedFees = .ok a)
    (hrate : scalar12.val ≤ w.bRate) : MulDiv.ceil a scalar12 w.bRate = w.accruedFees := by
  rw [(bTokensToUnderlyingDown_eq_ok.1 ha).2]
  exact MulDiv.ceil_floor_eq scalar12_pos hrate

end ReserveVault

/-! ### The surplus of a reserve -/

variable [DecidableEq Address]
variable {s s' : State Address} {t : Tx Address} {r : Address} {val : Value}

namespace State

/-- What the vault of `r` owes, `0` without a vault. -/
def owedAt (s : State Address) (r : Address) : ℤ :=
  match s.vaultAt r with
  | some v => v.owed
  | none => 0

/-- The position with the pool less what is owed. -/
def surplusAt (s : State Address) (r : Address) : ℤ := s.positionAt r - s.owedAt r

omit [FixedPoint] [DecidableEq Address] in
/-- With a vault, what is owed in a reserve is what the vault owes. -/
theorem owedAt_some {v : ReserveVault Address} (h : s.vaultAt r = some v) :
    s.owedAt r = v.owed := by
  rw [owedAt, h]

end State

omit [FixedPoint] [DecidableEq Address] in
/-- A withdrawal whose request the position covers takes the ceiling. -/
theorem debited_of_le {held toBurn : ℤ} (h : toBurn ≤ held) : debited held toBurn = held - toBurn :=
  if_pos h

/-- **Solvency step.**  Nothing lowers the surplus, and only a fee claim below a rate of one
    leaves dust in it. -/
theorem Effect.surplus (h : Effect t r s s') (hs : s.SoundAt r)
    (hkey : ∀ v, s.vaultAt r = some v → v.address = r) (hrate : 0 < (t.env.bRate r).val)
    (h0 : 0 ≤ s.surplusAt r) :
    s.surplusAt r ≤ s'.surplusAt r ∧
      ((∀ toAddr, t.call = .claimFees r toAddr → scalar12.val ≤ t.env.bRate r) →
        s'.surplusAt r = s.surplusAt r) := by
  -- accrual does not change what is owed
  have howed {v w : ReserveVault Address} (present : s.vaultAt r = some v)
      (accrual : v.updateRate t.env s.storage.feeMode = .ok w) : s.owedAt r = w.owed := by
    rw [State.owedAt_some present, ReserveVault.updateRate_owed accrual]
  have of_eq (heq : s'.surplusAt r = s.surplusAt r) : s.surplusAt r ≤ s'.surplusAt r ∧
      ((∀ toAddr, t.call = .claimFees r toAddr → scalar12.val ≤ t.env.bRate r) →
        s'.surplusAt r = s.surplusAt r) := ⟨heq.ge, fun _ => heq⟩
  unfold State.surplusAt at *
  cases h with
  | untouched _ _ vault _ position =>
    exact of_eq (by rw [position, State.owedAt, vault, State.owedAt])
  | opened _ absent vault _ position =>
    refine of_eq ?_
    rw [position, State.owedAt_some vault, State.owedAt, absent]
    rfl
  | accrued _ present accrual vault _ position =>
    exact of_eq (by rw [position, State.owedAt_some vault, howed present accrual])
  | deposited _ _ _ present accrual bTokens _ _ _ _ totalBTokens vault _ position =>
    obtain ⟨hw, hb⟩ := hs.accrued hkey hrate present accrual
    have hx := ((ReserveVault.underlyingToBTokensDown_eq_ok hw.rate_pos).1 bTokens).2
    refine of_eq ?_
    rw [position, State.owedAt_some vault, howed present accrual, ← hb, ← hx]
    simp only [ReserveVault.owed, totalBTokens]
    ring
  | withdrawn _ _ _ present accrual bTokens _ _ _ bTokens_le_total _ _ totalBTokens vault _
      position =>
    obtain ⟨hw, hb⟩ := hs.accrued hkey hrate present accrual
    have hx := ((ReserveVault.underlyingToBTokensUp_eq_ok hw.rate_pos).1 bTokens).2
    have hF := hw.fees_nonneg
    rw [howed present accrual, ReserveVault.owed] at h0
    refine of_eq ?_
    rw [position, State.owedAt_some vault, howed present accrual, ← hb, ← hx,
      debited_of_le (by omega)]
    simp only [ReserveVault.owed, totalBTokens]
    ring
  | claimed call present accrual _ underlying vault _ position =>
    -- floor to underlying here, ceiling back to bTokens in the pool
    obtain ⟨hw, hb⟩ := hs.accrued hkey hrate present accrual
    have hburn := hw.claim_covered underlying
    have hT := hw.bTokens_nonneg
    rw [howed present accrual, ReserveVault.owed] at h0 ⊢
    rw [position, State.owedAt_some vault, ← hb, debited_of_le (by omega)]
    simp only [ReserveVault.owed, I128.val_zero]
    refine ⟨by omega, ?_⟩
    intro hclaims
    rw [ReserveVault.claim_exact underlying (hclaims _ call)]
    ring

/-! ### The pool pays in full -/

section Payouts

variable {e : Env Address} {u : Address} {a x m : I128} {st : Storage Address}

omit [FixedPoint] in
/-- A request beyond the position is paid short. -/
theorem Pool.withdraw_short {p p' : Pool Address} (h : p.withdraw e r u a = .ok p')
    (hrate : 0 < (e.bRate r).val)
    (hshort : p.bTokens r < MulDiv.ceil a scalar12 (e.bRate r)) :
    ∃ paid, paid < a.val ∧ p'.payouts = ⟨r, u, a, paid⟩ :: p.payouts := by
  simp only [withdraw, if_neg (not_le.2 hshort)] at h
  split at h
  · obtain rfl := Except.ok.inj h
    refine ⟨_, ?_, rfl⟩
    rw [MulDiv.floor_lt_iff scalar12_pos]
    exact (MulDiv.lt_ceil_iff hrate).1 hshort
  · cases h

omit [FixedPoint] in
/-- A request within the position is paid as asked. -/
theorem Pool.withdraw_payouts {p p' : Pool Address} (h : p.withdraw e r u a = .ok p')
    (hcover : MulDiv.ceil a scalar12 (e.bRate r) ≤ p.bTokens r) :
    p'.payouts = ⟨r, u, a, a⟩ :: p.payouts := by
  simp only [withdraw, if_pos hcover] at h
  split at h
  · exact Except.ok.inj h ▸ rfl
  · cases h

omit [FixedPoint] in
/-- A deposit pays nobody. -/
theorem Pool.supply_payouts {p p' : Pool Address} (h : p.supply e r a = .ok p') :
    p'.payouts = p.payouts := by
  unfold supply at h
  split at h
  · exact Except.ok.inj h ▸ rfl
  · cases h

/-- What the bookkeeping lets a user withdraw is owed by the vault. -/
theorem withdraw_covered (hs : s.SoundAt r) (hkeyed : s.Keyed) (hrate : 0 < (e.bRate r).val)
    (h : ReserveVault.withdraw e s.storage r u a = .ok ((x, m), st)) :
    MulDiv.ceil a scalar12 (e.bRate r) ≤ s.owedAt r := by
  obtain ⟨w, S, T, bal, hw, hx, -, -, -, hxT, -⟩ := ReserveVault.withdraw_eq_ok h
  obtain ⟨hsound, hb, -⟩ := hs.updated hkeyed hrate hw
  obtain ⟨v, hv, hvw⟩ := ReserveVault.getReserveVaultUpdated_eq_ok.1 hw
  have hF := hsound.fees_nonneg
  rw [State.owedAt_some hv, ← ReserveVault.updateRate_owed hvw, ReserveVault.owed, ← hb,
    ← ((ReserveVault.underlyingToBTokensUp_eq_ok hsound.rate_pos).1 hx).2]
  omega

/-- What the bookkeeping lets the admin claim is owed by the vault. -/
theorem claimFees_covered (hs : s.SoundAt r) (hkeyed : s.Keyed) (hrate : 0 < (e.bRate r).val)
    (h : ReserveVault.claimFees e s.storage r = .ok ((x, a), st)) :
    MulDiv.ceil a scalar12 (e.bRate r) ≤ s.owedAt r := by
  obtain ⟨w, hw, -, -, ha, -⟩ := ReserveVault.claimFees_eq_ok h
  obtain ⟨hsound, hb, -⟩ := hs.updated hkeyed hrate hw
  obtain ⟨v, hv, hvw⟩ := ReserveVault.getReserveVaultUpdated_eq_ok.1 hw
  have hT := hsound.bTokens_nonneg
  have hburn := hsound.claim_covered ha
  rw [State.owedAt_some hv, ← ReserveVault.updateRate_owed hvw, ReserveVault.owed, ← hb]
  omega

/-- **Payouts.**  While every position covers what is owed, what the pool newly pays it
    pays in full. -/
theorem exec_payouts (hs : ∀ r, s.SoundAt r) (hkeyed : s.Keyed) (hrate : t.env.PositiveRates)
    (h0 : ∀ r, 0 ≤ s.surplusAt r) (h : exec s t = .ok (val, s')) :
    ∀ p ∈ s'.pool.payouts, p ∈ s.pool.payouts ∨ p.paid = p.requested := by
  have of_withdraw {r u : Address} {a : I128} (hp : s.pool.withdraw t.env r u a = .ok s'.pool)
      (hcover : MulDiv.ceil a scalar12 (t.env.bRate r) ≤ s.owedAt r) :
      ∀ p ∈ s'.pool.payouts, p ∈ s.pool.payouts ∨ p.paid = p.requested := by
    have hsurplus := h0 r
    rw [State.surplusAt, State.positionAt] at hsurplus
    rw [Pool.withdraw_payouts hp (by omega)]
    intro p hmem
    obtain rfl | hmem := List.mem_cons.1 hmem
    · exact Or.inr rfl
    · exact Or.inl hmem
  cases exec_committed h with
  | setFeeMode _ _ _ _ pool | setAdmin _ _ pool | addReserveVault _ _ _ pool
  | claimEmissions _ _ pool =>
    rw [pool]
    intro p hp
    exact Or.inl hp
  | claimFees _ booked pool =>
    exact of_withdraw pool (claimFees_covered (hs _) hkeyed (hrate _) booked)
  | deposit _ _ _ _ pool =>
    rw [Pool.supply_payouts pool]
    intro p hp
    exact Or.inl hp
  | withdraw _ _ _ booked pool =>
    exact of_withdraw pool (withdraw_covered (hs _) hkeyed (hrate _) booked)

end Payouts

/-! ### Over runs -/

/-- The pool owes the vault at least what the vault owes. -/
structure Solvent (s : State Address) : Prop where
  covered : ∀ r v, s.storage.resVault r = some v →
    v.totalBTokens.val + v.accruedFees.val ≤ s.pool.bTokens r
  /-- The pool's short payment was never taken. -/
  paid_in_full : ∀ p ∈ s.pool.payouts, p.paid = p.requested

/-- The position in a reserve covers what is owed there as long as the rate of that reserve is
    positive, whatever the rates of the others are. -/
theorem Reachable.surplusAt_nonneg (hs : Reachable (fun e => 0 < (e.bRate r).val) s) :
    0 ≤ s.surplusAt r := by
  refine Revert.Reachable.invariant (I := fun s => 0 ≤ s.surplusAt r) ?_ ?_ hs
  · intro s hs
    obtain ⟨hvault, -, hposition, -⟩ := hs.empty
    rw [State.surplusAt, State.owedAt, hvault r, hposition r]
    rfl
  · intro s t val s' hr h0 ht h
    have hr : Reachable (fun e => 0 < (e.bRate r).val) s := hr
    exact le_trans h0 ((exec_effect hr.keyed h r).surplus
      (hr.soundAt fun _ he => he) (hr.keyed r) ht h0).1

/-- Whatever the rate, the position covers what is owed. -/
theorem Reachable.surplus_nonneg (hs : Reachable Env.PositiveRates s) (r : Address) :
    0 ≤ s.surplusAt r :=
  Reachable.surplusAt_nonneg (hs.mono fun _ h => h r)

/-- **Solvency**, put together from the invariants: the surplus is never negative, a withdrawal
    and a fee claim ask for no more than is owed, and what is covered is paid in full. -/
theorem Reachable.solvent (hs : Reachable Env.PositiveRates s) : Solvent s where
  covered r v hv := by
    have h := hs.surplus_nonneg r
    rw [State.surplusAt, State.owedAt_some hv, ReserveVault.owed, State.positionAt] at h
    omega
  paid_in_full := by
    refine Revert.Reachable.invariant
      (I := fun s => ∀ p ∈ s.pool.payouts, p.paid = p.requested) ?_ ?_ hs
    · intro s hs p hp
      rw [hs.empty.2.2.2.1] at hp
      cases hp
    · intro s t val s' hr hI ht h p hp
      have hr : Reachable Env.PositiveRates s := hr
      exact (exec_payouts (fun r => hr.soundAt fun _ he => he r) hr.keyed ht hr.surplus_nonneg h
        p hp).elim (hI p) id

/-- **Solvency.**  After any run from deployment at positive rates, each reserve's position
    covers what its vault owes and no payment was short; and the two are equal when the rate was
    at least one at every committed fee claim of the reserve.  A prefix of a run is a run, so
    this holds after every step. -/
theorem run_solvent {s₀ : State Address} {ts : List (Tx Address)} (hs₀ : Deployed s₀)
    (hts : ∀ t ∈ ts, t.env.PositiveRates) :
    Solvent (Revert.run exec s₀ ts) ∧
      ∀ r, Revert.Along exec (fun s t => ∀ toAddr val s', t.call = .claimFees r toAddr →
          exec s t = .ok (val, s') → scalar12.val ≤ t.env.bRate r) s₀ ts →
        ∀ v, (Revert.run exec s₀ ts).storage.resVault r = some v →
          v.totalBTokens.val + v.accruedFees.val = (Revert.run exec s₀ ts).pool.bTokens r := by
  have hinit : Reachable Env.PositiveRates s₀ := .init hs₀
  refine ⟨Reachable.solvent (hinit.run hts), ?_⟩
  intro r hclaims v hv
  have hexact : (Reachable Env.PositiveRates (Revert.run exec s₀ ts)) ∧
      (Revert.run exec s₀ ts).surplusAt r = 0 := by
    refine Revert.run_invariant
      (I := fun s => Reachable Env.PositiveRates s ∧ s.surplusAt r = 0) ?_ ⟨hinit, ?_⟩
      ((Revert.along_of_forall hts).and hclaims)
    · rintro s t val s' ⟨hr, h0⟩ ⟨ht, hclaim⟩ h
      have hr' : Reachable Env.PositiveRates s' := Revert.step_ok h ▸ hr.step ht
      exact ⟨hr', ((exec_effect hr.keyed h r).surplus (hr.soundAt fun _ he => he r) (hr.keyed r)
        (ht r) h0.ge).2 (fun toAddr hcall => hclaim toAddr val s' hcall h) |>.trans h0⟩
    · obtain ⟨hvault, -, hposition, -⟩ := hs₀.empty
      rw [State.surplusAt, State.owedAt, hvault r, hposition r]
      rfl
  have h := hexact.2
  rw [State.surplusAt, State.owedAt_some hv, ReserveVault.owed, State.positionAt] at h
  omega

omit [FixedPoint] in
/-- The concrete run, its fee claim at a rate of 1.2 included, stays exactly covered. -/
theorem solvent_demo : Solvent Demo.state ∧ ∀ v, Demo.state.storage.resVault 7 = some v →
    v.totalBTokens.val + v.accruedFees.val = Demo.state.pool.bTokens 7 := by
  obtain ⟨hsolvent, hexact⟩ :=
    @run_solvent ℕ FixedPoint.reference _ _ _ Demo.deployed_deployed Demo.txs_positiveRates
  refine ⟨hsolvent, hexact 7 ?_⟩
  exact (Revert.along_of_forall (A := fun t => scalar12.val ≤ t.env.bRate 7)
    fun t ht => Demo.txs_rates t ht 7).mono fun _ _ h _ _ _ _ _ => h

end FeeVault
