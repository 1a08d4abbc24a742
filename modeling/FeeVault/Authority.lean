import FeeVault.Conservation

namespace FeeVault

/-!
# Who may change what

The contract has no access control but `require_auth`: the admin's on the admin's entry points, the
user's on a deposit and a withdrawal, and on `set_admin` that of the new admin as well.

* `exec_authorized` — a committed transaction was authorized by the address its call needs;
* `Confined P s s'` — all that changes from `s` to `s'` lies within the powers of the addresses `P`;
* `exec_confined` — one transaction that nobody outside `P` authorized is confined to `P`;
* `run_confined` — and so is a run of them: whoever takes no part keeps what is theirs.
-/

variable {Address : Type}

/-- The address whose authorization a call needs, besides that of the new admin in `set_admin`. -/
def Call.signer (admin : Address) : Call Address → Address
  | .deposit _ user _ => user
  | .withdraw _ user _ => user
  | _ => admin

namespace State

/-- The fees due in `r`, `0` without a vault. -/
def feesAt (s : State Address) (r : Address) : ℤ :=
  match s.vaultAt r with
  | some v => v.accruedFees
  | none => 0

/-- With a vault, the fees of a reserve are those it keeps. -/
theorem feesAt_some {s : State Address} {r : Address} {v : ReserveVault Address}
    (h : s.vaultAt r = some v) : s.feesAt r = v.accruedFees.val := by
  rw [feesAt, h]

end State

/-! ### The powers of a group of addresses -/

/-- What only the admin decides is the same in `s'` as in `s`, and no fees were taken out. -/
structure SameSettings (s s' : State Address) : Prop where
  admin : s'.storage.admin = s.storage.admin
  feeMode : s'.storage.feeMode = s.storage.feeMode
  reserves : s'.storage.getReserves = s.storage.getReserves
  vaults : ∀ r, s'.vaultAt r = none ↔ s.vaultAt r = none
  fees : ∀ r, s.feesAt r ≤ s'.feesAt r

/-- What may have changed from `s` to `s'` when only the addresses `P` authorized anything. -/
structure Confined (P : Set Address) (s s' : State Address) : Prop where
  /-- The contract stays with its Blend pool, whoever acts. -/
  pool : s'.storage.pool = s.storage.pool
  /-- Nobody else's shares move, in any reserve. -/
  shares : ∀ r, ∀ u ∉ P, s'.sharesAt r u = s.sharesAt r u
  /-- The settings are the admin's, … -/
  settings : s.storage.admin ∉ P → SameSettings s s'
  /-- … and nobody becomes admin without agreeing to it. -/
  admin : s'.storage.admin = s.storage.admin ∨ s'.storage.admin ∈ P
  /-- Only the admin can have the pool pay somebody who did not ask for it. -/
  payouts : ∃ ps, s'.pool.payouts = ps ++ s.pool.payouts ∧
    (s.storage.admin ∉ P → ∀ p ∈ ps, p.toAddr ∈ P)
  /-- No call is free to everybody. -/
  idle : P = ∅ → s' = s

section Preorder

variable {s s' s'' : State Address} {P : Set Address}

/-- Nothing changes the settings of a state left alone. -/
theorem SameSettings.refl (s : State Address) : SameSettings s s :=
  ⟨rfl, rfl, rfl, fun _ => Iff.rfl, fun _ => le_rfl⟩

/-- Settings kept twice are kept, which carries them along a run. -/
theorem SameSettings.trans (h : SameSettings s s') (h' : SameSettings s' s'') :
    SameSettings s s'' where
  admin := h'.admin.trans h.admin
  feeMode := h'.feeMode.trans h.feeMode
  reserves := h'.reserves.trans h.reserves
  vaults r := (h'.vaults r).trans (h.vaults r)
  fees r := (h.fees r).trans (h'.fees r)

/-- A state left alone is confined to any set of principals. -/
theorem Confined.refl (P : Set Address) (s : State Address) : Confined P s s where
  pool := rfl
  shares _ _ _ := rfl
  settings _ := .refl s
  admin := Or.inl rfl
  payouts := ⟨[], rfl, fun _ _ hp => absurd hp List.not_mem_nil⟩
  idle _ := rfl

/-- Confinement to the same addresses composes: an admin outside `P` is still the admin
    after the first part. -/
theorem Confined.trans (h : Confined P s s') (h' : Confined P s' s'') : Confined P s s'' where
  pool := h'.pool.trans h.pool
  shares r u hu := (h'.shares r u hu).trans (h.shares r u hu)
  settings hadmin := by
    have hsame := h.settings hadmin
    exact hsame.trans (h'.settings (hsame.admin ▸ hadmin))
  admin := by
    obtain hkept | hnew := h'.admin
    · rw [hkept]
      exact h.admin
    · exact Or.inr hnew
  payouts := by
    obtain ⟨ps, hps, hto⟩ := h.payouts
    obtain ⟨ps', hps', hto'⟩ := h'.payouts
    refine ⟨ps' ++ ps, by rw [hps', hps, List.append_assoc], ?_⟩
    intro hadmin p hp
    obtain hp | hp := List.mem_append.1 hp
    · exact hto' ((h.settings hadmin).admin ▸ hadmin) p hp
    · exact hto hadmin p hp
  idle hP := (h'.idle hP).trans (h.idle hP)

end Preorder

/-! ### One transaction -/

variable [FixedPoint] [DecidableEq Address]
variable {s s' : State Address} {t : Tx Address} {val : Value} {P : Set Address}

/-- **Authorization.**  What commits was authorized by the address its call needs, and a
    new admin has agreed. -/
theorem exec_authorized (h : exec s t = .ok (val, s')) :
    t.env.authorized (t.call.signer s.storage.admin) = true ∧
      ∀ admin, t.call = .setAdmin admin → t.env.authorized admin = true := by
  obtain ⟨e, call⟩ := t
  cases call with
  | setFeeMode isAprCapped value =>
    simp only [exec, map_eq_ok, Contract.setFeeMode, bind_eq_ok, requireAuth_eq_ok] at h
    obtain ⟨-, ⟨-, hauth, -⟩, -⟩ := h
    exact ⟨hauth, by simp⟩
  | setAdmin admin =>
    simp only [exec, map_eq_ok, Contract.setAdmin, bind_eq_ok, requireAuth_eq_ok] at h
    obtain ⟨-, ⟨-, hauth, -, hnew, -⟩, -⟩ := h
    refine ⟨hauth, ?_⟩
    rintro _ ⟨⟩
    exact hnew
  | addReserveVault r =>
    simp only [exec, map_eq_ok, Contract.addReserveVault, bind_eq_ok, requireAuth_eq_ok] at h
    obtain ⟨-, ⟨-, hauth, -⟩, -⟩ := h
    exact ⟨hauth, by simp⟩
  | claimEmissions ids toAddr =>
    simp only [exec, map_eq_ok, Contract.claimEmissions, bind_eq_ok, requireAuth_eq_ok] at h
    obtain ⟨-, ⟨-, hauth, -⟩, -⟩ := h
    exact ⟨hauth, by simp⟩
  | claimFees r toAddr =>
    simp only [exec, map_eq_ok, Contract.claimFees, bind_eq_ok, requireAuth_eq_ok] at h
    obtain ⟨-, ⟨-, hauth, -⟩, -⟩ := h
    exact ⟨hauth, by simp⟩
  | deposit r u a =>
    simp only [exec, map_eq_ok, Contract.deposit, bind_eq_ok, requireAuth_eq_ok] at h
    obtain ⟨-, ⟨-, hauth, -⟩, -⟩ := h
    exact ⟨hauth, by simp⟩
  | withdraw r u a =>
    simp only [exec, map_eq_ok, Contract.withdraw, bind_eq_ok, requireAuth_eq_ok] at h
    obtain ⟨-, ⟨-, hauth, -⟩, -⟩ := h
    exact ⟨hauth, by simp⟩

/-- Nothing changes the pool address, which the constructor sets, and only `set_admin`
    the admin. -/
theorem exec_admin (h : exec s t = .ok (val, s')) :
    s'.storage.pool = s.storage.pool ∧
      (s'.storage.admin = s.storage.admin ∨ t.call = .setAdmin s'.storage.admin) := by
  cases exec_committed h with
  | setFeeMode call _ accrued storage =>
    obtain ⟨f, hf⟩ := ReserveVault.foldlM_accrue_frame accrued
    rw [storage, hf]
    exact ⟨rfl, Or.inl rfl⟩
  | setAdmin call storage =>
    rw [storage]
    exact ⟨rfl, Or.inr call⟩
  | addReserveVault call _ storage | claimEmissions call storage =>
    rw [storage]
    exact ⟨rfl, Or.inl rfl⟩
  | claimFees call booked =>
    obtain ⟨w, -, -, -, -, storage⟩ := ReserveVault.claimFees_eq_ok booked
    rw [storage]
    exact ⟨rfl, Or.inl rfl⟩
  | deposit call _ _ booked =>
    obtain ⟨w, S, T, bal, -, -, -, -, -, -, -, -, storage⟩ := ReserveVault.deposit_eq_ok booked
    rw [storage]
    exact ⟨rfl, Or.inl rfl⟩
  | withdraw call _ _ booked =>
    obtain ⟨w, S, T, bal, -, -, -, -, -, -, -, -, -, -, storage⟩ :=
      ReserveVault.withdraw_eq_ok booked
    rw [storage]
    exact ⟨rfl, Or.inl rfl⟩

omit [FixedPoint] in
/-- A withdrawal from the pool is booked as one payout, whether or not it is covered. -/
theorem Pool.withdraw_payout {e : Env Address} {p p' : Pool Address} {r toAddr : Address}
    {a : I128} (h : p.withdraw e r toAddr a = .ok p') :
    ∃ paid, p'.payouts = ⟨r, toAddr, a, paid⟩ :: p.payouts := by
  simp only [withdraw] at h
  split at h
  · split at h <;> obtain rfl := Except.ok.inj h <;> exact ⟨_, rfl⟩
  · cases h

/-- The pool pays at most once a transaction: the user who withdraws, or whom the admin names. -/
theorem exec_payout (h : exec s t = .ok (val, s')) :
    s'.pool.payouts = s.pool.payouts ∨
      ∃ p, s'.pool.payouts = p :: s.pool.payouts ∧
        (t.call = .claimFees p.reserve p.toAddr ∨
          ∃ a, t.call = .withdraw p.reserve p.toAddr a) := by
  cases exec_committed h with
  | setFeeMode _ _ _ _ pool | setAdmin _ _ pool | addReserveVault _ _ _ pool
  | claimEmissions _ _ pool =>
    exact Or.inl (by rw [pool])
  | deposit _ _ _ _ pool =>
    left
    unfold Pool.supply at pool
    split at pool
    · rw [← Except.ok.inj pool]
    · cases pool
  | claimFees call _ pool =>
    obtain ⟨paid, hpaid⟩ := Pool.withdraw_payout pool
    exact Or.inr ⟨_, hpaid, Or.inl call⟩
  | withdraw call _ _ _ pool =>
    obtain ⟨paid, hpaid⟩ := Pool.withdraw_payout pool
    exact Or.inr ⟨_, hpaid, Or.inr ⟨_, call⟩⟩

/-- A call that its user signs leaves the vaults in place, and the fees due only grow. -/
theorem Effect.fees_le {r : Address} (h : Effect t r s s')
    (hclaim : ∀ toAddr, t.call ≠ .claimFees r toAddr) (hopen : t.call ≠ .addReserveVault r) :
    (s'.vaultAt r = none ↔ s.vaultAt r = none) ∧ s.feesAt r ≤ s'.feesAt r := by
  have haccrued {v w : ReserveVault Address} (present : s.vaultAt r = some v)
      (accrual : v.updateRate t.env s.storage.feeMode = .ok w) :
      s.feesAt r ≤ w.accruedFees.val := by
    obtain ⟨fee, hfee⟩ := ReserveVault.updateRate_accrual accrual
    rw [State.feesAt_some present, hfee.accruedFees]
    exact le_add_of_nonneg_right hfee.fee_nonneg
  cases h with
  | untouched _ _ vault =>
    rw [State.feesAt, State.feesAt, vault]
    exact ⟨Iff.rfl, le_rfl⟩
  | opened call => exact absurd call hopen
  | claimed call => exact absurd call (hclaim _)
  | accrued _ present accrual vault
  | deposited _ _ _ present accrual _ _ _ _ _ _ vault
  | withdrawn _ _ _ present accrual _ _ _ _ _ _ _ _ vault =>
    have hfees := haccrued present accrual
    rw [vault, present, State.feesAt_some vault]
    exact ⟨by simp, hfees⟩

/-- Only the user's own deposits and withdrawals move the user's shares: every other effect
    leaves the balance, and these are authorized. -/
theorem Effect.shares_own {r u : Address} (h : Effect t r s s')
    (hu : t.env.authorized u = false) : s'.sharesAt r u = s.sharesAt r u := by
  have hne {u' : Address} (auth : t.env.authorized u' = true) : u ≠ u' := by
    rintro rfl
    rw [hu] at auth
    cases auth
  cases h with
  | untouched _ _ _ shares | opened _ _ _ shares | accrued _ _ _ _ shares
  | claimed _ _ _ _ _ _ shares =>
    rw [shares]
  | deposited _ auth _ _ _ _ _ _ _ _ _ _ shares
  | withdrawn _ auth _ _ _ _ _ _ _ _ _ _ _ _ shares =>
    rw [shares, Function.update_of_ne (hne auth)]

/-- **Confinement step.**  A transaction does nothing beyond the powers of those who
    authorize it. -/
theorem exec_confined (hs : s.Keyed) (hP : ∀ u, t.env.authorized u = true → u ∈ P)
    (h : exec s t = .ok (val, s')) : Confined P s s' := by
  obtain ⟨hsigner, hnew⟩ := exec_authorized h
  obtain ⟨hpool, hadmin⟩ := exec_admin h
  -- an admin outside `P` has signed nothing, so the call is its user's
  have huser (hout : s.storage.admin ∉ P) : t.call.signer s.storage.admin ≠ s.storage.admin := by
    intro heq
    exact hout (hP _ (heq ▸ hsigner))
  exact {
    pool := hpool
    shares := fun r u hu =>
      (exec_effect hs h r).shares_own (Bool.eq_false_iff.2 fun hauth => hu (hP u hauth))
    settings := fun hout => by
      have hsigned := huser hout
      have hcall : (∀ isAprCapped value, t.call ≠ .setFeeMode isAprCapped value) ∧
          (∀ admin, t.call ≠ .setAdmin admin) ∧ (∀ r, t.call ≠ .addReserveVault r) ∧
          (∀ r toAddr, t.call ≠ .claimFees r toAddr) ∧ t.call.opens = [] := by
        cases hc : t.call with
        | deposit | withdraw => simp [Call.opens]
        | _ => exact absurd (by rw [hc]; rfl) hsigned
      obtain ⟨hfm, hset, hopen, hclaim, hopens⟩ := hcall
      have heffect (r : Address) := (exec_effect hs h r).fees_le (hclaim r) (hopen r)
      exact {
        admin := hadmin.resolve_right (hset _)
        feeMode := (exec_settings h).1.resolve_right fun ⟨_, _, hcall, _⟩ => hfm _ _ hcall
        reserves := by rw [(exec_settings h).2, hopens, List.append_nil]
        vaults := fun r => (heffect r).1
        fees := fun r => (heffect r).2 }
    admin := hadmin.imp_right fun hcall => hP _ (hnew _ hcall)
    payouts := by
      obtain hnone | ⟨p, hp, hcall⟩ := exec_payout h
      · exact ⟨[], hnone, fun _ _ hp => absurd hp List.not_mem_nil⟩
      · refine ⟨[p], hp, fun hout q hq => ?_⟩
        obtain rfl := List.mem_singleton.1 hq
        obtain hclaim | ⟨a, hwithdraw⟩ := hcall
        · exact absurd (by rw [hclaim]; rfl) (huser hout)
        · rw [hwithdraw] at hsigner
          exact hP _ hsigner
    idle := fun hP' => absurd (hP _ hsigner) (hP' ▸ Set.notMem_empty _) }

/-! ### Over runs -/

/-- **Confinement.**  Take any reachable state, whatever the pool's rates were, and any run that
    nobody outside `P` authorizes a transaction of.  Users outside `P` keep their shares in every
    reserve and are paid nothing without the admin, an admin outside `P` stays admin over the same
    settings and reserves and loses no fees, and without anybody in `P` nothing happens. -/
theorem run_confined {ts : List (Tx Address)} (hs : Reachable (fun _ => True) s)
    (hts : ∀ t ∈ ts, ∀ u, t.env.authorized u = true → u ∈ P) :
    Confined P s (Revert.run exec s ts) := by
  have hrun : Reachable (fun _ => True) (Revert.run exec s ts) ∧
      Confined P s (Revert.run exec s ts) := by
    refine Revert.run_invariant (I := fun s' => Reachable (fun _ => True) s' ∧ Confined P s s')
      (P := fun _ (t : Tx Address) => ∀ u, t.env.authorized u = true → u ∈ P) ?_
      ⟨hs, .refl P s⟩ (Revert.along_of_forall hts)
    rintro s₁ t val s₂ ⟨hr, hconf⟩ ht h
    exact ⟨Revert.step_ok h ▸ Revert.Reachable.step hr trivial,
      hconf.trans (exec_confined hr.keyed ht h)⟩
  exact hrun.2

omit [FixedPoint] in
/-- A deposit and a withdrawal that the users `3` and `4` authorize leave the admin `0` in place. -/
theorem run_confined_demo : Confined {3, 4} Demo.state
    (Revert.run (@exec ℕ _ FixedPoint.reference) Demo.state
      [⟨Demo.env 50 (I128.ofUInt64 1300000000000) 3, .deposit 7 3 (I128.ofUInt64 33333333)⟩,
       ⟨Demo.env 60 (I128.ofUInt64 1300000000000) 4, .withdraw 7 4 (I128.ofUInt64 22222222)⟩]) := by
  refine @run_confined ℕ FixedPoint.reference _ _ _ _
    (Demo.state_reachable.mono fun _ _ => trivial) ?_
  intro t ht u hu
  simp only [List.mem_cons, List.not_mem_nil, or_false] at ht
  obtain rfl | rfl := ht
  · exact Or.inl (beq_iff_eq.1 hu)
  · exact Or.inr (beq_iff_eq.1 hu)

end FeeVault
