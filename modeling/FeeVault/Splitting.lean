import FeeVault.Withdrawable

namespace FeeVault

open Outcome

/-!
# Splitting an operation

Within one ledger the bTokens of the pieces of a deposit add up to no more, and those of the pieces
of a withdrawal to no less, than the bTokens of the whole.  The pieces move the accrued vault like
`SharePool.Deposits` and `SharePool.Withdrawals`, of which the library shows that splitting never
pays; so all that is left here is that the whole succeeds where the pieces do, short of a trap.

* `forEach_deposit` / `forEach_withdraw` — the pieces, on the share pool of the accrued vault;
* `deposit_trapsOnly` / `withdraw_trapsOnly` — the checks that the whole passes;
* `splitting_never_pays` — the two together.
-/

variable {Address : Type}

/-- One call after another for the amounts listed, all of which have to succeed; returns
    what each of them does. -/
def forEach (call : State Address → I128 → Except Failure (I128 × State Address)) :
    State Address → List I128 → Except Failure (List I128 × State Address)
  | s, [] => pure ([], s)
  | s, a :: as => do
    let (y, s) ← call s a
    let (ys, s) ← forEach call s as
    pure (y :: ys, s)

/-- The sum of a list of amounts. -/
def total (as : List I128) : ℤ := (as.map I128.val).sum

@[simp] theorem total_nil : total [] = 0 := rfl

@[simp] theorem total_cons (a : I128) (as : List I128) : total (a :: as) = a + total as :=
  List.sum_cons

/-- Inversion: the calls all go through when the first does and the others do from where
    it ends. -/
theorem forEach_cons_eq_ok {call : State Address → I128 → Except Failure (I128 × State Address)}
    {s s' : State Address} {a : I128} {as ys : List I128}
    (h : forEach call s (a :: as) = .ok (ys, s')) :
    ∃ y s₁ ys₁, call s a = .ok (y, s₁) ∧ forEach call s₁ as = .ok (ys₁, s') ∧ ys = y :: ys₁ := by
  simp only [forEach, bind_eq_ok, pure_eq_ok] at h
  obtain ⟨⟨y, s₁⟩, h₁, ⟨ys₁, s₂⟩, h₂, h⟩ := h
  simp only [Except.ok.injEq, Prod.mk.injEq] at h
  obtain ⟨rfl, rfl⟩ := h
  exact ⟨y, s₁, ys₁, h₁, h₂, rfl⟩

/-- Amounts that only succeed when positive do not add up to less than nothing. -/
theorem forEach_total_nonneg {call : State Address → I128 → Except Failure (I128 × State Address)}
    {s s' : State Address} {as ys : List I128}
    (hcall : ∀ s a y s', call s a = .ok (y, s') → 0 < a.val)
    (h : forEach call s as = .ok (ys, s')) : 0 ≤ total as := by
  induction as generalizing s ys with
  | nil => exact le_rfl
  | cons a as ih =>
    obtain ⟨y, s₁, ys₁, h₁, hrest, -⟩ := forEach_cons_eq_ok h
    exact add_nonneg (hcall _ _ _ _ h₁).le (ih hrest)

variable [FixedPoint] [DecidableEq Address]

variable {e : Env Address} {s s' : State Address} {r u : Address} {a y : I128}
  {as ys : List I128} {w : ReserveVault Address}

/-! ### The pieces -/

/-- The bTokens of the pieces of a deposit. -/
def suppliedBTokens (e : Env Address) (r : Address) (as : List I128) : List ℤ :=
  (as.map I128.val).map fun a => MulDiv.floor a scalar12 (e.bRate r)

/-- The bTokens of the pieces of a withdrawal. -/
def withdrawnBTokens (e : Env Address) (r : Address) (as : List I128) : List ℤ :=
  (as.map I128.val).map fun a => MulDiv.ceil a scalar12 (e.bRate r)

/-- **Deposits in pieces** are deposits of the share pool: only the first accrues, and each finds
    the pool the one before has left. -/
theorem forEach_deposit (hs : Reachable (fun e => 0 < (e.bRate r).val) s)
    (hrate : 0 < (e.bRate r).val) (hsound : w.Sound)
    (hw : ReserveVault.getReserveVaultUpdated e s.storage r = .ok w)
    (h : forEach (fun s a => Contract.deposit e s r u a) s as = .ok (ys, s')) :
    ∃ q, hsound.pool.Deposits (suppliedBTokens e r as) q ∧
      q.shares = w.totalShares.val + total ys := by
  induction as generalizing s w ys with
  | nil =>
    obtain ⟨rfl, rfl⟩ := Prod.mk.inj (Except.ok.inj h)
    exact ⟨_, .nil _, (add_zero _).symm⟩
  | cons a as ih =>
    obtain ⟨y, s₁, ys₁, h₁, hrest, rfl⟩ := forEach_cons_eq_ok h
    obtain ⟨w', x, S, T, hw', hx, hx0, hm, hS, hT, -, hw₁, -⟩ := deposit_updated hs.keyed h₁
    obtain rfl : w = w' := Except.ok.inj (hw.symm.trans hw')
    obtain ⟨-, hb, -⟩ := (hs.soundAt fun _ he => he).updated hs.keyed hrate hw
    have hxval := ((ReserveVault.underlyingToBTokensDown_eq_ok hsound.rate_pos).1 hx).2
    have hsound₁ := hsound.deposit hx0.le hm hS hT
    have hpool : hsound₁.pool = hsound.pool.deposit x hx0.le :=
      hsound.pool_deposit hx0.le hm hS hT
    obtain ⟨q, hq, hshares⟩ := ih (hs.deposit hrate h₁) hsound₁ hw₁ hrest
    rw [hpool] at hq
    refine ⟨q, ?_, ?_⟩
    · rw [suppliedBTokens, List.map_cons, List.map_cons, ← hb, ← hxval, hb]
      exact .cons hx0.le hq
    · rw [hshares, total_cons, ← add_assoc, ← hS]

/-- **Withdrawals in pieces** are withdrawals of the share pool, paid for by the user. -/
theorem forEach_withdraw (hs : Reachable (fun e => 0 < (e.bRate r).val) s)
    (hrate : 0 < (e.bRate r).val) (hsound : w.Sound)
    (hw : ReserveVault.getReserveVaultUpdated e s.storage r = .ok w)
    (h : forEach (fun s a => Contract.withdraw e s r u a) s as = .ok (ys, s')) :
    (∃ q, hsound.pool.Withdrawals (withdrawnBTokens e r as) q ∧
      q.shares = w.totalShares.val - total ys) ∧ total ys ≤ s.sharesAt r u := by
  induction as generalizing s w ys with
  | nil =>
    obtain ⟨rfl, rfl⟩ := Prod.mk.inj (Except.ok.inj h)
    exact ⟨⟨_, .nil _, (sub_zero _).symm⟩, (hs.conserved r).nonneg u⟩
  | cons a as ih =>
    obtain ⟨y, s₁, ys₁, h₁, hrest, rfl⟩ := forEach_cons_eq_ok h
    obtain ⟨w', x, S, T, hw', hx, hm, hxT, -, hS, hT, -, hw₁, hshares₁⟩ :=
      withdraw_updated hs.keyed h₁
    obtain rfl : w = w' := Except.ok.inj (hw.symm.trans hw')
    obtain ⟨-, hb, -⟩ := (hs.soundAt fun _ he => he).updated hs.keyed hrate hw
    have hxval := ((ReserveVault.underlyingToBTokensUp_eq_ok hsound.rate_pos).1 hx).2
    have hxT' : x.val ≤ hsound.pool.assets := hxT
    have hsound₁ := hsound.withdraw hxT hm hS hT
    have hpool : hsound₁.pool = hsound.pool.withdraw x hxT' :=
      hsound.pool_withdraw hxT hxT' hm hS hT
    obtain ⟨⟨q, hq, hshares⟩, hle⟩ := ih (hs.withdraw hrate h₁) hsound₁ hw₁ hrest
    rw [hpool] at hq
    refine ⟨⟨q, ?_, ?_⟩, ?_⟩
    · rw [withdrawnBTokens, List.map_cons, List.map_cons, ← hb, ← hxval, hb]
      exact .cons hxT' hq
    · rw [hshares, total_cons, ← sub_sub, ← hS]
    · rw [total_cons]
      omega

/-! ### The whole -/

/-- A deposit worth a bToken can only trap. -/
theorem deposit_trapsOnly (hs : s.SoundAt r) (hkeyed : s.Keyed) (hrate : 0 < (e.bRate r).val)
    (hauth : e.authorized u = true) (hpool : e.poolAccepts = true)
    (hv : ∃ v, s.vaultAt r = some v) (ha : 0 < a.val)
    (hx : 0 < MulDiv.floor a scalar12 (e.bRate r)) :
    FailsOnly (· = .arithmetic) (Contract.deposit e s r u a) :=
  Contract.deposit_failsOnly (.inl hv) (.inl hpool) (.inl hauth) (.inl ha) fun _ =>
    deposit_booked_failsOnly hs hkeyed hrate rfl (.inl hv) (.inl hx)

/-- A withdrawal that the user's shares pay for can only trap: the pool's totals suffice where
    the user's shares do. -/
theorem withdraw_trapsOnly (hs : s.SoundAt r) (hc : s.Conserved r) (hkeyed : s.Keyed)
    (hrate : 0 < (e.bRate r).val) (hauth : e.authorized u = true) (hpool : e.poolAccepts = true)
    (hw : ReserveVault.getReserveVaultUpdated e s.storage r = .ok w) (ha : 0 < a.val)
    (hbal : ∀ x m, w.underlyingToBTokensUp a = .ok x → w.bTokensToSharesUp x = .ok m →
      m.val ≤ s.sharesAt r u) :
    FailsOnly (· = .arithmetic) (Contract.withdraw e s r u a) := by
  obtain ⟨v, hv, -⟩ := ReserveVault.getReserveVaultUpdated_eq_ok.1 hw
  refine Contract.withdraw_failsOnly (.inl ⟨v, hv⟩) (.inl hpool) (.inl hauth) (.inl ha) ?_
  intro ha
  by_cases hconv : ∃ x m, w.underlyingToBTokensUp a = .ok x ∧ w.bTokensToSharesUp x = .ok m
  · obtain ⟨x, m, hx, hm⟩ := hconv
    obtain ⟨res, hres⟩ := withdraw_booked hs hc hkeyed hrate ha hw hx hm (hbal x m hx hm)
    exact .of_eq_ok hres
  · -- one of the two conversions trapped
    rw [ReserveVault.withdraw, hw, ok_bind]
    refine .bind (failsOnly_unwrap (P := (· = .arithmetic)) rfl _) ?_
    intro x hx
    refine .bind (ReserveVault.bTokensToSharesUp_failsOnly rfl) ?_
    intro m hm
    exact absurd ⟨x, m, hx, hm⟩ hconv

/-! ### Splitting -/

section Split

variable {sum : I128} (hs : Reachable (fun e => 0 < (e.bRate r).val) s)
  (hrate : 0 < (e.bRate r).val) (hsum : sum.val = total (a :: as))
include hs hrate hsum

/-- Some deposits against one of their sum: where the pieces go through, the whole does or traps,
    and it mints no fewer shares. -/
theorem deposit_split
    (hpieces : forEach (fun s a => Contract.deposit e s r u a) s (a :: as) = .ok (ys, s'))
    (htrap : Contract.deposit e s r u sum ≠ .error .arithmetic) :
    ∃ y s₁, Contract.deposit e s r u sum = .ok (y, s₁) ∧ total ys ≤ y := by
  have hsoundAt := hs.soundAt fun _ he => he
  obtain ⟨y₁, s₁, ys₁, h₁, hrest, -⟩ := forEach_cons_eq_ok hpieces
  obtain ⟨-, hauth, ha, hp, -⟩ := Contract.deposit_eq_ok h₁
  obtain ⟨w, x₁, -, -, hw, hx₁, hx₁0, -⟩ := deposit_updated hs.keyed h₁
  obtain ⟨hsound, hb, -⟩ := hsoundAt.updated hs.keyed hrate hw
  have htotal := forEach_total_nonneg
    (fun _ _ _ _ h => (Contract.deposit_eq_ok h).elim fun _ hx => hx.2.1) hrest
  have hle : a.val ≤ sum := by rw [hsum, total_cons]; omega
  -- the whole is worth a bToken because its first piece is
  have hx0 : 0 < MulDiv.floor sum scalar12 (e.bRate r) := by
    rw [((ReserveVault.underlyingToBTokensDown_eq_ok hsound.rate_pos).1 hx₁).2, hb] at hx₁0
    exact hx₁0.trans_le (MulDiv.floor_mono scalar12_pos.le hrate hle)
  obtain ⟨v, hv, -⟩ := ReserveVault.getReserveVaultUpdated_eq_ok.1 hw
  obtain ⟨⟨y, s₂⟩, h⟩ := (deposit_trapsOnly hsoundAt hs.keyed hrate hauth
    (Pool.supply_accepted hp) ⟨v, hv⟩ (ha.trans_le hle) hx0).isOk htrap
  refine ⟨y, s₂, h, ?_⟩
  obtain ⟨w', x, -, -, hw', hx, -, hm, -⟩ := deposit_updated hs.keyed h
  obtain rfl : w = w' := Except.ok.inj (hw.symm.trans hw')
  obtain ⟨q, hq, hshares⟩ := forEach_deposit hs hrate hsound hw hpieces
  have hxs : (suppliedBTokens e r (a :: as)).sum ≤ x.val := by
    rw [((ReserveVault.underlyingToBTokensDown_eq_ok hsound.rate_pos).1 hx).2, hb, hsum]
    exact MulDiv.sum_floor_le hrate _
  have hpool := hq.shares_le
  have hmono := hsound.pool.minted_mono hxs
  rw [hshares, hsound.pool_shares] at hpool
  rw [hsound.minted hm]
  omega

/-- Some withdrawals against one of their sum: where the pieces go through, the whole does or
    traps, and it burns no more shares. -/
theorem withdraw_split
    (hpieces : forEach (fun s a => Contract.withdraw e s r u a) s (a :: as) = .ok (ys, s'))
    (htrap : Contract.withdraw e s r u sum ≠ .error .arithmetic) :
    ∃ y s₁, Contract.withdraw e s r u sum = .ok (y, s₁) ∧ y.val ≤ total ys := by
  have hsoundAt := hs.soundAt fun _ he => he
  obtain ⟨y₁, s₁, ys₁, h₁, hrest, -⟩ := forEach_cons_eq_ok hpieces
  obtain ⟨-, hauth, ha, hp, -⟩ := Contract.withdraw_eq_ok h₁
  obtain ⟨w, -, -, -, hw, -⟩ := withdraw_updated hs.keyed h₁
  obtain ⟨hsound, hb, -⟩ := hsoundAt.updated hs.keyed hrate hw
  have htotal := forEach_total_nonneg
    (fun _ _ _ _ h => (Contract.withdraw_eq_ok h).elim fun _ hx => hx.2.1) hrest
  have hle : a.val ≤ sum := by rw [hsum, total_cons]; omega
  obtain ⟨⟨q, hq, hshares⟩, hbalance⟩ := forEach_withdraw hs hrate hsound hw hpieces
  -- the whole burns no more than the pieces, so the user holds enough
  have hburned {x m : I128} (hx : w.underlyingToBTokensUp sum = .ok x)
      (hm : w.bTokensToSharesUp x = .ok m) : m.val ≤ total ys := by
    have hxs : x.val ≤ (withdrawnBTokens e r (a :: as)).sum := by
      rw [((ReserveVault.underlyingToBTokensUp_eq_ok hsound.rate_pos).1 hx).2, hb, hsum]
      exact MulDiv.ceil_sum_le hrate _
    have hpool := hq.burned_le
    have hmono := hsound.pool.burned_mono hxs
    rw [hshares, hsound.pool_shares] at hpool
    rw [hsound.burned hm]
    omega
  obtain ⟨⟨y, s₂⟩, h⟩ := (withdraw_trapsOnly hsoundAt (hs.conserved r) hs.keyed hrate hauth
    (Pool.withdraw_accepted hp) hw (ha.trans_le hle)
    fun x m hx hm => (hburned hx hm).trans hbalance).isOk htrap
  refine ⟨y, s₂, h, ?_⟩
  obtain ⟨w', x, -, -, hw', hx, hm, -⟩ := withdraw_updated hs.keyed h
  obtain rfl : w = w' := Except.ok.inj (hw.symm.trans hw')
  exact hburned hx hm

end Split

/-- What splitting an operation of user `u` on reserve `r` does in the surroundings `e`. -/
structure SplittingNeverPays (e : Env Address) (s : State Address) (r u : Address) : Prop where
  /-- The sum of some deposits can be deposited at once, for no fewer shares, unless it traps. -/
  deposit : ∀ a as sum ys s', sum.val = total (a :: as) →
    forEach (fun s a => Contract.deposit e s r u a) s (a :: as) = .ok (ys, s') →
    Contract.deposit e s r u sum ≠ .error .arithmetic →
    ∃ y s₁, Contract.deposit e s r u sum = .ok (y, s₁) ∧ total ys ≤ y
  /-- The sum of some withdrawals can be withdrawn at once, for no more shares, unless it traps. -/
  withdraw : ∀ a as sum ys s', sum.val = total (a :: as) →
    forEach (fun s a => Contract.withdraw e s r u a) s (a :: as) = .ok (ys, s') →
    Contract.withdraw e s r u sum ≠ .error .arithmetic →
    ∃ y s₁, Contract.withdraw e s r u sum = .ok (y, s₁) ∧ y.val ≤ total ys

/-- **Splitting never pays.**  In every reachable state, for any number of pieces. -/
theorem splitting_never_pays (hs : Reachable (fun e => 0 < (e.bRate r).val) s)
    (hrate : 0 < (e.bRate r).val) : SplittingNeverPays e s r u where
  deposit _ _ _ _ _ hsum hpieces htrap := deposit_split hs hrate hsum hpieces htrap
  withdraw _ _ _ _ _ hsum hpieces htrap := withdraw_split hs hrate hsum hpieces htrap

/-- Three deposits, the last of them of two bTokens only. -/
def Demo.pieces : List I128 := [I128.ofUInt64 1000, I128.ofUInt64 2000, I128.ofUInt64 3]

omit [FixedPoint] in
/-- User `3` makes them after the concrete run, with interest pending. -/
theorem splitting_never_pays_demo : ∃ ys s' y s₁,
    forEach (fun s a => @Contract.deposit ℕ _ FixedPoint.reference
        (Demo.env 80 (I128.ofUInt64 1300000000000) 3) s 7 3 a) Demo.state Demo.pieces =
      .ok (ys, s') ∧
    @Contract.deposit ℕ _ FixedPoint.reference (Demo.env 80 (I128.ofUInt64 1300000000000) 3)
      Demo.state 7 3 (I128.ofUInt64 3003) = .ok (y, s₁) ∧ total ys ≤ y := by
  have hpieces : (forEach (fun s a => @Contract.deposit ℕ _ FixedPoint.reference
      (Demo.env 80 (I128.ofUInt64 1300000000000) 3) s 7 3 a) Demo.state Demo.pieces).map
        (fun res => total res.1) = .ok 2345 := by decide
  have hwhole : (@Contract.deposit ℕ _ FixedPoint.reference
      (Demo.env 80 (I128.ofUInt64 1300000000000) 3) Demo.state 7 3 (I128.ofUInt64 3003)).map
        (fun res => res.1.val) = .ok 2347 := by decide
  obtain ⟨⟨ys, s'⟩, h, -⟩ := map_eq_ok.1 hpieces
  obtain ⟨hdeposit, -⟩ := @splitting_never_pays ℕ FixedPoint.reference _
    (Demo.env 80 (I128.ofUInt64 1300000000000) 3) Demo.state 7 3
    (Demo.state_reachable.mono fun _ h => h 7) (by decide)
  obtain ⟨y, s₁, hsum, hle⟩ := hdeposit _ _ (I128.ofUInt64 3003) _ _ (by decide) h fun htrap => by
    rw [htrap] at hwhole
    cases hwhole
  exact ⟨ys, s', y, s₁, h, hsum, hle⟩

end FeeVault
