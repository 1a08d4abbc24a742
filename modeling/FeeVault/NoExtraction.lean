import FeeVault.SharePrice

namespace FeeVault

open FiniteSum

/-!
# No extraction at a fixed rate

A coalition that starts without shares cannot take out of a reserve more than it puts in while
the pool's rate stands still, and what its views still show is covered by the difference.

* `State.heldBy` — the coalition's shares;
* `Covered` — the invariant: what they are worth is at most what was paid in less what was taken
  out.  Before the first movement of the coalition the vault may still be at an older rate, or
  absent, so the coalition's shares being none is a case of its own;
* `Effect.covered` — the step, from `SharePool.claim_deposit_le` and `claim_withdraw_le`: the
  rest of the holders keep their claim, so the rounding dust stays with them.
-/

variable {Address : Type} [FixedPoint]

/-! ### Underlying in and out -/

/-- Underlying the call deposits into `r`. -/
def Call.depositedIn [DecidableEq Address] (r : Address) : Call Address → ℤ
  | .deposit reserve _ amount => if reserve = r then amount else 0
  | _ => 0

/-- Underlying the call withdraws from `r`. -/
def Call.withdrawnFrom [DecidableEq Address] (r : Address) : Call Address → ℤ
  | .withdraw reserve _ amount => if reserve = r then amount else 0
  | _ => 0

/-- The call is a deposit or withdrawal by a member of `C`, or none at all. -/
def Call.ByMembers (C : Set Address) : Call Address → Prop
  | .deposit _ user _ => user ∈ C
  | .withdraw _ user _ => user ∈ C
  | _ => True

omit [FixedPoint] in
/-- A call on another reserve, or on none, moves nothing in or out of `r`. -/
theorem Call.flows_of_reserve_ne [DecidableEq Address] {r : Address} {c : Call Address}
    (h : c.reserve? ≠ some r) : c.depositedIn r = 0 ∧ c.withdrawnFrom r = 0 := by
  cases c <;> simp_all [reserve?, depositedIn, withdrawnFrom]

variable {s s' : State Address} {t : Tx Address} {r u : Address} {v w : ReserveVault Address}
  {C : Set Address} {b x m S T a : I128} {net d : ℤ}

/-! ### The coalition's shares -/

namespace State

/-- The shares the members of `C` hold in `r`. -/
noncomputable def heldBy (s : State Address) (r : Address) (C : Set Address) : ℤ :=
  ∑ᶠ u ∈ C, s.sharesAt r u

omit [FixedPoint] in
/-- The coalition's shares depend on the shares in the reserve only. -/
theorem heldBy_congr (h : s'.sharesAt r = s.sharesAt r) : s'.heldBy r C = s.heldBy r C := by
  rw [heldBy, h, heldBy]

omit [FixedPoint] in
/-- A coalition none of whose members holds anything holds nothing. -/
theorem heldBy_eq_zero (h : ∀ u ∈ C, s.sharesAt r u = 0) : s.heldBy r C = 0 :=
  (finsum_mem_congr rfl h).trans (finsum_mem_zero C)

namespace Conserved

omit [FixedPoint] in
/-- The coalition holds no more than the vault has issued. -/
theorem heldBy_le_total (h : s.Conserved r) : s.heldBy r C ≤ s.totalSharesAt r :=
  h.total ▸ finsum_mem_le_finsum h.finite h.nonneg

omit [FixedPoint] in
/-- Any finite part of the coalition holds no more than all of it, which bounds what its members
    are shown in sum. -/
theorem sum_le_heldBy (h : s.Conserved r) {F : Finset Address} (hF : ∀ u ∈ F, u ∈ C) :
    ∑ u ∈ F, s.sharesAt r u ≤ s.heldBy r C :=
  sum_le_finsum_mem h.finite h.nonneg hF

omit [FixedPoint] in
/-- In particular, one member does. -/
theorem le_heldBy (h : s.Conserved r) (hu : u ∈ C) : s.sharesAt r u ≤ s.heldBy r C := by
  simpa using h.sum_le_heldBy (F := {u}) (by simpa using hu)

omit [FixedPoint] in
/-- A member's balance and the coalition's move by the same amount. -/
theorem heldBy_update [DecidableEq Address] (h : s.Conserved r) (hu : u ∈ C)
    (hshares : s'.sharesAt r = Function.update (s.sharesAt r) u (s.sharesAt r u + d)) :
    s'.heldBy r C = s.heldBy r C + d := by
  rw [heldBy, hshares, finsum_mem_update h.finite hu, heldBy]
  ring

end Conserved

end State

/-! ### What shares are worth -/

namespace ReserveVault

omit [FixedPoint] in
/-- The value of shares is the pool's claim at the rate. -/
theorem Sound.shareValue_mul (h : v.Sound) (a : ℤ) :
    v.shareValue * a = v.bRate * h.pool.claim a := by
  rw [shareValue, SharePool.claim, Sound.pool_shares, Sound.pool_assets]
  ring

omit [FixedPoint] in
/-- The value of a share of a sound vault is not negative, so more shares are never
    worth less. -/
theorem Sound.shareValue_nonneg (h : v.Sound) : 0 ≤ v.shareValue := by
  have hb : (0 : ℚ) < v.bRate.val := by exact_mod_cast h.rate_pos
  have := mul_nonneg hb.le (h.pool.claim_nonneg zero_le_one)
  rwa [← h.shareValue_mul 1, Int.cast_one, mul_one] at this

/-- What a deposit adds to the value of the depositors' shares is at most its amount. -/
theorem Sound.deposit_value_le (h : w.Sound) (hx : w.underlyingToBTokensDown a = .ok x)
    (hx0 : 0 ≤ x.val) (hm : w.bTokensToSharesDown x = .ok m)
    (hS : S.val = w.totalShares.val + m.val) (hT : T.val = w.totalBTokens.val + x.val)
    (hd : d ≤ w.totalShares) :
    shareValue { w with totalShares := S, totalBTokens := T } * (d + m.val : ℤ) ≤
      w.shareValue * d + scalar12.val * a.val := by
  have hnew := h.deposit hx0 hm hS hT
  have hclaim := h.pool.claim_deposit_le hx0 (hd.trans_eq h.pool_shares.symm)
  have hpool : hnew.pool = h.pool.deposit x hx0 := h.pool_deposit hx0 hm hS hT
  have hb : (0 : ℚ) < w.bRate.val := by exact_mod_cast h.rate_pos
  have hpaid : (w.bRate.val : ℚ) * x.val ≤ scalar12.val * a.val := by
    have := MulDiv.floor_mul_le (x := a) (y := scalar12.val) h.rate_pos
    rw [← ((underlyingToBTokensDown_eq_ok h.rate_pos).1 hx).2] at this
    exact_mod_cast (by linarith : w.bRate.val * x.val ≤ scalar12.val * a.val)
  rw [hnew.shareValue_mul, hpool, h.minted hm, h.shareValue_mul]
  calc (w.bRate.val : ℚ) * (h.pool.deposit x hx0).claim (d + h.pool.minted x)
      ≤ w.bRate.val * (h.pool.claim d + x.val) := mul_le_mul_of_nonneg_left hclaim hb.le
    _ ≤ w.bRate.val * h.pool.claim d + scalar12.val * a.val := by
        rw [mul_add]
        linarith

/-- A withdrawal takes at least its amount out of the value of the withdrawers' shares. -/
theorem Sound.withdraw_value_le (h : w.Sound) (hx : w.underlyingToBTokensUp a = .ok x)
    (hxT : x.val ≤ w.totalBTokens) (hm : w.bTokensToSharesUp x = .ok m)
    (hS : S.val = w.totalShares.val - m.val) (hT : T.val = w.totalBTokens.val - x.val)
    (hd : d ≤ w.totalShares) (hmd : m.val ≤ d) :
    shareValue { w with totalShares := S, totalBTokens := T } * (d - m.val : ℤ) +
      scalar12.val * a.val ≤ w.shareValue * d := by
  have hnew := h.withdraw hxT hm hS hT
  have hxT' : x.val ≤ h.pool.assets := hxT
  have hclaim := h.pool.claim_withdraw_le hxT' (hd.trans_eq h.pool_shares.symm)
    (h.burned hm ▸ hmd)
  have hpool : hnew.pool = h.pool.withdraw x hxT' := h.pool_withdraw hxT hxT' hm hS hT
  have hb : (0 : ℚ) < w.bRate.val := by exact_mod_cast h.rate_pos
  have hpaid : (scalar12.val : ℚ) * a.val ≤ w.bRate.val * x.val := by
    have := MulDiv.le_ceil_mul (x := a) (y := scalar12.val) h.rate_pos
    rw [← ((underlyingToBTokensUp_eq_ok h.rate_pos).1 hx).2] at this
    exact_mod_cast (by linarith : scalar12.val * a.val ≤ w.bRate.val * x.val)
  rw [hnew.shareValue_mul, hpool, h.burned hm, h.shareValue_mul]
  calc (w.bRate.val : ℚ) * (h.pool.withdraw x hxT').claim (d - h.pool.burned x) +
        scalar12.val * a.val
      ≤ w.bRate.val * ((h.pool.withdraw x hxT').claim (d - h.pool.burned x) + x.val) := by
        rw [mul_add]
        linarith
    _ ≤ w.bRate.val * h.pool.claim d := mul_le_mul_of_nonneg_left hclaim hb.le

end ReserveVault

/-! ### The invariant -/

variable [DecidableEq Address]

/-- The coalition's shares in `r` are worth at most `net` at the rate `b`. -/
def Covered (s : State Address) (r : Address) (C : Set Address) (b : I128) (net : ℤ) : Prop :=
  (s.heldBy r C = 0 ∧ 0 ≤ net) ∨
    ∃ v, s.vaultAt r = some v ∧ v.bRate = b ∧
      v.shareValue * (s.heldBy r C : ℤ) ≤ scalar12.val * net

omit [FixedPoint] [DecidableEq Address] in
/-- A change that neither touches the coalition's shares nor lets a vault at rate `b` go keeps
    the invariant. -/
theorem Covered.congr (h : Covered s r C b net) (hshares : s'.sharesAt r = s.sharesAt r)
    (hvault : ∀ v, s.vaultAt r = some v → v.bRate = b → ∃ w, s'.vaultAt r = some w ∧
      w.bRate = b ∧ w.shareValue = v.shareValue) : Covered s' r C b net := by
  rw [Covered, State.heldBy_congr hshares]
  obtain h | ⟨v, hv, hb, hle⟩ := h
  · exact Or.inl h
  · obtain ⟨w, hw, hwb, hvalue⟩ := hvault v hv hb
    exact Or.inr ⟨w, hw, hwb, hvalue ▸ hle⟩

omit [DecidableEq Address] in
/-- Accruing a vault that is already at the pool's rate keeps the value of its shares. -/
theorem ReserveVault.updateRate_shareValue_eq {e : Env Address} {fm : FeeMode}
    (hrate : e.bRate v.address = v.bRate) (h : v.updateRate e fm = .ok w) :
    w.shareValue = v.shareValue := by
  rw [ReserveVault.updateRate_of_rate_eq hrate] at h
  exact Except.ok.inj h ▸ rfl

/-- **Coalition step.**  At an unchanged rate accrual takes nothing, so only the members'
    movements count: each puts the value of their shares up by at most what it pays in, or down
    by at least what it takes out. -/
theorem Effect.covered (h : Effect t r s s') (hs : s.SoundAt r) (hc : s.Conserved r)
    (hkey : ∀ v, s.vaultAt r = some v → v.address = r) (hmem : t.call.ByMembers C)
    (hrate : t.env.bRate r = b) (hb : 0 < b.val) (hcov : Covered s r C b net) :
    Covered s' r C b (net + t.call.depositedIn r - t.call.withdrawnFrom r) := by
  -- accrual does not change the value at the rate `b`
  have haccrued {v w : ReserveVault Address} (present : s.vaultAt r = some v)
      (accrual : v.updateRate t.env s.storage.feeMode = .ok w) :
      (w.Sound ∧ w.bRate = b) ∧ (v.bRate = b → w.shareValue = v.shareValue) := by
    refine ⟨hrate ▸ hs.accrued hkey (by rw [hrate]; exact hb) present accrual, ?_⟩
    intro hvb
    exact ReserveVault.updateRate_shareValue_eq (by rw [hkey v present, hrate, hvb]) accrual
  -- calls that leave the coalition's shares alone
  have hidle (hflow : t.call.depositedIn r = 0 ∧ t.call.withdrawnFrom r = 0)
      (hshares : s'.sharesAt r = s.sharesAt r)
      (hvault : ∀ v, s.vaultAt r = some v → v.bRate = b → ∃ w, s'.vaultAt r = some w ∧
        w.bRate = b ∧ w.shareValue = v.shareValue) :
      Covered s' r C b (net + t.call.depositedIn r - t.call.withdrawnFrom r) := by
    rw [hflow.1, hflow.2, add_zero, sub_zero]
    exact hcov.congr hshares hvault
  -- what the coalition's shares are worth once the vault is accrued
  have hworth {v w : ReserveVault Address} (present : s.vaultAt r = some v)
      (accrual : v.updateRate t.env s.storage.feeMode = .ok w) :
      w.shareValue * (s.heldBy r C : ℤ) ≤ scalar12.val * net ∧ s.heldBy r C ≤ w.totalShares := by
    refine ⟨?_, ?_⟩
    · obtain ⟨hheld, hnet⟩ | ⟨v', hv', hvb, hle⟩ := hcov
      · rw [hheld, Int.cast_zero, mul_zero]
        exact_mod_cast mul_nonneg scalar12_pos.le hnet
      · obtain rfl : v' = v := Option.some.inj (hv'.symm.trans present)
        exact (haccrued present accrual).2 hvb ▸ hle
    · obtain ⟨fee, hfee⟩ := ReserveVault.updateRate_accrual accrual
      rw [hfee.totalShares, ← State.totalSharesAt_some present]
      exact hc.heldBy_le_total
  cases h with
  | untouched other _ vault shares =>
    exact hidle (Call.flows_of_reserve_ne other) shares
      fun v hv hvb => ⟨v, vault.trans hv, hvb, rfl⟩
  | opened call absent _ shares =>
    -- there was no vault to keep
    apply hidle (by rw [call]; exact ⟨rfl, rfl⟩) shares
    intro v hv _
    rw [absent] at hv
    cases hv
  | accrued call present accrual vault shares =>
    apply hidle (by rw [call]; exact ⟨rfl, rfl⟩) shares
    intro v hv hvb
    obtain rfl := Option.some.inj (hv.symm.trans present)
    obtain ⟨⟨-, hwb⟩, hvalue⟩ := haccrued present accrual
    exact ⟨_, vault, hwb, hvalue hvb⟩
  | claimed call present accrual _ _ vault shares =>
    apply hidle (by rw [call]; exact ⟨rfl, rfl⟩) shares
    intro v hv hvb
    obtain rfl := Option.some.inj (hv.symm.trans present)
    obtain ⟨⟨-, hwb⟩, hvalue⟩ := haccrued present accrual
    exact ⟨_, vault, hwb, hvalue hvb⟩
  | @deposited u a x m S T v w call _ _ present accrual bTokens bTokens_pos minted _ totalShares
      totalBTokens vault shares =>
    rw [call] at hmem
    obtain ⟨⟨hw, hwb⟩, -⟩ := haccrued present accrual
    obtain ⟨hle, htotal⟩ := hworth present accrual
    refine Or.inr ⟨_, vault, hwb, ?_⟩
    rw [hc.heldBy_update hmem shares, call]
    simp only [Call.depositedIn, Call.withdrawnFrom, if_true, sub_zero]
    push_cast
    rw [mul_add]
    have hvalue := hw.deposit_value_le bTokens bTokens_pos.le minted totalShares totalBTokens htotal
    push_cast at hvalue
    linarith
  | @withdrawn u a x m S T v w call _ _ present accrual bTokens burned _ _ bTokens_le_total
      burned_le_balance totalShares totalBTokens vault shares =>
    rw [call] at hmem
    obtain ⟨⟨hw, hwb⟩, -⟩ := haccrued present accrual
    obtain ⟨hle, htotal⟩ := hworth present accrual
    refine Or.inr ⟨_, vault, hwb, ?_⟩
    rw [hc.heldBy_update (d := -m.val) hmem (by rw [shares, sub_eq_add_neg]), call]
    simp only [Call.depositedIn, Call.withdrawnFrom, if_true, add_zero]
    push_cast
    rw [mul_sub]
    have hvalue := hw.withdraw_value_le bTokens bTokens_le_total burned totalShares totalBTokens
      htotal (burned_le_balance.trans (hc.le_heldBy hmem))
    push_cast at hvalue
    linarith

/-! ### Over runs -/

/-- Underlying the committed calls of a list deposit into `r`. -/
def deposited (r : Address) (ts : List (Tx Address)) : ℤ :=
  (ts.map fun t => t.call.depositedIn r).sum

/-- Underlying the committed calls of a list withdraw from `r`. -/
def withdrawn (r : Address) (ts : List (Tx Address)) : ℤ :=
  (ts.map fun t => t.call.withdrawnFrom r).sum

omit [FixedPoint] in
/-- What a run deposits, taken apart from the front. -/
theorem deposited_cons (t : Tx Address) (ts : List (Tx Address)) :
    deposited r (t :: ts) = t.call.depositedIn r + deposited r ts := List.sum_cons

omit [FixedPoint] in
/-- What a run withdraws, likewise. -/
theorem withdrawn_cons (t : Tx Address) (ts : List (Tx Address)) :
    withdrawn r (t :: ts) = t.call.withdrawnFrom r + withdrawn r ts := List.sum_cons

/-- **Coalition run**, by induction on the calls: what the members may hold is what they have
    paid in and not taken out, counting the calls that took effect. -/
theorem run_covered {ts : List (Tx Address)} (hs : Reachable (fun e => 0 < (e.bRate r).val) s)
    (hb : 0 < b.val) (hts : ∀ t ∈ ts, t.call.ByMembers C ∧ t.env.bRate r = b)
    (hcov : Covered s r C b net) :
    Covered (Revert.run exec s ts) r C b (net + deposited r (Revert.committed exec s ts) -
      withdrawn r (Revert.committed exec s ts)) := by
  induction ts generalizing s net with
  | nil => simpa [Revert.committed, deposited, withdrawn] using hcov
  | cons t ts ih =>
    obtain ⟨hmem, hrate⟩ := hts t List.mem_cons_self
    have hrest := fun t' ht' => hts t' (List.mem_cons_of_mem t ht')
    have hpos : 0 < (t.env.bRate r).val := by rw [hrate]; exact hb
    have hs' := Revert.Reachable.step (t := t) hs hpos
    rw [Revert.run_cons]
    cases h : exec s t with
    | error f =>
      rw [Revert.step_error h] at hs' ⊢
      rw [Revert.committed_cons_error h]
      exact ih hs' hrest hcov
    | ok res =>
      obtain ⟨val, s'⟩ := res
      rw [Revert.step_ok h] at hs' ⊢
      have hstep := (exec_effect hs.keyed h r).covered (hs.soundAt fun _ he => he)
        (hs.conserved r) (hs.keyed r) hmem hrate hb hcov
      rw [Revert.committed_cons_ok h, deposited_cons, withdrawn_cons]
      have hsum (x y z w : ℤ) : net + (x + y) - (z + w) = net + x - z + y - w := by ring
      rw [hsum]
      exact ih hs' hrest hstep

omit [DecidableEq Address] in
/-- What the view shows for shares of a vault at the pool's rate is covered by their value. -/
theorem view_le {e : Env Address} {q : I128} (hv : s.vaultAt r = some v) (hsound : v.Sound)
    (hc : s.Conserved r) (hrate : e.bRate v.address = v.bRate)
    (h : Contract.getUnderlyingTokens e s r u = .ok q) :
    (scalar12.val : ℚ) * q.val ≤ v.shareValue * (s.sharesAt r u : ℤ) := by
  by_cases hu : 0 < s.sharesAt r u
  · have hS : 0 < v.totalShares.val :=
      lt_of_lt_of_le hu (State.totalSharesAt_some hv ▸ hc.le_total u)
    obtain ⟨w, hw, x, hx, hq⟩ := (Contract.getUnderlyingTokens_eq_ok hu).1 h
    obtain ⟨v', hv', hvw⟩ := ReserveVault.getReserveVaultUpdated_eq_ok.1 hw
    obtain rfl : v = v' := Option.some.inj (hv.symm.trans hv')
    rw [ReserveVault.updateRate_of_rate_eq hrate] at hvw
    obtain rfl := (Except.ok.inj hvw).symm
    -- two floors, shares to bTokens and bTokens to underlying
    have h1 : x.val * v.totalShares.val ≤ s.sharesAt r u * v.totalBTokens := by
      rw [((ReserveVault.sharesToBTokensDown_eq_ok hS).1 hx).2]
      exact MulDiv.floor_mul_le hS
    have h2 : q.val * scalar12 ≤ x * v.bRate := by
      rw [(ReserveVault.bTokensToUnderlyingDown_eq_ok.1 hq).2]
      exact MulDiv.floor_mul_le scalar12_pos
    have hS' : (0 : ℚ) < v.totalShares.val := by exact_mod_cast hS
    rw [ReserveVault.shareValue, div_mul_eq_mul_div, le_div_iff₀ hS']
    have hprod : scalar12.val * q.val * v.totalShares.val ≤
        v.bRate.val * v.totalBTokens.val * s.sharesAt r u :=
      calc scalar12.val * q.val * v.totalShares.val
          ≤ x.val * v.bRate.val * v.totalShares.val :=
            mul_le_mul_of_nonneg_right (by linarith) hS.le
        _ = v.bRate.val * (x.val * v.totalShares.val) := by ring
        _ ≤ v.bRate.val * (s.sharesAt r u * v.totalBTokens.val) :=
            mul_le_mul_of_nonneg_left h1 hsound.rate_pos.le
        _ = v.bRate.val * v.totalBTokens.val * s.sharesAt r u := by ring
    exact_mod_cast hprod
  · rw [Contract.getUnderlyingTokens_of_no_shares hu] at h
    rw [← Except.ok.inj h, le_antisymm (not_lt.1 hu) (hc.nonneg u)]
    simp

/-- **No extraction.**  From any reachable state, a coalition `C` without shares in `r` that
    deposits and withdraws at the constant rate `b`, with admin calls anywhere in between, never
    has more out than in: underlying withdrawn plus what the views of any of its members show is
    at most underlying deposited.  A prefix of a run is a run, so this holds at every point. -/
theorem no_extraction {ts : List (Tx Address)} {e : Env Address} {F : Finset Address}
    {q : Address → I128} (hs : Reachable (fun e => 0 < (e.bRate r).val) s)
    (hC : ∀ u ∈ C, (Contract.getShares s r u).val = 0) (hb : 0 < b.val)
    (hts : ∀ t ∈ ts, t.call.ByMembers C ∧ t.env.bRate r = b) (he : e.bRate r = b)
    (hF : ∀ u ∈ F, u ∈ C)
    (hq : ∀ u ∈ F, Contract.getUnderlyingTokens e (Revert.run exec s ts) r u = .ok (q u)) :
    withdrawn r (Revert.committed exec s ts) + ∑ u ∈ F, (q u).val ≤
      deposited r (Revert.committed exec s ts) := by
  have hcov := run_covered hs hb hts (Or.inl ⟨State.heldBy_eq_zero (s := s) hC, le_rfl⟩)
  have hend : Reachable (fun e => 0 < (e.bRate r).val) (Revert.run exec s ts) :=
    Revert.Reachable.run hs fun t ht =>
      show 0 < (t.env.bRate r).val by rw [(hts t ht).2]; exact hb
  generalize Revert.run exec s ts = s₁ at *
  have hc := hend.conserved r
  rcases hcov with ⟨hheld, hnet⟩ | ⟨v, hv, hvb, hle⟩
  · -- nobody in the coalition holds anything, so every view is zero
    have hzero : ∀ u ∈ F, (q u).val = 0 := fun u hu => by
      have hu0 : ¬ 0 < s₁.sharesAt r u := not_lt.2 (hheld ▸ hc.le_heldBy (hF u hu))
      have h := hq u hu
      rw [Contract.getUnderlyingTokens_of_no_shares hu0] at h
      exact Except.ok.inj h ▸ rfl
    rw [Finset.sum_eq_zero hzero]
    omega
  · have hsound := (hend.soundAt fun _ he => he).vault v hv
    have hrate : e.bRate v.address = v.bRate := by rw [hend.keyed r v hv, he, hvb]
    have hviews : (scalar12.val : ℚ) * ∑ u ∈ F, ((q u).val : ℚ) ≤
        v.shareValue * (s₁.heldBy r C : ℤ) :=
      calc (scalar12.val : ℚ) * ∑ u ∈ F, ((q u).val : ℚ)
          = ∑ u ∈ F, (scalar12.val : ℚ) * (q u).val := Finset.mul_sum _ _ _
        _ ≤ ∑ u ∈ F, v.shareValue * (s₁.sharesAt r u : ℤ) :=
            Finset.sum_le_sum fun u hu => view_le hv hsound hc hrate (hq u hu)
        _ = v.shareValue * ((∑ u ∈ F, s₁.sharesAt r u : ℤ) : ℚ) := by
            rw [Int.cast_sum, Finset.mul_sum]
        _ ≤ v.shareValue * (s₁.heldBy r C : ℤ) :=
            mul_le_mul_of_nonneg_left (by exact_mod_cast hc.sum_le_heldBy hF)
              hsound.shareValue_nonneg
    have hK : (0 : ℚ) < scalar12.val := by rw [scalar12_val]; norm_num
    have hsum := le_of_mul_le_mul_left (hviews.trans hle) hK
    have hsum' : ∑ u ∈ F, (q u).val ≤ 0 + deposited r (Revert.committed exec s ts) -
        withdrawn r (Revert.committed exec s ts) := by exact_mod_cast hsum
    omega

/-- Users `5` and `6` join the concrete run at a rate of 1.3, with interest pending. -/
def Demo.coalitionTxs : List (Tx ℕ) :=
  [⟨env 50 (I128.ofUInt64 1300000000000) 5, .deposit 7 5 (I128.ofUInt64 33333333)⟩,
   ⟨env 50 (I128.ofUInt64 1300000000000) 0, .setFeeMode true (I128.ofUInt64 500000)⟩,
   ⟨env 60 (I128.ofUInt64 1300000000000) 6, .deposit 7 6 (I128.ofUInt64 44444444)⟩,
   ⟨env 60 (I128.ofUInt64 1300000000000) 5, .withdraw 7 5 (I128.ofUInt64 22222222)⟩]

omit [FixedPoint] in
/-- What they took out, and the `11111107` and `44444441` their views then show, are covered by
    what they paid in. -/
theorem no_extraction_demo :
    withdrawn 7 (Revert.committed (@exec ℕ _ FixedPoint.reference) Demo.state Demo.coalitionTxs) +
        (11111107 + 44444441) ≤
      deposited 7
        (Revert.committed (@exec ℕ _ FixedPoint.reference) Demo.state Demo.coalitionTxs) := by
  have hrates : ∀ t ∈ Demo.coalitionTxs, t.call.ByMembers {5, 6} ∧
      t.env.bRate 7 = I128.ofUInt64 1300000000000 := by
    intro t ht
    simp only [Demo.coalitionTxs, List.mem_cons, List.not_mem_nil, or_false] at ht
    obtain rfl | rfl | rfl | rfl := ht <;> simp [Call.ByMembers, Demo.env]
  have hC : ∀ u ∈ ({5, 6} : Set ℕ), (Contract.getShares Demo.state 7 u).val = 0 := by
    rintro u (rfl | rfl) <;> decide
  have h := @no_extraction ℕ FixedPoint.reference _ _ {5, 6} _ _ Demo.coalitionTxs
    (Demo.env 70 (I128.ofUInt64 1300000000000) 0) {5, 6}
    (fun u => if u = 5 then I128.ofUInt64 11111107 else I128.ofUInt64 44444441)
    (Demo.state_reachable.mono fun _ h => h 7) hC (by decide) hrates rfl (by simp) (by decide)
  simpa using h

end FeeVault
