import FeeVault.Soundness

namespace FeeVault

/-!
# Passive holders — the value of a share never falls with the rate

`ReserveVault.shareValue` is what one share is worth in underlying, as an exact rational.

* `ReserveVault.updateRate_shareValue` — accrual at a rate that did not fall leaves the holders
  at least what they had, because the fee is at most the interest;
* `Effect.shareValue_le` — deposits, withdrawals and claims of others do not lower it either;
* `run_passive` — over a run in which the holder authorizes nothing.
-/

variable {Address : Type} [FixedPoint]

namespace ReserveVault

variable {v w : ReserveVault Address} {e : Env Address} {fm : FeeMode}

/-- Underlying per share, with twelve decimals. -/
def shareValue (v : ReserveVault Address) : ℚ := v.bRate * v.totalBTokens / v.totalShares

omit [FixedPoint] in
/-- Values compare by cross-multiplication. -/
theorem shareValue_le_iff (hv : 0 < v.totalShares.val) (hw : 0 < w.totalShares.val) :
    v.shareValue ≤ w.shareValue ↔
      v.bRate.val * v.totalBTokens * w.totalShares ≤ w.bRate * w.totalBTokens * v.totalShares := by
  have hv' : (0 : ℚ) < v.totalShares.val := by exact_mod_cast hv
  have hw' : (0 : ℚ) < w.totalShares.val := by exact_mod_cast hw
  rw [shareValue, shareValue, div_le_div_iff₀ hv' hw']
  exact_mod_cast Iff.rfl

/-- **Accrual.**  The interest covers the fee. -/
theorem updateRate_shareValue (hv : v.Sound) (hS : 0 < v.totalShares.val) (hfm : fm.Valid)
    (hle : v.bRate.val ≤ e.bRate v.address) (h : v.updateRate e fm = .ok w) :
    v.shareValue ≤ w.shareValue := by
  obtain ⟨fee, hacc⟩ := updateRate_accrual h
  have hvalue := updateRate_value_le hv.rate_pos hv.bTokens_nonneg hfm hle h
  rw [shareValue_le_iff hS (by rw [hacc.totalShares]; exact hS), hacc.totalShares]
  exact mul_le_mul_of_nonneg_right hvalue hS.le

omit [FixedPoint] in
/-- At one rate, the value of a share is the price of the pool. -/
theorem shareValue_le_of_cross (hv : 0 < v.totalShares.val) (hw : 0 < w.totalShares.val)
    (hb : 0 < v.bRate.val) (hrate : w.bRate = v.bRate)
    (h : v.totalBTokens.val * w.totalShares ≤ w.totalBTokens * v.totalShares) :
    v.shareValue ≤ w.shareValue := by
  rw [shareValue_le_iff hv hw, hrate, mul_assoc, mul_assoc]
  exact mul_le_mul_of_nonneg_left h hb.le

end ReserveVault

variable [DecidableEq Address]
variable {s s' : State Address} {t : Tx Address} {r u : Address} {v : ReserveVault Address}
  {val : Value}

/-- **Value step.**  A transaction the holder `u` did not authorize, at a rate no lower than the
    stored one, keeps `u`'s shares and does not lower their value. -/
theorem Effect.shareValue_le (h : Effect t r s s') (hs : s.SoundAt r) (hc : s.Conserved r)
    (hkey : ∀ v, s.vaultAt r = some v → v.address = r) (hv : s.vaultAt r = some v)
    (hu : 0 < s.sharesAt r u) (hauth : t.env.authorized u = false)
    (hrate : v.bRate.val ≤ t.env.bRate r) :
    ∃ w, s'.vaultAt r = some w ∧ s'.sharesAt r u = s.sharesAt r u ∧
      v.shareValue ≤ w.shareValue ∧ (w.bRate = v.bRate ∨ w.bRate = t.env.bRate r) := by
  have hsound := hs.vault v hv
  have hS : 0 < v.totalShares.val :=
    lt_of_lt_of_le hu (State.totalSharesAt_some hv ▸ hc.le_total u)
  have haddr := hkey v hv
  -- every movement starts from the accrued vault
  have hacc {v' w : ReserveVault Address} (present : s.vaultAt r = some v')
      (accrual : v'.updateRate t.env s.storage.feeMode = .ok w) :
      w.Sound ∧ w.bRate = t.env.bRate r ∧ 0 < w.totalShares.val ∧
        v.shareValue ≤ w.shareValue := by
    obtain rfl : v = v' := Option.some.inj (hv.symm.trans present)
    obtain ⟨hw, hb⟩ := hs.accrued hkey (lt_of_lt_of_le hsound.rate_pos hrate) hv accrual
    obtain ⟨fee, hfee⟩ := ReserveVault.updateRate_accrual accrual
    exact ⟨hw, hb, hfee.totalShares ▸ hS,
      ReserveVault.updateRate_shareValue hsound hS hs.feeMode (by rw [haddr]; exact hrate) accrual⟩
  -- and leaves `u` among the holders
  have hpos {w : ReserveVault Address} (hw : s'.vaultAt r = some w)
      (hshares : s'.sharesAt r u = s.sharesAt r u) : 0 < w.totalShares.val := by
    rw [← State.totalSharesAt_some hw]
    exact lt_of_lt_of_le (hshares ▸ hu) ((h.conserved hc).le_total u)
  cases h with
  | untouched _ _ vault shares =>
    exact ⟨v, vault.trans hv, congrFun shares u, le_rfl, Or.inl rfl⟩
  | opened _ absent =>
    rw [absent] at hv
    cases hv
  | accrued _ present accrual vault shares =>
    obtain ⟨-, hb, -, hvalue⟩ := hacc present accrual
    exact ⟨_, vault, congrFun shares u, hvalue, Or.inr hb⟩
  | @deposited u' a x m S T v' w _ auth _ present accrual _ bTokens_pos minted _ totalShares
      totalBTokens vault shares =>
    obtain ⟨hw, hb, hwS, hvalue⟩ := hacc present accrual
    have hne : u ≠ u' := by rintro rfl; rw [auth] at hauth; cases hauth
    have hkeep : s'.sharesAt r u = s.sharesAt r u := by
      rw [shares, Function.update_of_ne hne]
    refine ⟨_, vault, hkeep, hvalue.trans ?_, Or.inr hb⟩
    exact ReserveVault.shareValue_le_of_cross hwS (hpos vault hkeep) hw.rate_pos rfl
      (hw.deposit_cross bTokens_pos.le minted totalShares totalBTokens)
  | @withdrawn u' a x m S T v' w _ auth _ present accrual _ burned _ _ bTokens_le_total _
      totalShares totalBTokens vault shares =>
    obtain ⟨hw, hb, hwS, hvalue⟩ := hacc present accrual
    have hne : u ≠ u' := by rintro rfl; rw [auth] at hauth; cases hauth
    have hkeep : s'.sharesAt r u = s.sharesAt r u := by
      rw [shares, Function.update_of_ne hne]
    refine ⟨_, vault, hkeep, hvalue.trans ?_, Or.inr hb⟩
    exact ReserveVault.shareValue_le_of_cross hwS (hpos vault hkeep) hw.rate_pos rfl
      (hw.withdraw_cross bTokens_le_total burned totalShares totalBTokens)
  | claimed _ present accrual _ _ vault shares =>
    obtain ⟨-, hb, -, hvalue⟩ := hacc present accrual
    exact ⟨_, vault, congrFun shares u, hvalue, Or.inr hb⟩

/-! ### Over runs -/

/-- The rates of `r` that a run sees. -/
def ratesOf (r : Address) (ts : List (Tx Address)) : List ℤ := ts.map fun t => (t.env.bRate r).val

omit [FixedPoint] [DecidableEq Address] in
/-- The rates of a run, taken apart from the front. -/
theorem ratesOf_cons (t : Tx Address) (ts : List (Tx Address)) :
    ratesOf r (t :: ts) = (t.env.bRate r).val :: ratesOf r ts := rfl

/-- **Passive run.**  Over transactions the holder `u` did not authorize, at rates that never
    fall below the stored one or each other, `u`'s shares stay and gain value; and the rates to
    come still do not fall below the rate then stored. -/
theorem run_passive {ts us : List (Tx Address)} (hs : Reachable (fun e => 0 < (e.bRate r).val) s)
    (hv : s.vaultAt r = some v) (hu : 0 < s.sharesAt r u)
    (hauth : ∀ t ∈ ts, t.env.authorized u = false)
    (hrates : (v.bRate.val :: ratesOf r (ts ++ us)).Pairwise (· ≤ ·)) :
    ∃ w, (Revert.run exec s ts).vaultAt r = some w ∧
      (Revert.run exec s ts).sharesAt r u = s.sharesAt r u ∧ v.shareValue ≤ w.shareValue ∧
      (w.bRate.val :: ratesOf r us).Pairwise (· ≤ ·) := by
  induction ts generalizing s v with
  | nil => exact ⟨v, hv, rfl, le_rfl, hrates⟩
  | cons t ts ih =>
    rw [List.cons_append, ratesOf_cons] at hrates
    have hle : v.bRate.val ≤ t.env.bRate r := List.rel_of_pairwise_cons hrates List.mem_cons_self
    have hpos : 0 < (t.env.bRate r).val :=
      lt_of_lt_of_le ((hs.soundAt fun _ he => he).vault v hv).rate_pos hle
    have hrest := fun t' ht' => hauth t' (List.mem_cons_of_mem t ht')
    have htail : (v.bRate.val :: ratesOf r (ts ++ us)).Pairwise (· ≤ ·) :=
      hrates.sublist ((List.sublist_cons_self _ _).cons_cons _)
    have hs' := Revert.Reachable.step (t := t) hs hpos
    rw [Revert.run_cons]
    cases h : exec s t with
    | error f =>
      rw [Revert.step_error h] at hs' ⊢
      exact ih hs' hv hu hrest htail
    | ok res =>
      obtain ⟨val, s'⟩ := res
      rw [Revert.step_ok h] at hs' ⊢
      obtain ⟨w, hw, hshares, hvalue, hrate⟩ := (exec_effect hs.keyed h r).shareValue_le
        (hs.soundAt fun _ he => he) (hs.conserved r) (hs.keyed r) hv hu
        (hauth t List.mem_cons_self) hle
      have hchain : (w.bRate.val :: ratesOf r (ts ++ us)).Pairwise (· ≤ ·) := by
        rcases hrate with hb | hb
        · exact hb ▸ htail
        · exact hb ▸ hrates.of_cons
      obtain ⟨w', hw', hshares', hvalue', hrates'⟩ := ih hs' hw (hshares ▸ hu) hrest hchain
      exact ⟨w', hw', hshares'.trans hshares, hvalue.trans hvalue', hrates'⟩

/-- What a passive holder `u` of `r` has at two points of a run, the state `s₁` before `s₂`. -/
structure PassiveHolding (r u : Address) (s s₁ s₂ : State Address) : Prop where
  shares_fst : Contract.getShares s₁ r u = Contract.getShares s r u
  shares_snd : Contract.getShares s₂ r u = Contract.getShares s r u
  /-- The vault has shares at both points, and each of them gained value in between. -/
  shareValue_le : ∃ v₁ v₂, s₁.storage.resVault r = some v₁ ∧ s₂.storage.resVault r = some v₂ ∧
    0 < v₁.totalShares.val ∧ 0 < v₂.totalShares.val ∧ v₁.shareValue ≤ v₂.shareValue

/-- **Passive depositors never lose share value** while the pool's rate does not fall, whatever
    the others and the admin do: between any two points of the run, `ts` in and `us` later. -/
theorem passive_shareValue_le {ts us : List (Tx Address)}
    (hs : Reachable (fun e => 0 < (e.bRate r).val) s) (hv : s.storage.resVault r = some v)
    (hu : 0 < (Contract.getShares s r u).val)
    (hauth : ∀ t ∈ ts ++ us, t.env.authorized u = false)
    (hrates : (v.bRate.val :: ratesOf r (ts ++ us)).Pairwise (· ≤ ·)) :
    PassiveHolding r u s (Revert.run exec s ts) (Revert.run exec s (ts ++ us)) := by
  obtain ⟨w₁, hw₁, hshares₁, -, hrates₁⟩ :=
    run_passive hs hv hu (fun t ht => hauth t (List.mem_append_left us ht)) hrates
  have hpos : ∀ t ∈ ts ++ us, 0 < (t.env.bRate r).val := fun t ht =>
    lt_of_lt_of_le ((hs.soundAt fun _ he => he).vault v hv).rate_pos
      (List.rel_of_pairwise_cons hrates (List.mem_map_of_mem ht))
  have hs₁ : Reachable (fun e => 0 < (e.bRate r).val) (Revert.run exec s ts) :=
    Revert.Reachable.run hs fun t ht => hpos t (List.mem_append_left us ht)
  rw [← List.append_nil us] at hrates₁
  obtain ⟨w₂, hw₂, hshares₂, hvalue, -⟩ := run_passive hs₁ hw₁ (hshares₁ ▸ hu)
    (fun t ht => hauth t (List.mem_append_right ts ht)) hrates₁
  have hs₂ : Reachable (fun e => 0 < (e.bRate r).val)
      (Revert.run exec (Revert.run exec s ts) us) :=
    Revert.Reachable.run hs₁ fun t ht => hpos t (List.mem_append_right ts ht)
  rw [Revert.run_append]
  refine ⟨I128.ext hshares₁, I128.ext (hshares₂.trans hshares₁), w₁, w₂, hw₁, hw₂, ?_, ?_, hvalue⟩
  · rw [← State.totalSharesAt_some hw₁]
    exact lt_of_lt_of_le (hshares₁ ▸ hu) ((hs₁.conserved r).le_total u)
  · rw [← State.totalSharesAt_some hw₂]
    exact lt_of_lt_of_le (hshares₂.trans hshares₁ ▸ hu) ((hs₂.conserved r).le_total u)

/-- User `4` and the admin go on after the concrete run, at rates of 1.3 and 1.4. -/
def Demo.othersTxs : List (Tx ℕ) :=
  [⟨env 50 (I128.ofUInt64 1300000000000) 4, .deposit 7 4 (I128.ofUInt64 33333333)⟩,
   ⟨env 60 (I128.ofUInt64 1300000000000) 0, .setFeeMode true (I128.ofUInt64 500000)⟩,
   ⟨env 70 (I128.ofUInt64 1400000000000) 4, .withdraw 7 4 (I128.ofUInt64 44444444)⟩]

omit [FixedPoint] in
/-- User `3`, who does nothing meanwhile, gains value between the first and the last of them. -/
theorem passive_shareValue_demo : PassiveHolding 7 3 Demo.state
    (Revert.run (@exec ℕ _ FixedPoint.reference) Demo.state (Demo.othersTxs.take 1))
    (Revert.run (@exec ℕ _ FixedPoint.reference) Demo.state
      (Demo.othersTxs.take 1 ++ Demo.othersTxs.drop 1)) :=
  @passive_shareValue_le ℕ FixedPoint.reference _ Demo.state 7 3 Demo.vault _ _
    (Demo.state_reachable.mono fun _ h => h 7) Demo.state_vault (by decide) (by decide) (by decide)

end FeeVault
