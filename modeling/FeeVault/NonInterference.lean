import FeeVault.Conservation

namespace FeeVault

open Outcome

/-!
# Admin calls within a ledger are invisible to users

Within one ledger — one time, one rate per reserve — leaving every admin call out of a run changes
neither what the users' calls return nor what the views show afterwards.  A two-run property: the
two states are `Alike` when every reserve accrues to the same vault up to the fees, although one
may be accrued already, under another fee mode.

* `Alike.hidden` — an admin call keeps the relation on its own side.  `set_fee_mode` relies on
  accrual being idempotent and on the list holding every vault;
* `deposit_agree` / `withdraw_agree` — a user call cannot tell the two states apart, because the
  conversions never read the fees;
* `admin_noninterference` — the two put together by `Revert.run_purge`.
-/

variable {Address : Type}

/-- The same time and the same rates. -/
def Env.SameLedger (e e' : Env Address) : Prop :=
  e.timestamp = e'.timestamp ∧ e.bRate = e'.bRate

/-- Deposits and withdrawals. -/
def Call.isUser : Call Address → Bool
  | .deposit _ _ _ => true
  | .withdraw _ _ _ => true
  | _ => false

/-- Vaults equal up to the fees, and altogether if `strict`. -/
structure AlikeVaults (strict : Prop) (w w' : ReserveVault Address) : Prop where
  eq_but_fees : w = { w' with accruedFees := w.accruedFees }
  fees : strict → w.accruedFees = w'.accruedFees

/-- A vault is alike itself, strictly or not. -/
theorem AlikeVaults.refl {strict : Prop} (w : ReserveVault Address) : AlikeVaults strict w w :=
  ⟨rfl, fun _ => rfl⟩

/-- Strictly alike vaults are equal. -/
theorem AlikeVaults.eq {strict : Prop} {w w' : ReserveVault Address} (h : AlikeVaults strict w w')
    (hstrict : strict) : w = w' := by
  rw [h.eq_but_fees, h.fees hstrict]

variable [FixedPoint]

/-- Accrual reads the time and the rate of its surroundings and nothing else, so in one ledger it
    is the same whoever calls. -/
theorem ReserveVault.updateRate_congr {e e' : Env Address} {fm : FeeMode} {v : ReserveVault Address}
    (h : e.SameLedger e') : v.updateRate e fm = v.updateRate e' fm := by
  rw [updateRate, updateRate, h.1, h.2]

/-! ### Alike states -/

variable {e e' : Env Address} {strict : Prop} {new : Address → Prop} {st st' st₁ : Storage Address}
  {r u : Address} {a : I128}

/-- Reserve `r` accrues alike on both sides, or is a new one on the left, without
    anything in it. -/
inductive AlikeAt (e : Env Address) (strict : Prop) (new : Address → Prop)
    (st st' : Storage Address) (r : Address) : Prop
  | absent (left : st.resVault r = none) (right : st'.resVault r = none)
  | present {v v' : ReserveVault Address} (left : st.resVault r = some v)
      (right : st'.resVault r = some v')
      (accrual : Agree (AlikeVaults strict) (v.updateRate e st.feeMode)
        (v'.updateRate e st'.feeMode))
  | added (isNew : new r) (left : st.resVault r = some ⟨r, e.bRate r, e.timestamp, 0, 0, 0⟩)
      (right : st'.resVault r = none)

/-- Storages no user can tell apart in the ledger of `e`. -/
structure Alike (e : Env Address) (strict : Prop) (new : Address → Prop)
    (st st' : Storage Address) : Prop where
  shares : st.getReserveVaultShares = st'.getReserveVaultShares
  vaults : ∀ r, AlikeAt e strict new st st' r

/-- A storage is alike itself, where the two runs start. -/
theorem Alike.refl (st : Storage Address) : Alike e strict new st st where
  shares := rfl
  vaults r := by
    cases h : st.resVault r with
    | none => exact .absent h h
    | some v => exact .present h h (.refl AlikeVaults.refl _)

/-- Accruing a vault again under any fee mode gives the same. -/
theorem AlikeAt.congr (h : AlikeAt e strict new st st' r) (hvault : st₁.resVault r = st.resVault r)
    (hfm : st.resVault r = none ∨ st₁.feeMode = st.feeMode) : AlikeAt e strict new st₁ st' r := by
  cases h with
  | absent left right => exact .absent (hvault.trans left) right
  | present left right accrual =>
    rw [left] at hfm
    have hkept := hfm.resolve_left (Option.some_ne_none _)
    exact .present (hvault.trans left) right (hkept ▸ accrual)
  | added isNew left right => exact .added isNew (hvault.trans left) right

/-! ### User calls -/

/-- Both sides hand a user call the same vault up to fees, at the pool's rate, or both
    refuse it. -/
theorem getReserveVaultUpdated_agree (h : Alike e strict new st st')
    (hr : st'.resVault r = none → ¬ new r) (hledger : e'.SameLedger e) :
    Agree (fun w w' => AlikeVaults strict w w' ∧ e.bRate w'.address = w'.bRate)
      (ReserveVault.getReserveVaultUpdated e' st r)
      (ReserveVault.getReserveVaultUpdated e' st' r) := by
  unfold ReserveVault.getReserveVaultUpdated Storage.getReserveVault
  cases h.vaults r with
  | absent left right =>
    rw [left, right]
    exact .error _
  | present left right accrual =>
    rw [left, right]
    simp only [ok_bind, ReserveVault.updateRate_congr hledger]
    refine accrual.with_eq.mono fun w w' ⟨hw, _, hw'⟩ => ⟨hw, ?_⟩
    obtain ⟨fee, hfee⟩ := ReserveVault.updateRate_accrual hw'
    rw [hfee.bRate, hfee.address]
  | added isNew _ right => exact absurd isNew (hr right)

variable [DecidableEq Address]

/-- Moving the same shares and bTokens on both sides keeps them alike: what is written is at the
    pool's rate, so it accrues to itself. -/
theorem Alike.moved (h : Alike e strict new st st') {w : ReserveVault Address} {f S T bal : I128}
    (hf : strict → f = w.accruedFees) (hrate : e.bRate w.address = w.bRate) :
    Alike e strict new
      ((st.setReserveVault w.address
        { w with accruedFees := f, totalShares := S, totalBTokens := T }).setReserveVaultShares
          w.address u bal)
      ((st'.setReserveVault w.address
        { w with totalShares := S, totalBTokens := T }).setReserveVaultShares w.address u bal) where
  shares := by
    funext r u'
    simp only [Storage.getReserveVaultShares_setReserveVaultShares,
      Storage.getReserveVaultShares_setReserveVault, h.shares]
  vaults r := by
    by_cases hr : r = w.address
    -- both vaults are at the pool's rate now, so accruing them again changes the time only
    · refine .present (Storage.resVault_setReserveVault _ |>.trans (if_pos hr))
        (Storage.resVault_setReserveVault _ |>.trans (if_pos hr)) ?_
      rw [ReserveVault.updateRate_of_rate_eq
          (v := { w with accruedFees := f, totalShares := S, totalBTokens := T }) hrate,
        ReserveVault.updateRate_of_rate_eq
          (v := { w with totalShares := S, totalBTokens := T }) hrate]
      exact .ok ⟨rfl, hf⟩
    · have left : (st.setReserveVault w.address
          { w with accruedFees := f, totalShares := S, totalBTokens := T }).resVault r =
            st.resVault r := (Storage.resVault_setReserveVault st).trans (if_neg hr)
      have right : (st'.setReserveVault w.address
          { w with totalShares := S, totalBTokens := T }).resVault r = st'.resVault r :=
        (Storage.resVault_setReserveVault st').trans (if_neg hr)
      cases h.vaults r with
      | absent hl hr => exact .absent (left.trans hl) (right.trans hr)
      | present hl hr accrual => exact .present (left.trans hl) (right.trans hr) accrual
      | added isNew hl hr => exact .added isNew (left.trans hl) (right.trans hr)

/-- A deposit cannot tell the two storages apart: it accrues both to vaults that differ in the
    fees at most, and computes on the rest. -/
theorem deposit_agree (h : Alike e strict new st st') (hr : ¬ new r) (hledger : e'.SameLedger e) :
    Agree (fun x y => x.1 = y.1 ∧ Alike e strict new x.2 y.2)
      (ReserveVault.deposit e' st r u a) (ReserveVault.deposit e' st' r u a) := by
  refine .bind (getReserveVaultUpdated_agree h (fun _ => hr) hledger) fun w w' ⟨hw, hrate⟩ => ?_
  obtain ⟨f, hf, rfl⟩ : ∃ f, (strict → f = w'.accruedFees) ∧ w = { w' with accruedFees := f } :=
    ⟨_, hw.fees, hw.eq_but_fees⟩
  rw [h.shares]
  refine .bind_left (x := w'.underlyingToBTokensDown a) fun x => .bind_left fun _ =>
    .bind_left (x := w'.bTokensToSharesDown x) fun m => .bind_left fun _ => .bind_left fun S =>
    .bind_left fun T => .bind_left fun bal => .ok ⟨rfl, h.moved hf hrate⟩

/-- Neither can a withdrawal, whose checks compare the totals and the user's shares. -/
theorem withdraw_agree (h : Alike e strict new st st') (hr : ¬ new r) (hledger : e'.SameLedger e) :
    Agree (fun x y => x.1 = y.1 ∧ Alike e strict new x.2 y.2)
      (ReserveVault.withdraw e' st r u a) (ReserveVault.withdraw e' st' r u a) := by
  refine .bind (getReserveVaultUpdated_agree h (fun _ => hr) hledger) fun w w' ⟨hw, hrate⟩ => ?_
  obtain ⟨f, hf, rfl⟩ : ∃ f, (strict → f = w'.accruedFees) ∧ w = { w' with accruedFees := f } :=
    ⟨_, hw.fees, hw.eq_but_fees⟩
  rw [h.shares]
  refine .bind_left (x := w'.underlyingToBTokensUp a) fun x =>
    .bind_left (x := w'.bTokensToSharesUp x) fun m => .bind_left fun _ => ?_
  split
  · exact .error _
  split
  · exact .error _
  · exact .bind_left fun S => .bind_left fun T => .bind_left fun bal =>
      .ok ⟨rfl, h.moved hf hrate⟩

/-- **Visible step.**  A user call returns the same on both sides and keeps them alike. -/
theorem exec_user_agree {s s' : State Address} {t : Tx Address}
    (h : Alike e strict new s.storage s'.storage) (huser : t.call.isUser = true)
    (hnew : ∀ r, t.call.reserve? = some r → ¬ new r) (hledger : t.env.SameLedger e) :
    Agree (fun x y => x.1 = y.1 ∧ Alike e strict new x.2.storage y.2.storage)
      (exec s t) (exec s' t) := by
  have hhas (r : Address) (hr : ¬ new r) :
      requireHasReserve s.storage r = requireHasReserve s'.storage r := by
    unfold requireHasReserve Storage.hasReserveVault
    cases h.vaults r with
    | absent left right => rw [left, right]
    | present left right => rw [left, right]; rfl
    | added isNew => exact absurd isNew hr
  obtain ⟨e', call⟩ := t
  cases call with
  | deposit r u a =>
    have hr := hnew r rfl
    refine .map (Q := fun x y => x.1 = y.1 ∧ Alike e strict new x.2.storage y.2.storage) ?_
      fun x y hxy => ⟨congrArg some hxy.1, hxy.2⟩
    refine .bind_left fun _ => ?_
    rw [hhas r hr]
    refine .bind_left fun _ => .bind_left fun _ => .bind (Q := fun _ _ => True) ?_ fun p p' _ => ?_
    · unfold Pool.supply
      split
      · exact .ok trivial
      · exact .error _
    · refine (deposit_agree h hr hledger).bind fun x y hxy => ?_
      obtain ⟨⟨xb, xm⟩, xst⟩ := x
      obtain ⟨⟨yb, ym⟩, yst⟩ := y
      obtain ⟨⟨⟩, halike⟩ := hxy
      exact .ok ⟨rfl, halike⟩
  | withdraw r u a =>
    have hr := hnew r rfl
    refine .map (Q := fun x y => x.1 = y.1 ∧ Alike e strict new x.2.storage y.2.storage) ?_
      fun x y hxy => ⟨congrArg some hxy.1, hxy.2⟩
    refine .bind_left fun _ => ?_
    rw [hhas r hr]
    refine .bind_left fun _ => .bind_left fun _ => .bind (Q := fun _ _ => True) ?_ fun p p' _ => ?_
    · unfold Pool.withdraw
      dsimp only
      split
      · split <;> split <;> exact .ok trivial
      · exact .error _
    · refine (withdraw_agree h hr hledger).bind fun x y hxy => ?_
      obtain ⟨⟨xb, xm⟩, xst⟩ := x
      obtain ⟨⟨yb, ym⟩, yst⟩ := y
      obtain ⟨⟨⟩, halike⟩ := hxy
      exact .ok ⟨rfl, halike⟩
  | setFeeMode => cases huser
  | setAdmin => cases huser
  | addReserveVault => cases huser
  | claimEmissions => cases huser
  | claimFees => cases huser

/-! ### Admin calls -/

/-- **Hidden step.**  An admin call keeps the two sides alike, whatever it does. -/
theorem Alike.hidden {s s₁ : State Address} {t : Tx Address} {val : Value}
    (h : Alike e strict new s.storage st') (hkeyed : s.Keyed) (hlisted : s.Listed)
    (hadmin : t.call.isUser = false) (hstrict : strict → ∀ r a, t.call ≠ .claimFees r a)
    (hnew : ∀ r, t.call = .addReserveVault r → new r) (hledger : t.env.SameLedger e)
    (hexec : exec s t = .ok (val, s₁)) : Alike e strict new s₁.storage st' where
  shares := by
    rw [← h.shares]
    funext r u
    have hshares : s₁.sharesAt r = s.sharesAt r := by
      cases exec_effect hkeyed hexec r with
      | untouched _ _ _ shares => exact shares
      | opened _ _ _ shares => exact shares
      | accrued _ _ _ _ shares => exact shares
      | deposited call => rw [call] at hadmin; cases hadmin
      | withdrawn call => rw [call] at hadmin; cases hadmin
      | claimed _ _ _ _ _ _ shares => exact shares
    exact I128.ext (congrFun hshares u)
  vaults r := by
    have hr := h.vaults r
    cases exec_effect hkeyed hexec r with
    | untouched _ unlisted vault =>
      refine hr.congr vault ?_
      obtain hfm | ⟨fm, -, hcall, -⟩ := (exec_settings hexec).1
      · exact Or.inr hfm
      · -- a new fee mode finds no vault it did not accrue
        left
        by_contra hne
        obtain ⟨v, hv⟩ := Option.ne_none_iff_exists'.1 hne
        exact unlisted _ _ hcall (hlisted r v hv)
    | opened call absent vault =>
      have right : st'.resVault r = none := by
        cases hr with
        | absent _ right => exact right
        | present left => rw [State.vaultAt, left] at absent; cases absent
        | added _ _ right => exact right
      refine .added (hnew r call) (vault.trans ?_) right
      rw [hledger.1, hledger.2]
    | @accrued v w _ _ _ present accrual vault =>
      -- accrued under the old fee mode; under the new one nothing is left to accrue
      rw [ReserveVault.updateRate_congr hledger] at accrual
      cases hr with
      | absent left => rw [State.vaultAt, left] at present; cases present
      | present left right agree =>
        obtain rfl := Option.some.inj (left.symm.trans present)
        refine .present vault right ?_
        rwa [accrual, ← ReserveVault.updateRate_idem accrual rfl rfl] at agree
      | added isNew left right =>
        obtain rfl := Option.some.inj (left.symm.trans present)
        rw [ReserveVault.updateRate_of_rate_eq rfl] at accrual
        obtain rfl := Except.ok.inj accrual
        exact .added isNew vault right
    | deposited call => rw [call] at hadmin; cases hadmin
    | withdrawn call => rw [call] at hadmin; cases hadmin
    | @claimed _ _ v w call present accrual fees_pos _ vault =>
      -- only the fees differ now, which `strict` excludes
      rw [ReserveVault.updateRate_congr hledger] at accrual
      have hrate : e.bRate w.address = w.bRate ∧ w.lastUpdateTimestamp = e.timestamp := by
        obtain ⟨fee, hfee⟩ := ReserveVault.updateRate_accrual accrual
        exact ⟨by rw [hfee.bRate, hfee.address], hfee.lastUpdateTimestamp⟩
      cases hr with
      | absent left => rw [State.vaultAt, left] at present; cases present
      | present left right agree =>
        obtain rfl := Option.some.inj (left.symm.trans present)
        refine .present vault right ?_
        rw [ReserveVault.updateRate_of_rate_eq (v := { w with accruedFees := 0 }) hrate.1]
        rw [accrual] at agree
        generalize ReserveVault.updateRate e st'.feeMode _ = y at agree
        cases agree with
        | ok hw =>
          refine .ok ⟨?_, fun hs => absurd call (hstrict hs _ _)⟩
          rw [hw.eq_but_fees, ← hrate.2, hw.eq_but_fees]
      | added isNew left right =>
        obtain rfl := Option.some.inj (left.symm.trans present)
        rw [ReserveVault.updateRate_of_rate_eq rfl] at accrual
        obtain rfl := Except.ok.inj accrual
        exact absurd fees_pos (lt_irrefl _)

/-! ### Views -/

variable {s s' : State Address}

omit [DecidableEq Address] in
/-- Views of a user's position cannot tell alike states apart: they accrue the vault and then
    convert shares, and no conversion reads the fees. -/
theorem Alike.positions (h : Alike e strict new s.storage s'.storage) (hc : s'.Conserved r) :
    Contract.getShares s r u = Contract.getShares s' r u ∧
      Contract.getBTokens e s r u = Contract.getBTokens e s' r u ∧
      Contract.getUnderlyingTokens e s r u = Contract.getUnderlyingTokens e s' r u := by
  have hshares : s.storage.getReserveVaultShares r u = s'.storage.getReserveVaultShares r u := by
    rw [h.shares]
  -- a user with shares has a vault on the right
  have hagree (hu : 0 < (s'.storage.getReserveVaultShares r u).val) :=
    getReserveVaultUpdated_agree (r := r) h
      (fun habsent => absurd (hc.eq_zero_of_absent habsent u) hu.ne')
      (show e.SameLedger e from ⟨rfl, rfl⟩)
  refine ⟨hshares, ?_, ?_⟩
  · unfold Contract.getBTokens
    rw [hshares]
    dsimp only
    split
    · next hu =>
      refine Agree.eq ((hagree hu).bind fun w w' hw => ?_)
      rw [hw.1.eq_but_fees]
      exact .refl (fun _ => rfl) _
    · rfl
  · unfold Contract.getUnderlyingTokens
    rw [hshares]
    dsimp only
    split
    · next hu =>
      refine Agree.eq ((hagree hu).bind fun w w' hw => ?_)
      rw [hw.1.eq_but_fees]
      exact .refl (fun _ => rfl) _
    · rfl

omit [DecidableEq Address] in
/-- With the fees alike too, neither can the view of the collected fees. -/
theorem Alike.collectedFees (h : Alike e strict new s.storage s'.storage) (hstrict : strict) :
    Contract.getCollectedFees e s r = Contract.getCollectedFees e s' r := by
  unfold Contract.getCollectedFees Storage.hasReserveVault
  cases h.vaults r with
  | absent left right => rw [left, right]; rfl
  | present left right accrual =>
    rw [left, right]
    refine Agree.eq (.bind (Q := Eq) ?_ fun w w' hw => hw ▸ .refl (fun _ => rfl) _)
    simp only [ReserveVault.getReserveVaultUpdated, Storage.getReserveVault, left, right, ok_bind]
    exact accrual.mono fun w w' hw => hw.eq hstrict
  | added _ left right =>
    -- a new reserve has no fees yet
    rw [left, right]
    simp only [ReserveVault.getReserveVaultUpdated, Storage.getReserveVault, left, ok_bind,
      Option.isSome_some, if_true, Option.isSome_none]
    rw [ReserveVault.updateRate_of_rate_eq rfl]
    simp only [ok_bind, Bool.false_eq_true, if_false, pure_eq_ok]
    rw [ReserveVault.bTokensToUnderlyingDown_eq_ok]
    refine ⟨fitsI128_of_lt ?_ ?_, ?_⟩ <;> simp

/-! ### Over runs -/

/-- What a user can observe of two states in the ledger of `e`. -/
structure SamePositions (e : Env Address) (s s' : State Address) : Prop where
  shares : ∀ r u, Contract.getShares s r u = Contract.getShares s' r u
  bTokens : ∀ r u, Contract.getBTokens e s r u = Contract.getBTokens e s' r u
  underlyingTokens : ∀ r u,
    Contract.getUnderlyingTokens e s r u = Contract.getUnderlyingTokens e s' r u

/-- **Non-interference.**  Within the ledger of `e`, from any reachable state, take a run `ts` of
    user and admin calls, opening only reserves its user calls do not touch.  Leaving the admin
    calls out, every user call returns or fails the same, and every position shows the same
    afterwards; and so do the collected fees unless some were claimed. -/
theorem admin_noninterference {ts : List (Tx Address)} (hs : Reachable (fun _ => True) s)
    (hledger : ∀ t ∈ ts, t.env.SameLedger e)
    (hnew : ∀ t ∈ ts, ∀ r, t.call = .addReserveVault r →
      ∀ t' ∈ ts, t'.call.isUser = true → t'.call.reserve? ≠ some r) :
    Revert.results exec (fun t => t.call.isUser) s ts =
        Revert.results exec (fun t => t.call.isUser) s (ts.filter fun t => t.call.isUser) ∧
      SamePositions e (Revert.run exec s ts)
        (Revert.run exec s (ts.filter fun t => t.call.isUser)) ∧
      ((∀ t ∈ ts, ∀ r toAddr, t.call ≠ .claimFees r toAddr) → ∀ r,
        Contract.getCollectedFees e (Revert.run exec s ts) r =
          Contract.getCollectedFees e
            (Revert.run exec s (ts.filter fun t => t.call.isUser)) r) := by
  let strict := ∀ t ∈ ts, ∀ r toAddr, t.call ≠ .claimFees r toAddr
  let new := fun r => ∀ t ∈ ts, t.call.isUser = true → t.call.reserve? ≠ some r
  let R := fun s s' : State Address => Reachable (fun _ => True) s ∧
    Reachable (fun _ => True) s' ∧ Alike e strict new s.storage s'.storage
  have hvisible (s s' : State Address) (t : Tx Address) (ht : t ∈ ts)
      (huser : t.call.isUser = true) (h : R s s') :
      R (Revert.step exec s t) (Revert.step exec s' t) ∧
        (exec s t).map Prod.fst = (exec s' t).map Prod.fst := by
    obtain ⟨hr, hr', halike⟩ := h
    obtain ⟨hstep, hout⟩ := Revert.step_of_agree
      (R := fun s s' : State Address => Alike e strict new s.storage s'.storage) halike
      (exec_user_agree halike huser (fun r hr hn => hn t ht huser hr) (hledger t ht))
    exact ⟨⟨hr.step trivial, hr'.step trivial, hstep⟩, hout⟩
  have hhidden (s s' : State Address) (t : Tx Address) (ht : t ∈ ts)
      (hadmin : t.call.isUser = false) (h : R s s') : R (Revert.step exec s t) s' := by
    obtain ⟨hr, hr', halike⟩ := h
    refine ⟨hr.step trivial, hr', ?_⟩
    refine Revert.step_induction
      (I := fun s : State Address => Alike e strict new s.storage s'.storage) halike
      fun val s₁ h => ?_
    exact halike.hidden hr.keyed hr.listed hadmin (fun hclaims => hclaims t ht)
      (fun r hcall => hnew t ht r hcall) (hledger t ht) h
  obtain ⟨⟨hr, hr', halike⟩, hresults⟩ := Revert.run_purge hvisible hhidden (fun t ht => ht)
    ⟨hs, hs, Alike.refl s.storage⟩
  refine ⟨hresults, ⟨?_, ?_, ?_⟩, ?_⟩
  · intro r u
    exact (halike.positions (hr'.conserved r)).1
  · intro r u
    exact (halike.positions (hr'.conserved r)).2.1
  · intro r u
    exact (halike.positions (hr'.conserved r)).2.2
  · intro hclaims r
    exact halike.collectedFees hclaims

/-- One ledger of the concrete run's future: two user calls among three admin calls. -/
def Demo.ledgerTxs : List (Tx ℕ) :=
  [⟨env 50 (I128.ofUInt64 1300000000000) 0, .setFeeMode true (I128.ofUInt64 500000)⟩,
   ⟨env 50 (I128.ofUInt64 1300000000000) 3, .deposit 7 3 (I128.ofUInt64 33333333)⟩,
   ⟨env 50 (I128.ofUInt64 1300000000000) 0, .addReserveVault 8⟩,
   ⟨env 50 (I128.ofUInt64 1300000000000) 4, .withdraw 7 4 (I128.ofUInt64 22222222)⟩,
   ⟨env 50 (I128.ofUInt64 1300000000000) 0, .setFeeMode false (I128.ofUInt64 2000000)⟩]

omit [FixedPoint] in
/-- Its user calls return `26056933` and `17371290` shares with or without the admin's, and the
    fees collected from reserve `7` are the same. -/
theorem admin_noninterference_demo :
    (Revert.results (@exec ℕ _ FixedPoint.reference) (fun t => t.call.isUser) Demo.state
        (Demo.ledgerTxs.filter fun t => t.call.isUser)
      = [.ok (some (I128.ofUInt64 26056933)), .ok (some (I128.ofUInt64 17371290))]) ∧
    @Contract.getCollectedFees ℕ FixedPoint.reference
        (Demo.env 50 (I128.ofUInt64 1300000000000) 0)
        (Revert.run (@exec ℕ _ FixedPoint.reference) Demo.state Demo.ledgerTxs) 7 =
      @Contract.getCollectedFees ℕ FixedPoint.reference
        (Demo.env 50 (I128.ofUInt64 1300000000000) 0)
        (Revert.run (@exec ℕ _ FixedPoint.reference) Demo.state
          (Demo.ledgerTxs.filter fun t => t.call.isUser)) 7 := by
  have hledger : ∀ t ∈ Demo.ledgerTxs,
      t.env.SameLedger (Demo.env 50 (I128.ofUInt64 1300000000000) 0) := by
    intro t ht
    simp only [Demo.ledgerTxs, List.mem_cons, List.not_mem_nil, or_false] at ht
    obtain rfl | rfl | rfl | rfl | rfl := ht <;> exact ⟨rfl, rfl⟩
  have hcalls : ∀ t ∈ Demo.ledgerTxs, (∀ r, t.call = .addReserveVault r → r = 8) ∧
      (t.call.isUser = true → t.call.reserve? = some 7) ∧
      ∀ r toAddr, t.call ≠ .claimFees r toAddr := by
    intro t ht
    simp only [Demo.ledgerTxs, List.mem_cons, List.not_mem_nil, or_false] at ht
    obtain rfl | rfl | rfl | rfl | rfl := ht <;> simp [Call.isUser, Call.reserve?]
  obtain ⟨hresults, -, hfees⟩ := @admin_noninterference ℕ FixedPoint.reference
    (Demo.env 50 (I128.ofUInt64 1300000000000) 0) _ Demo.state Demo.ledgerTxs
    (Demo.state_reachable.mono fun _ _ => trivial) hledger fun t ht r hr t' ht' huser => by
      rw [(hcalls t ht).1 r hr, (hcalls t' ht').2.1 huser]
      decide
  exact ⟨hresults.symm.trans (by decide), hfees (fun t ht => (hcalls t ht).2.2) 7⟩

end FeeVault
