import FeeVault.Accounting

namespace FeeVault

/-!
# The event log is a complete record

Whoever only reads the events the contract publishes can keep the books: `Index.record` is such a
reader, and `replay_events` says that at every point of every run its books are those of the
contract — each user's shares, the totals, what each reserve owes in bTokens, what the pool was
asked to pay out of it, the reserves in their order and the fee mode.  No assumption on the pool's
rates is needed, since accrual moves bTokens between depositors and admin without an event but does
not change what is owed to both; at positive rates what was asked for is also what the pool paid.

The admin is not in the books: `set_admin` publishes nothing.  Nor are the recipients of the fees,
which `vault_fee_claim` does not name.
-/

variable {Address : Type}

/-- The books a reader of the events keeps. -/
@[ext] structure Index (Address : Type) where
  feeMode : FeeMode
  reserves : List Address
  shares : Address → Address → ℤ
  totalShares : Address → ℤ
  /-- Depositors' and admin's bTokens together. -/
  owed : Address → ℤ
  /-- The underlying the pool was asked to pay out. -/
  requested : Address → ℤ

namespace Index

/-- The books before the first event. -/
def fresh (feeMode : FeeMode) : Index Address :=
  ⟨feeMode, [], fun _ _ => 0, fun _ => 0, fun _ => 0, fun _ => 0⟩

variable [DecidableEq Address]

/-- Book a movement of shares and bTokens of one user. -/
def book (i : Index Address) (reserve user : Address) (shares bTokens : ℤ) : Index Address :=
  { i with
    shares := Function.update i.shares reserve
      (Function.update (i.shares reserve) user (i.shares reserve user + shares))
    totalShares := Function.update i.totalShares reserve (i.totalShares reserve + shares)
    owed := Function.update i.owed reserve (i.owed reserve + bTokens) }

/-- Book a payment the pool is asked for. -/
def pay (i : Index Address) (reserve : Address) (amount : ℤ) : Index Address :=
  { i with requested := Function.update i.requested reserve (i.requested reserve + amount) }

/-- Book one event. -/
def record (i : Index Address) : Event Address → Index Address
  | .newReserveVault reserve => { i with reserves := i.reserves ++ [reserve] }
  | .vaultDeposit reserve user _ shares bTokens => i.book reserve user shares bTokens
  | .vaultWithdraw reserve user amount shares bTokens =>
    (i.book reserve user (-shares.val) (-bTokens.val)).pay reserve amount
  | .vaultFeeClaim reserve _ amount bTokens =>
    { i with owed := Function.update i.owed reserve (i.owed reserve - bTokens.val) }.pay reserve
      amount
  | .vaultEmissionsClaim _ _ _ => i
  | .feeModeUpdate isAprCapped value => { i with feeMode := ⟨isAprCapped, value⟩ }

end Index

variable [DecidableEq Address]

namespace State

/-- What the pool was asked to pay out of the position in `r`. -/
def requestedAt (s : State Address) (r : Address) : ℤ :=
  ((s.pool.payouts.filter (·.reserve = r)).map (·.requested)).sum

/-- The books as the contract and the pool keep them. -/
def index (s : State Address) : Index Address :=
  ⟨s.storage.feeMode, s.storage.getReserves, s.sharesAt, s.totalSharesAt, s.owedAt, s.requestedAt⟩

end State

variable [FixedPoint]
variable {e : Env Address} {s s' : State Address} {t : Tx Address} {r u : Address} {a x y : I128}
  {val : Value}

/-! ### What a transaction publishes -/

/-- The events of a committed transaction, with the bookkeeping and the payments they report. -/
inductive Published (t : Tx Address) (s s' : State Address) : List (Event Address) → Prop
  | setFeeMode {isAprCapped : Bool} {value : I128}
      (call : t.call = .setFeeMode isAprCapped value)
      (feeMode : s'.storage.feeMode = ⟨isAprCapped, value⟩)
      (pool : s'.pool = s.pool) : Published t s s' [.feeModeUpdate isAprCapped value]
  | setAdmin {admin : Address} (call : t.call = .setAdmin admin) (pool : s'.pool = s.pool) :
      Published t s s' []
  | addReserveVault {r : Address} (call : t.call = .addReserveVault r) (pool : s'.pool = s.pool) :
      Published t s s' [.newReserveVault r]
  | claimEmissions {ids : List UInt32} {toAddr : Address} {amount : I128}
      (call : t.call = .claimEmissions ids toAddr) (pool : s'.pool = s.pool) :
      Published t s s' [.vaultEmissionsClaim s.storage.admin ids amount]
  | claimFees {r toAddr : Address} {x a : I128} (call : t.call = .claimFees r toAddr)
      (booked : ReserveVault.claimFees t.env s.storage r = .ok ((x, a), s'.storage))
      (pool : s.pool.withdraw t.env r toAddr a = .ok s'.pool) :
      Published t s s' [.vaultFeeClaim r s.storage.admin a x]
  | deposit {r u : Address} {a x m : I128} (call : t.call = .deposit r u a)
      (booked : ReserveVault.deposit t.env s.storage r u a = .ok ((x, m), s'.storage))
      (pool : s.pool.supply t.env r a = .ok s'.pool) :
      Published t s s' [.vaultDeposit r u a m x]
  | withdraw {r u : Address} {a x m : I128} (call : t.call = .withdraw r u a)
      (booked : ReserveVault.withdraw t.env s.storage r u a = .ok ((x, m), s'.storage))
      (pool : s.pool.withdraw t.env r u a = .ok s'.pool) :
      Published t s s' [.vaultWithdraw r u a m x]

/-- A committed transaction appends its events to the log, and which ones depends on the call
    alone.  The amounts in them are those it has stored and moved. -/
theorem exec_published (h : exec s t = .ok (val, s')) :
    ∃ evs, s'.events = s.events ++ evs ∧ Published t s s' evs := by
  obtain ⟨e, call⟩ := t
  cases call with
  | setFeeMode isAprCapped value =>
    simp only [exec, map_eq_ok, Contract.setFeeMode, bind_eq_ok, pure_eq_ok, Prod.mk.injEq] at h
    obtain ⟨s₁, ⟨-, -, -, -, st, -, h⟩, -, rfl⟩ := h
    obtain rfl := Except.ok.inj h
    exact ⟨_, rfl, .setFeeMode rfl rfl rfl⟩
  | setAdmin admin =>
    simp only [exec, map_eq_ok, Contract.setAdmin, bind_eq_ok, pure_eq_ok, Prod.mk.injEq] at h
    obtain ⟨s₁, ⟨-, -, -, -, h⟩, -, rfl⟩ := h
    obtain rfl := Except.ok.inj h
    exact ⟨[], (List.append_nil _).symm, .setAdmin rfl rfl⟩
  | addReserveVault r =>
    simp only [exec, map_eq_ok, Contract.addReserveVault, bind_eq_ok, Prod.mk.injEq] at h
    obtain ⟨s₁, ⟨-, -, h⟩, -, rfl⟩ := h
    split at h
    · cases h
    · obtain rfl := Except.ok.inj h
      exact ⟨_, rfl, .addReserveVault rfl rfl⟩
  | claimEmissions ids toAddr =>
    simp only [exec, map_eq_ok, Contract.claimEmissions, bind_eq_ok, pure_eq_ok,
      Prod.mk.injEq] at h
    obtain ⟨⟨y, s₁⟩, ⟨-, -, amount, -, h⟩, -, rfl⟩ := h
    obtain ⟨-, rfl⟩ := Prod.mk.inj (Except.ok.inj h)
    exact ⟨_, rfl, .claimEmissions rfl rfl⟩
  | claimFees r toAddr =>
    simp only [exec, map_eq_ok, Contract.claimFees, bind_eq_ok, pure_eq_ok, Prod.mk.injEq] at h
    obtain ⟨⟨y, s₁⟩, ⟨-, -, -, -, ⟨⟨x, a⟩, st⟩, hst, p, hp, h⟩, -, rfl⟩ := h
    obtain ⟨-, rfl⟩ := Prod.mk.inj (Except.ok.inj h)
    exact ⟨_, rfl, .claimFees rfl hst hp⟩
  | deposit r u a =>
    simp only [exec, map_eq_ok, Contract.deposit, bind_eq_ok, pure_eq_ok, Prod.mk.injEq] at h
    obtain ⟨⟨y, s₁⟩, ⟨-, -, -, -, -, -, p, hp, ⟨⟨x, m⟩, st⟩, hst, h⟩, -, rfl⟩ := h
    obtain ⟨-, rfl⟩ := Prod.mk.inj (Except.ok.inj h)
    exact ⟨_, rfl, .deposit rfl hst hp⟩
  | withdraw r u a =>
    simp only [exec, map_eq_ok, Contract.withdraw, bind_eq_ok, pure_eq_ok, Prod.mk.injEq] at h
    obtain ⟨⟨y, s₁⟩, ⟨-, -, -, -, -, -, p, hp, ⟨⟨x, m⟩, st⟩, hst, h⟩, -, rfl⟩ := h
    obtain ⟨-, rfl⟩ := Prod.mk.inj (Except.ok.inj h)
    exact ⟨_, rfl, .withdraw rfl hst hp⟩

/-! ### The books follow -/

omit [FixedPoint] in
/-- The requests of a pool that paid nothing new. -/
theorem State.requestedAt_of_payouts (h : s'.pool.payouts = s.pool.payouts) :
    s'.requestedAt = s.requestedAt := by
  funext r
  rw [State.requestedAt, h, State.requestedAt]

omit [FixedPoint] in
/-- The requests after a withdrawal from the pool: one more, whether or not it was covered. -/
theorem State.requestedAt_withdraw {toAddr : Address}
    (h : s.pool.withdraw e r toAddr a = .ok s'.pool) :
    s'.requestedAt = Function.update s.requestedAt r (s.requestedAt r + a.val) := by
  obtain ⟨paid, hpaid⟩ := Pool.withdraw_payout h
  funext r'
  rw [State.requestedAt, hpaid, List.filter_cons]
  by_cases hr : r' = r
  · subst hr
    rw [if_pos (decide_eq_true rfl), List.map_cons, List.sum_cons, Function.update_self, add_comm]
    rfl
  · rw [if_neg (by simpa using Ne.symm hr), Function.update_of_ne hr]
    rfl

/-- The books of a movement of `d` shares and `x` bTokens, carried out on the accrued vault; what
    the pool does with it is booked apart. -/
theorem index_moved {v w : ReserveVault Address} {S T bal : I128} {d x : ℤ}
    (hv : s.vaultAt r = some v) (hw : v.updateRate e s.storage.feeMode = .ok w)
    (haddr : w.address = r) (hS : S.val = w.totalShares.val + d)
    (hT : T.val = w.totalBTokens.val + x) (hbal : bal.val = s.sharesAt w.address u + d)
    (hstorage : s'.storage = (s.storage.setReserveVault w.address
      { w with totalShares := S, totalBTokens := T }).setReserveVaultShares w.address u bal) :
    s'.index = { s.index.book r u d x with requested := s'.requestedAt } := by
  obtain ⟨fee, hfee⟩ := ReserveVault.updateRate_accrual hw
  have howed := ReserveVault.updateRate_owed hw
  subst haddr
  have hshares := sharesAt_setReserveVaultShares (s := s) hstorage hbal
  have hvault := vaultAt_setReserveVaultShares (s := s) hstorage
  ext r' u'
  case feeMode => simp [State.index, Index.book, hstorage, Storage.setReserveVaultShares,
    Storage.setReserveVault]
  case reserves => simp [State.index, Index.book, hstorage, Storage.getReserves,
    Storage.setReserveVaultShares, Storage.setReserveVault]
  case shares =>
    show s'.sharesAt r' u' = Function.update s.sharesAt w.address _ r' u'
    rw [hshares]
    by_cases hr : r' = w.address
    · subst hr
      rw [if_pos rfl, Function.update_self]
      rfl
    · rw [if_neg hr, Function.update_of_ne hr]
  case totalShares =>
    show s'.totalSharesAt r' = Function.update s.totalSharesAt w.address _ r'
    by_cases hr : r' = w.address
    · subst hr
      have hnew := (hvault w.address).trans (if_pos rfl)
      rw [Function.update_self, State.totalSharesAt_some hnew]
      show S.val = s.totalSharesAt w.address + d
      rw [State.totalSharesAt_some hv, hS, hfee.totalShares]
    · rw [Function.update_of_ne hr, State.totalSharesAt, hvault, if_neg hr, State.totalSharesAt]
  case owed =>
    show s'.owedAt r' = Function.update s.owedAt w.address _ r'
    by_cases hr : r' = w.address
    · subst hr
      have hnew := (hvault w.address).trans (if_pos rfl)
      rw [Function.update_self, State.owedAt_some hnew]
      show T.val + w.accruedFees.val = s.owedAt w.address + x
      rw [State.owedAt_some hv, ← howed, ReserveVault.owed]
      omega
    · rw [Function.update_of_ne hr, State.owedAt, hvault, if_neg hr, State.owedAt]
  case requested => rfl

/-- Calls other than movements leave the shares alone, the total included, although they
    may accrue, … -/
theorem Effect.shares_kept (h : Effect t r s s') (hdeposit : ∀ r u a, t.call ≠ .deposit r u a)
    (hwithdraw : ∀ r u a, t.call ≠ .withdraw r u a) :
    s'.sharesAt r = s.sharesAt r ∧ s'.totalSharesAt r = s.totalSharesAt r := by
  have haccrued {v w : ReserveVault Address} (present : s.vaultAt r = some v)
      (accrual : v.updateRate t.env s.storage.feeMode = .ok w) :
      w.totalShares.val = s.totalSharesAt r := by
    obtain ⟨fee, hfee⟩ := ReserveVault.updateRate_accrual accrual
    rw [hfee.totalShares, State.totalSharesAt_some present]
  cases h with
  | untouched _ _ vault shares =>
    exact ⟨shares, by rw [State.totalSharesAt, vault, State.totalSharesAt]⟩
  | opened _ absent vault shares =>
    refine ⟨shares, ?_⟩
    rw [State.totalSharesAt_some vault, State.totalSharesAt, absent]
    rfl
  | accrued _ present accrual vault shares =>
    exact ⟨shares, by rw [State.totalSharesAt_some vault, haccrued present accrual]⟩
  | deposited call => exact absurd call (hdeposit _ _ _)
  | withdrawn call => exact absurd call (hwithdraw _ _ _)
  | claimed _ present accrual _ _ vault shares =>
    exact ⟨shares, by rw [State.totalSharesAt_some vault, haccrued present accrual]⟩

/-- … and what is owed, since accrual moves bTokens from depositors to the admin only.  A fee
    claim pays the fees and is left out. -/
theorem Effect.owed_kept (h : Effect t r s s') (hdeposit : ∀ r u a, t.call ≠ .deposit r u a)
    (hwithdraw : ∀ r u a, t.call ≠ .withdraw r u a)
    (hclaim : ∀ toAddr, t.call ≠ .claimFees r toAddr) : s'.owedAt r = s.owedAt r := by
  cases h with
  | untouched _ _ vault => rw [State.owedAt, vault, State.owedAt]
  | opened _ absent vault =>
    rw [State.owedAt_some vault, State.owedAt, absent]
    rfl
  | accrued _ present accrual vault =>
    rw [State.owedAt_some vault, State.owedAt_some present, ReserveVault.updateRate_owed accrual]
  | deposited call => exact absurd call (hdeposit _ _ _)
  | withdrawn call => exact absurd call (hwithdraw _ _ _)
  | claimed call => exact absurd call (hclaim _)

/-- The books of a call that moves neither shares nor underlying: only the fee mode and the list
    of reserves may differ. -/
theorem index_kept (hs : s.Keyed) (h : exec s t = .ok (val, s')) (hpool : s'.pool = s.pool)
    (hdeposit : ∀ r u a, t.call ≠ .deposit r u a) (hwithdraw : ∀ r u a, t.call ≠ .withdraw r u a)
    (hclaim : ∀ r toAddr, t.call ≠ .claimFees r toAddr) :
    s'.index = { s.index with
      feeMode := s'.storage.feeMode
      reserves := s.storage.getReserves ++ t.call.opens } := by
  ext r u
  case feeMode => rfl
  case reserves => rw [State.index, (exec_settings h).2]
  case shares => exact congrFun ((exec_effect hs h r).shares_kept hdeposit hwithdraw).1 u
  case totalShares => exact ((exec_effect hs h r).shares_kept hdeposit hwithdraw).2
  case owed => exact (exec_effect hs h r).owed_kept hdeposit hwithdraw (hclaim r)
  case requested => exact congrFun (State.requestedAt_of_payouts (congrArg Pool.payouts hpool)) r

/-- **Record step.**  What a committed transaction publishes brings the books up to date. -/
theorem Published.index {evs : List (Event Address)} (hpub : Published t s s' evs) (hs : s.Keyed)
    (h : exec s t = .ok (val, s')) : s'.index = evs.foldl Index.record s.index := by
  have hfeeMode (hcall : ∀ isAprCapped value, t.call ≠ .setFeeMode isAprCapped value) :
      s'.storage.feeMode = s.storage.feeMode :=
    (exec_settings h).1.resolve_right fun ⟨fm, _, hset, _⟩ => hcall _ _ hset
  cases hpub with
  | setFeeMode call feeMode pool =>
    rw [index_kept hs h pool (by simp [call]) (by simp [call]) (by simp [call]), feeMode, call]
    simp [State.index, Index.record, Call.opens]
  | setAdmin call pool | claimEmissions call pool =>
    rw [index_kept hs h pool (by simp [call]) (by simp [call]) (by simp [call]),
      hfeeMode (by simp [call]), call]
    simp [State.index, Index.record, Call.opens]
  | addReserveVault call pool =>
    rw [index_kept hs h pool (by simp [call]) (by simp [call]) (by simp [call]),
      hfeeMode (by simp [call]), call]
    simp [State.index, Index.record, Call.opens]
  | @claimFees r toAddr x a call booked pool =>
    obtain ⟨w, hw, rfl, -, -, hstorage⟩ := ReserveVault.claimFees_eq_ok booked
    obtain ⟨v, hv, hvw⟩ := ReserveVault.getReserveVaultUpdated_eq_ok.1 hw
    obtain rfl : w.address = r := (ReserveVault.updateRate_address hvw).trans (hs r v hv)
    have howed := ReserveVault.updateRate_owed hvw
    have hvault (r' : Address) : s'.vaultAt r' =
        if r' = w.address then some { w with accruedFees := 0 } else s.vaultAt r' := by
      rw [State.vaultAt, hstorage]
      exact Storage.resVault_setReserveVault _
    ext r' u'
    case feeMode => exact hfeeMode (by simp [call])
    case reserves =>
      rw [State.index, (exec_settings h).2, call]
      simp [State.index, Index.record, Index.pay, Call.opens]
    case shares =>
      exact congrFun ((exec_effect hs h r').shares_kept (by simp [call]) (by simp [call])).1 u'
    case totalShares =>
      exact ((exec_effect hs h r').shares_kept (by simp [call]) (by simp [call])).2
    case owed =>
      show s'.owedAt r' = Function.update s.owedAt w.address _ r'
      by_cases hr : r' = w.address
      · subst hr
        rw [Function.update_self, State.owedAt_some ((hvault _).trans (if_pos rfl))]
        show w.totalBTokens.val + (0 : I128).val = s.owedAt w.address - w.accruedFees.val
        rw [State.owedAt_some hv, ← howed, ReserveVault.owed, I128.val_zero]
        ring
      · rw [Function.update_of_ne hr, State.owedAt, hvault, if_neg hr, State.owedAt]
    case requested => exact congrFun (State.requestedAt_withdraw pool) r'
  | @deposit r u a x m call booked pool =>
    obtain ⟨w, S, T, bal, hw, -, -, -, -, hS, hT, hbal, hstorage⟩ :=
      ReserveVault.deposit_eq_ok booked
    obtain ⟨v, hv, hvw⟩ := ReserveVault.getReserveVaultUpdated_eq_ok.1 hw
    have haddr : w.address = r := (ReserveVault.updateRate_address hvw).trans (hs r v hv)
    rw [index_moved hv hvw haddr hS hT hbal hstorage,
      State.requestedAt_of_payouts (Pool.supply_payouts pool)]
    rfl
  | @withdraw r u a x m call booked pool =>
    obtain ⟨w, S, T, bal, hw, -, -, -, -, -, -, hS, hT, hbal, hstorage⟩ :=
      ReserveVault.withdraw_eq_ok booked
    obtain ⟨v, hv, hvw⟩ := ReserveVault.getReserveVaultUpdated_eq_ok.1 hw
    have haddr : w.address = r := (ReserveVault.updateRate_address hvw).trans (hs r v hv)
    rw [index_moved hv hvw haddr hS hT hbal hstorage, State.requestedAt_withdraw pool]
    rfl

/-! ### Over runs -/

omit [FixedPoint] in
/-- A reader starts from the fee mode of the constructor and an empty log. -/
theorem Deployed.index (hs : Deployed s) :
    s.index = Index.fresh s.storage.feeMode ∧ s.events = [] := by
  obtain ⟨e, admin, pool, isAprCapped, value, h⟩ := hs
  simp only [Contract.constructor, bind_eq_ok, pure_eq_ok] at h
  obtain ⟨-, -, -, -, h⟩ := h
  obtain rfl := Except.ok.inj h
  exact ⟨rfl, rfl⟩

/-- At positive rates the position covers every request, so the pool has paid what it was asked
    for: the books then say what left the vault, and not only what the contract wanted to leave. -/
theorem Reachable.paidAt_eq (hs : Reachable Env.PositiveRates s) (r : Address) :
    s.paidAt r = s.requestedAt r := by
  rw [State.paidAt, State.requestedAt]
  exact congrArg List.sum (List.map_congr_left fun p hp =>
    hs.solvent.paid_in_full p (List.mem_of_mem_filter hp))

/-- **Complete record.**  At the end of any run from deployment — so at any point of it — the books
    of a reader who has seen all events and knows the fee mode of the constructor are those of the
    contract; and at positive rates what the books say was asked of the pool is what it paid. -/
theorem replay_events {s₀ : State Address} (hs₀ : Deployed s₀) (ts : List (Tx Address)) :
    (Revert.run exec s₀ ts).index =
        (Revert.run exec s₀ ts).events.foldl Index.record (Index.fresh s₀.storage.feeMode) ∧
      ((∀ t ∈ ts, t.env.PositiveRates) → ∀ r, (Revert.run exec s₀ ts).paidAt r =
        ((Revert.run exec s₀ ts).events.foldl Index.record
          (Index.fresh s₀.storage.feeMode)).requested r) := by
  obtain ⟨hindex, hevents⟩ := hs₀.index
  have hreach : Reachable (fun _ => True) s₀ := .init hs₀
  obtain ⟨evs, hlog, hview⟩ := Revert.run_replay
    (fun s t val s' hs (h : exec s t = .ok (val, s')) =>
      Revert.step_ok h ▸ Revert.Reachable.step hs trivial)
    (fun s t val s' hs h => by
      obtain ⟨evs, hevents, hpub⟩ := exec_published h
      exact ⟨evs, hevents, hpub.index hs.keyed h⟩) hreach
  rw [hevents, List.nil_append] at hlog
  rw [hlog, ← hindex, ← hview]
  refine ⟨rfl, fun hts r => ?_⟩
  have hpriced : Reachable Env.PositiveRates (Revert.run exec s₀ ts) :=
    Revert.Reachable.run (.init hs₀) hts
  exact hpriced.paidAt_eq r

omit [FixedPoint] in
/-- The books of the concrete run, read from its four events. -/
theorem replay_events_demo :
    Demo.state.index = Demo.state.events.foldl Index.record
        (Index.fresh ⟨false, I128.ofUInt64 1000000⟩) ∧
      Demo.state.paidAt 7 = (Demo.state.events.foldl Index.record
        (Index.fresh ⟨false, I128.ofUInt64 1000000⟩)).requested 7 := by
  obtain ⟨hindex, hpaid⟩ :=
    @replay_events ℕ _ FixedPoint.reference _ Demo.deployed_deployed Demo.txs
  exact ⟨hindex, hpaid Demo.txs_positiveRates 7⟩

example : (Demo.state.events.foldl Index.record
    (Index.fresh ⟨false, I128.ofUInt64 1000000⟩)).owed 7 = 136447817 := by decide

end FeeVault
