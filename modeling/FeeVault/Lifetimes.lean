import FeeVault.Contract
import FeeVault.Lib.Leases

namespace FeeVault

open Lease

/-!
# How long entries live

`storage.rs` again, with its calls of `extend_ttl`: everything the contract stores is on a lease
that only these prolong.

* `Entry` — the entries that have a lease of their own: the instance, under which the contract keeps
  the admin, the pool and the fee mode, and each persistent entry;
* `Metered` — the contract's functions as computations that leave a log of the accesses that bear on
  a lease, line by line those of `ReserveVault` and `Contract`;
* `plain_respond` — without its log, each is the function it repeats;
* `Request` — a call or a view, since views extend leases too.
-/

variable {Address : Type}

/-! ### Entries -/

/-- What has a lease of its own. -/
inductive Entry (Address : Type) where
  /-- The instance. -/
  | shared
  /-- The entry under `RESERVES_KEY`. -/
  | reserves
  | resVault (reserve : Address)
  | deposit (key : DepositKey Address)
  deriving DecidableEq

/-- Assumes 5 seconds per ledger on average. -/
def oneDayLedgers : ℕ := 17280

def ledgerBumpShared : ℕ := 31 * oneDayLedgers
def ledgerThresholdShared : ℕ := ledgerBumpShared - oneDayLedgers

def ledgerBumpUser : ℕ := 120 * oneDayLedgers
def ledgerThresholdUser : ℕ := ledgerBumpUser - 20 * oneDayLedgers

/-- A computation that leaves a log of what bears on the leases. -/
abbrev Metered (Address α : Type) :=
  WriterT (List (Access (Entry Address))) (Except Failure) α

namespace Metered

/-- `set` on the entry `k`. -/
def set (k : Entry Address) : Metered Address PUnit := tell [.set k]

/-- `extend_ttl` on the entry `k`. -/
def extendTtl (k : Entry Address) (threshold extendTo : ℕ) : Metered Address PUnit :=
  tell [.extendTtl k threshold extendTo]

/-- `unwrap_optimized` on an arithmetic result. -/
def unwrapOptimized {α : Type} (o : Option α) : Metered Address α :=
  liftM (FeeVault.unwrapOptimized o)

/-! ### `storage.rs` -/

namespace Storage

/-- Bump the instance lifetime by the defined amount. -/
def extendInstance : Metered Address PUnit :=
  extendTtl .shared ledgerThresholdShared ledgerBumpShared

variable (st : FeeVault.Storage Address)

/-- A reserve's vault data. -/
def getReserveVault (reserve : Address) : Metered Address (FeeVault.ReserveVault Address) :=
  match st.resVault reserve with
  | some reserveData => do
    extendTtl (.resVault reserve) ledgerThresholdUser ledgerBumpUser
    pure reserveData
  | none => throw (.contract .reserveNotFound)

/-- The number of vault shares a user owns. -/
def getReserveVaultShares (reserve user : Address) : Metered Address I128 :=
  match st.deposit ⟨reserve, user⟩ with
  | some shares => do
    extendTtl (.deposit ⟨reserve, user⟩) ledgerThresholdUser ledgerBumpUser
    pure shares
  | none => pure 0

/-- All the supported reserves. -/
def getReserves : Metered Address (List Address) :=
  match st.reserves with
  | some reserves => do
    extendTtl .reserves ledgerThresholdUser ledgerBumpUser
    pure reserves
  | none => pure []

/-- Add a reserve to the list of supported reserves. -/
def addReserveToReserves (reserve : Address) : Metered Address (FeeVault.Storage Address) := do
  let reserves ← getReserves st
  set .reserves
  extendTtl .reserves ledgerThresholdUser ledgerBumpUser
  pure { st with reserves := some (reserves ++ [reserve]) }

variable [DecidableEq Address]

/-- Set a reserve's vault data. -/
def setReserveVault (reserve : Address) (vault : FeeVault.ReserveVault Address) :
    Metered Address (FeeVault.Storage Address) := do
  set (.resVault reserve)
  extendTtl (.resVault reserve) ledgerThresholdUser ledgerBumpUser
  pure (st.setReserveVault reserve vault)

/-- Set the number of vault shares a user owns. -/
def setReserveVaultShares (reserve user : Address) (shares : I128) :
    Metered Address (FeeVault.Storage Address) := do
  set (.deposit ⟨reserve, user⟩)
  extendTtl (.deposit ⟨reserve, user⟩) ledgerThresholdUser ledgerBumpUser
  pure (st.setReserveVaultShares reserve user shares)

end Storage

variable [FixedPoint]

/-! ### `reserve_vault.rs` -/

namespace ReserveVault

/-- Get the reserve vault from storage and update the bRate. -/
def getReserveVaultUpdated (e : Env Address) (st : FeeVault.Storage Address) (address : Address) :
    Metered Address (FeeVault.ReserveVault Address) := do
  let vault ← Storage.getReserveVault st address
  vault.updateRate e st.feeMode

variable [DecidableEq Address]

/-- Deposit into the reserve vault. -/
def deposit (e : Env Address) (st : FeeVault.Storage Address) (reserve user : Address)
    (amount : I128) : Metered Address ((I128 × I128) × FeeVault.Storage Address) := do
  let vault ← getReserveVaultUpdated e st reserve
  let bTokensAmount ← vault.underlyingToBTokensDown amount
  requirePositive bTokensAmount .invalidBTokensMinted
  let userShares ← Storage.getReserveVaultShares st vault.address user
  let shareAmount ← vault.bTokensToSharesDown bTokensAmount
  requirePositive shareAmount .invalidSharesMinted
  let totalShares ← unwrapOptimized (vault.totalShares.checkedAdd shareAmount)
  let totalBTokens ← unwrapOptimized (vault.totalBTokens.checkedAdd bTokensAmount)
  let userShares ← unwrapOptimized (userShares.checkedAdd shareAmount)
  let st ← Storage.setReserveVault st vault.address
    { vault with totalShares := totalShares, totalBTokens := totalBTokens }
  let st ← Storage.setReserveVaultShares st vault.address user userShares
  pure ((bTokensAmount, shareAmount), st)

/-- Withdraw from the reserve vault. -/
def withdraw (e : Env Address) (st : FeeVault.Storage Address) (reserve user : Address)
    (amount : I128) : Metered Address ((I128 × I128) × FeeVault.Storage Address) := do
  let vault ← getReserveVaultUpdated e st reserve
  let bTokensAmount ← vault.underlyingToBTokensUp amount
  let userShares ← Storage.getReserveVaultShares st vault.address user
  let shareAmount ← vault.bTokensToSharesUp bTokensAmount
  requirePositive shareAmount .invalidBTokensBurnt
  if vault.totalShares < shareAmount ∨ vault.totalBTokens < bTokensAmount then
    throw (.contract .insufficientReserves)
  else if shareAmount > userShares then
    throw (.contract .balanceError)
  else do
    let totalShares ← unwrapOptimized (vault.totalShares.checkedSub shareAmount)
    let totalBTokens ← unwrapOptimized (vault.totalBTokens.checkedSub bTokensAmount)
    let userShares ← unwrapOptimized (userShares.checkedSub shareAmount)
    let st ← Storage.setReserveVault st vault.address
      { vault with totalShares := totalShares, totalBTokens := totalBTokens }
    let st ← Storage.setReserveVaultShares st vault.address user userShares
    pure ((bTokensAmount, shareAmount), st)

/-- Claim fees from the reserve vault. -/
def claimFees (e : Env Address) (st : FeeVault.Storage Address) (reserve : Address) :
    Metered Address ((I128 × I128) × FeeVault.Storage Address) := do
  let vault ← getReserveVaultUpdated e st reserve
  let bTokensAmount := vault.accruedFees
  requirePositive bTokensAmount .insufficientAccruedFees
  let underlyingAmount ← vault.bTokensToUnderlyingDown bTokensAmount
  let st ← Storage.setReserveVault st vault.address { vault with accruedFees := 0 }
  pure ((bTokensAmount, underlyingAmount), st)

/-- The body of the loop over the reserves. -/
def accrueInterestForReserve (e : Env Address) (st : FeeVault.Storage Address)
    (reserve : Address) : Metered Address (FeeVault.Storage Address) := do
  let updatedVault ← getReserveVaultUpdated e st reserve
  Storage.setReserveVault st reserve updatedVault

/-- Accrues interest and updates the bRate for all reserves. -/
def accrueInterestForAllReserves (e : Env Address) (st : FeeVault.Storage Address) :
    Metered Address (FeeVault.Storage Address) := do
  let reserves ← Storage.getReserves st
  reserves.foldlM (accrueInterestForReserve e) st

end ReserveVault

/-! ### `contract.rs` -/

namespace Contract

variable (e : Env Address) (s : State Address)

/-- A user's position in shares. -/
def getShares (reserve user : Address) : Metered Address I128 :=
  Storage.getReserveVaultShares s.storage reserve user

/-- A user's position in bTokens. -/
def getBTokens (reserve user : Address) : Metered Address I128 := do
  let shares ← Storage.getReserveVaultShares s.storage reserve user
  if shares.val > 0 then do
    let vault ← ReserveVault.getReserveVaultUpdated e s.storage reserve
    vault.sharesToBTokensDown shares
  else pure 0

/-- A user's position in underlying tokens. -/
def getUnderlyingTokens (reserve user : Address) : Metered Address I128 := do
  let shares ← Storage.getReserveVaultShares s.storage reserve user
  if shares.val > 0 then do
    let vault ← ReserveVault.getReserveVaultUpdated e s.storage reserve
    let bTokens ← vault.sharesToBTokensDown shares
    vault.bTokensToUnderlyingDown bTokens
  else pure 0

/-- The accrued fees in underlying tokens. -/
def getCollectedFees (reserve : Address) : Metered Address I128 :=
  -- `has` bears on no lease
  if s.storage.hasReserveVault reserve then do
    let vault ← ReserveVault.getReserveVaultUpdated e s.storage reserve
    vault.bTokensToUnderlyingDown vault.accruedFees
  else pure 0

/-- The reserve vault data. -/
def getReserveVault (reserve : Address) : Metered Address (FeeVault.ReserveVault Address) :=
  ReserveVault.getReserveVaultUpdated e s.storage reserve

variable [DecidableEq Address]

/-- Sets the fee mode for the fee vault. -/
def setFeeMode (isAprCapped : Bool) (value : I128) : Metered Address (State Address) := do
  Storage.extendInstance
  e.requireAuth s.storage.admin
  FeeVault.Contract.requireFeeModeValue value
  let storage ← ReserveVault.accrueInterestForAllReserves e s.storage
  pure { s with
    storage := { storage with feeMode := { isAprCapped := isAprCapped, value := value } }
    events := s.events ++ [.feeModeUpdate isAprCapped value] }

omit [DecidableEq Address] [FixedPoint] in
/-- Sets the admin address for the fee vault. -/
def setAdmin (admin : Address) : Metered Address (State Address) := do
  Storage.extendInstance
  e.requireAuth s.storage.admin
  e.requireAuth admin
  pure { s with storage := { s.storage with admin := admin } }

/-- Add a new reserve vault. -/
def addReserveVault (reserveAddress : Address) : Metered Address (State Address) := do
  Storage.extendInstance
  e.requireAuth s.storage.admin
  if s.storage.hasReserveVault reserveAddress then
    throw (.contract .reserveAlreadyExists)
  else do
    let storage ← Storage.setReserveVault s.storage reserveAddress {
      address := reserveAddress
      bRate := e.bRate reserveAddress
      lastUpdateTimestamp := e.timestamp
      totalShares := 0
      totalBTokens := 0
      accruedFees := 0 }
    let storage ← Storage.addReserveToReserves storage reserveAddress
    pure { s with
      storage := storage
      events := s.events ++ [.newReserveVault reserveAddress] }

/-- Claims emissions for the given reserves from the pool, which sends them to `toAddr`. -/
def claimEmissions (reserveTokenIds : List UInt32) (toAddr : Address) :
    Metered Address (I128 × State Address) := do
  Storage.extendInstance
  let admin := s.storage.admin
  e.requireAuth admin
  let emissions ← Pool.claim e reserveTokenIds toAddr
  pure (emissions, { s with
    events := s.events ++ [.vaultEmissionsClaim admin reserveTokenIds emissions] })

/-- Claims fees for the given reserve from the vault. -/
def claimFees (reserve toAddr : Address) : Metered Address (I128 × State Address) := do
  Storage.extendInstance
  let admin := s.storage.admin
  e.requireAuth admin
  requireHasReserve s.storage reserve
  let ((bTokensBurnt, amount), storage) ← ReserveVault.claimFees e s.storage reserve
  let pool ← s.pool.withdraw e reserve toAddr amount
  pure (bTokensBurnt, {
    storage := storage
    pool := pool
    events := s.events ++ [.vaultFeeClaim reserve admin amount bTokensBurnt] })

/-- Deposits tokens into the fee vault for a specific reserve. -/
def deposit (reserve user : Address) (amount : I128) : Metered Address (I128 × State Address) := do
  Storage.extendInstance
  e.requireAuth user
  requireHasReserve s.storage reserve
  requirePositive amount .invalidAmount
  let pool ← s.pool.supply e reserve amount
  let ((bTokensMinted, newShares), storage) ←
    ReserveVault.deposit e s.storage reserve user amount
  pure (newShares, {
    storage := storage
    pool := pool
    events := s.events ++ [.vaultDeposit reserve user amount newShares bTokensMinted] })

/-- Withdraws tokens from the fee vault for a specific reserve. -/
def withdraw (reserve user : Address) (amount : I128) :
    Metered Address (I128 × State Address) := do
  Storage.extendInstance
  e.requireAuth user
  requireHasReserve s.storage reserve
  requirePositive amount .invalidAmount
  let pool ← s.pool.withdraw e reserve user amount
  let ((bTokensBurnt, burntShares), storage) ←
    ReserveVault.withdraw e s.storage reserve user amount
  pure (burntShares, {
    storage := storage
    pool := pool
    events := s.events ++ [.vaultWithdraw reserve user amount burntShares bTokensBurnt] })

end Contract

/-! ### Without the log -/

section Plain

variable {e : Env Address} {s : State Address} {st : FeeVault.Storage Address}
  {reserve user admin toAddr : Address} {amount value shares : I128} {isAprCapped : Bool}
  {vault : FeeVault.ReserveVault Address} {ids : List UInt32}

omit [FixedPoint]

@[simp] theorem plain_unwrapOptimized {α : Type} (o : Option α) :
    plain (unwrapOptimized o : Metered Address α) = FeeVault.unwrapOptimized o := plain_lift _

@[simp] theorem plain_set (k : Entry Address) : plain (set k) = .ok ⟨⟩ := rfl

@[simp] theorem plain_extendTtl (k : Entry Address) (threshold extendTo : ℕ) :
    plain (extendTtl k threshold extendTo) = .ok ⟨⟩ := rfl

@[simp] theorem plain_extendInstance :
    plain (Storage.extendInstance : Metered Address PUnit) = .ok ⟨⟩ := rfl

@[simp] theorem plain_getReserveVault :
    plain (Storage.getReserveVault st reserve) = st.getReserveVault reserve := by
  unfold Storage.getReserveVault FeeVault.Storage.getReserveVault
  cases st.resVault reserve <;> rfl

@[simp] theorem plain_getReserveVaultShares :
    plain (Storage.getReserveVaultShares st reserve user) =
      .ok (st.getReserveVaultShares reserve user) := by
  unfold Storage.getReserveVaultShares FeeVault.Storage.getReserveVaultShares
  cases st.deposit ⟨reserve, user⟩ <;> rfl

@[simp] theorem plain_getReserves : plain (Storage.getReserves st) = .ok st.getReserves := by
  unfold Storage.getReserves FeeVault.Storage.getReserves
  cases st.reserves <;> rfl

@[simp] theorem plain_getShares :
    plain (Contract.getShares s reserve user) = .ok (FeeVault.Contract.getShares s reserve user) :=
  plain_getReserveVaultShares

@[simp] theorem plain_addReserveToReserves :
    plain (Storage.addReserveToReserves st reserve) = .ok (st.addReserveToReserves reserve) := by
  simp [Storage.addReserveToReserves, FeeVault.Storage.addReserveToReserves]

section

variable [DecidableEq Address]

@[simp] theorem plain_setReserveVault :
    plain (Storage.setReserveVault st reserve vault) = .ok (st.setReserveVault reserve vault) := rfl

@[simp] theorem plain_setReserveVaultShares :
    plain (Storage.setReserveVaultShares st reserve user shares) =
      .ok (st.setReserveVaultShares reserve user shares) := rfl

end

variable [FixedPoint]

@[simp] theorem plain_getReserveVaultUpdated :
    plain (ReserveVault.getReserveVaultUpdated e st reserve) =
      FeeVault.ReserveVault.getReserveVaultUpdated e st reserve := by
  simp [ReserveVault.getReserveVaultUpdated, FeeVault.ReserveVault.getReserveVaultUpdated]

variable [DecidableEq Address]

@[simp] theorem plain_booked_deposit :
    plain (ReserveVault.deposit e st reserve user amount) =
      FeeVault.ReserveVault.deposit e st reserve user amount := by
  simp [ReserveVault.deposit, FeeVault.ReserveVault.deposit]

@[simp] theorem plain_booked_withdraw :
    plain (ReserveVault.withdraw e st reserve user amount) =
      FeeVault.ReserveVault.withdraw e st reserve user amount := by
  simp [ReserveVault.withdraw, FeeVault.ReserveVault.withdraw, apply_ite plain]

@[simp] theorem plain_booked_claimFees :
    plain (ReserveVault.claimFees e st reserve) =
      FeeVault.ReserveVault.claimFees e st reserve := by
  simp [ReserveVault.claimFees, FeeVault.ReserveVault.claimFees]

@[simp] theorem plain_accrueInterestForAllReserves :
    plain (ReserveVault.accrueInterestForAllReserves e st) =
      FeeVault.ReserveVault.accrueInterestForAllReserves e st := by
  simp [ReserveVault.accrueInterestForAllReserves, ReserveVault.accrueInterestForReserve,
    FeeVault.ReserveVault.accrueInterestForAllReserves, plain_foldlM]
  rfl

omit [DecidableEq Address] in
@[simp] theorem plain_getBTokens :
    plain (Contract.getBTokens e s reserve user) =
      FeeVault.Contract.getBTokens e s reserve user := by
  simp [Contract.getBTokens, FeeVault.Contract.getBTokens, apply_ite plain]

omit [DecidableEq Address] in
@[simp] theorem plain_getUnderlyingTokens :
    plain (Contract.getUnderlyingTokens e s reserve user) =
      FeeVault.Contract.getUnderlyingTokens e s reserve user := by
  simp [Contract.getUnderlyingTokens, FeeVault.Contract.getUnderlyingTokens, apply_ite plain]

omit [DecidableEq Address] in
@[simp] theorem plain_view_getReserveVault :
    plain (Contract.getReserveVault e s reserve) =
      FeeVault.Contract.getReserveVault e s reserve := plain_getReserveVaultUpdated

omit [DecidableEq Address] in
@[simp] theorem plain_getCollectedFees :
    plain (Contract.getCollectedFees e s reserve) =
      FeeVault.Contract.getCollectedFees e s reserve := by
  simp [Contract.getCollectedFees, FeeVault.Contract.getCollectedFees, apply_ite plain]

@[simp] theorem plain_setFeeMode :
    plain (Contract.setFeeMode e s isAprCapped value) =
      FeeVault.Contract.setFeeMode e s isAprCapped value := by
  simp [Contract.setFeeMode, FeeVault.Contract.setFeeMode]

omit [FixedPoint] [DecidableEq Address] in
@[simp] theorem plain_setAdmin :
    plain (Contract.setAdmin e s admin) = FeeVault.Contract.setAdmin e s admin := by
  simp [Contract.setAdmin, FeeVault.Contract.setAdmin]

omit [FixedPoint] in
@[simp] theorem plain_addReserveVault :
    plain (Contract.addReserveVault e s reserve) =
      FeeVault.Contract.addReserveVault e s reserve := by
  simp [Contract.addReserveVault, FeeVault.Contract.addReserveVault, apply_ite plain]

omit [FixedPoint] [DecidableEq Address] in
@[simp] theorem plain_claimEmissions :
    plain (Contract.claimEmissions e s ids toAddr) =
      FeeVault.Contract.claimEmissions e s ids toAddr := by
  simp [Contract.claimEmissions, FeeVault.Contract.claimEmissions]

@[simp] theorem plain_claimFees :
    plain (Contract.claimFees e s reserve toAddr) =
      FeeVault.Contract.claimFees e s reserve toAddr := by
  simp [Contract.claimFees, FeeVault.Contract.claimFees]

@[simp] theorem plain_deposit :
    plain (Contract.deposit e s reserve user amount) =
      FeeVault.Contract.deposit e s reserve user amount := by
  simp [Contract.deposit, FeeVault.Contract.deposit]

@[simp] theorem plain_withdraw :
    plain (Contract.withdraw e s reserve user amount) =
      FeeVault.Contract.withdraw e s reserve user amount := by
  simp [Contract.withdraw, FeeVault.Contract.withdraw]

end Plain

end Metered

/-! ### Requests -/

/-- A call of a read-only entry point. -/
inductive View (Address : Type) where
  | getShares (reserve user : Address)
  | getBTokens (reserve user : Address)
  | getUnderlyingTokens (reserve user : Address)
  | getCollectedFees (reserve : Address)
  | getPool
  | getReserveVault (reserve : Address)

/-- What an entry point returns. -/
inductive Reply (Address : Type) where
  | value (val : Value)
  | address (a : Address)
  | vault (v : ReserveVault Address)

/-- A call or a view in its surroundings, in the ledger `sequence`. -/
structure Request (Address : Type) where
  env : Env Address
  sequence : ℕ
  entryPoint : Call Address ⊕ View Address

variable [FixedPoint]

/-- What a view returns. -/
def View.respond (e : Env Address) (s : State Address) :
    View Address → Except Failure (Reply Address)
  | .getShares r u => .ok (.value (some (Contract.getShares s r u)))
  | .getBTokens r u => (Contract.getBTokens e s r u).map fun y => .value (some y)
  | .getUnderlyingTokens r u => (Contract.getUnderlyingTokens e s r u).map fun y => .value (some y)
  | .getCollectedFees r => (Contract.getCollectedFees e s r).map fun y => .value (some y)
  | .getPool => .ok (.address (Contract.getPool s))
  | .getReserveVault r => (Contract.getReserveVault e s r).map .vault

/-- With its log. -/
def Metered.view (e : Env Address) (s : State Address) :
    View Address → Metered Address (Reply Address)
  | .getShares r u => (fun y => .value (some y)) <$> Contract.getShares s r u
  | .getBTokens r u => (fun y => .value (some y)) <$> Contract.getBTokens e s r u
  | .getUnderlyingTokens r u => (fun y => .value (some y)) <$> Contract.getUnderlyingTokens e s r u
  | .getCollectedFees r => (fun y => .value (some y)) <$> Contract.getCollectedFees e s r
  | .getPool => pure (.address (FeeVault.Contract.getPool s))
  | .getReserveVault r => .vault <$> Contract.getReserveVault e s r

variable [DecidableEq Address]

/-- A state-changing entry point with its log. -/
def Metered.exec (s : State Address) (t : Tx Address) : Metered Address (Value × State Address) :=
  match t.call with
  | .setFeeMode isAprCapped value =>
    (fun s' => (none, s')) <$> Contract.setFeeMode t.env s isAprCapped value
  | .setAdmin admin => (fun s' => (none, s')) <$> Contract.setAdmin t.env s admin
  | .addReserveVault reserve =>
    (fun s' => (none, s')) <$> Contract.addReserveVault t.env s reserve
  | .claimEmissions ids toAddr =>
    (fun r => (some r.1, r.2)) <$> Contract.claimEmissions t.env s ids toAddr
  | .claimFees reserve toAddr =>
    (fun r => (some r.1, r.2)) <$> Contract.claimFees t.env s reserve toAddr
  | .deposit reserve user amount =>
    (fun r => (some r.1, r.2)) <$> Contract.deposit t.env s reserve user amount
  | .withdraw reserve user amount =>
    (fun r => (some r.1, r.2)) <$> Contract.withdraw t.env s reserve user amount

/-- Run a call, or show a view. -/
def respond (s : State Address) (t : Request Address) :
    Except Failure (Reply Address × State Address) :=
  match t.entryPoint with
  | .inl call => (exec s ⟨t.env, call⟩).map fun r => (.value r.1, r.2)
  | .inr view => (view.respond t.env s).map fun y => (y, s)

/-- With its log. -/
def Metered.respond (s : State Address) (t : Request Address) :
    Metered Address (Reply Address × State Address) :=
  match t.entryPoint with
  | .inl call => (fun r => (.value r.1, r.2)) <$> exec s ⟨t.env, call⟩
  | .inr view => (fun y => (y, s)) <$> Metered.view t.env s view

/-- **Erasure.**  Without their logs, requests do what they do. -/
theorem Metered.plain_respond :
    (fun s t => plain (Metered.respond s t)) = @FeeVault.respond Address _ _ := by
  funext s t
  unfold Metered.respond FeeVault.respond
  cases t.entryPoint with
  | inl call => cases call <;> simp [Metered.exec, FeeVault.exec]
  | inr view => cases view <;> simp [Metered.view, View.respond, Except.map]

end FeeVault
