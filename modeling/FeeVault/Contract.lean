import FeeVault.ReserveVault
import FeeVault.Lib.Runs

namespace FeeVault

/-!
# `pool.rs` and `contract.rs` — the entry points

* `Pool.supply` / `Pool.withdraw` — the vault's account with the Blend pool, which lives outside
  the repository: a supply credits the floor of the amount in bTokens, a withdrawal debits its
  ceiling, or the whole position against a smaller payment when that is not enough;
* `Contract` — the read-only views, the admin's entry points and the users';
* `Call` / `Tx` / `exec` — one transaction: a call in its surroundings.  A transaction that
  fails is reverted (`Revert.step`).
-/

variable {Address : Type} [DecidableEq Address]

/-! ### The pool -/

namespace Pool

/-- Executes a supply of a reserve into the pool on behalf of the fee vault. -/
def supply (e : Env Address) (p : Pool Address) (reserve : Address) (amount : I128) :
    Except Failure (Pool Address) :=
  if e.poolAccepts then
    let minted := MulDiv.floor amount scalar12 (e.bRate reserve)
    .ok { p with bTokens := Function.update p.bTokens reserve (p.bTokens reserve + minted) }
  else .error .pool

/-- Executes a withdrawal of a reserve from the pool on behalf of the fee vault. -/
def withdraw (e : Env Address) (p : Pool Address) (reserve toAddr : Address) (amount : I128) :
    Except Failure (Pool Address) :=
  if e.poolAccepts then
    let held := p.bTokens reserve
    let toBurn := MulDiv.ceil amount scalar12 (e.bRate reserve)
    if toBurn ≤ held then
      .ok { bTokens := Function.update p.bTokens reserve (held - toBurn)
            payouts := ⟨reserve, toAddr, amount, amount⟩ :: p.payouts }
    else
      -- the position does not cover the request: all of it goes, for less than was asked
      .ok { bTokens := Function.update p.bTokens reserve 0
            payouts := ⟨reserve, toAddr, amount,
              MulDiv.floor held (e.bRate reserve) scalar12⟩ :: p.payouts }
  else .error .pool

/-- Executes a claim of emissions from the pool on behalf of the fee vault. -/
def claim (e : Env Address) (reserveTokenIds : List UInt32) (toAddr : Address) :
    Except Failure I128 :=
  if e.poolAccepts then .ok (e.emissions reserveTokenIds toAddr) else .error .pool

end Pool

variable [FixedPoint]

namespace Contract

/-! ### Initialization -/

/-- Whether a fee mode value is within `0` and `1_000_0000`. -/
def requireFeeModeValue (value : I128) : Except Failure Unit :=
  if value.val < 0 ∨ value.val > 10000000 then .error (.contract .invalidFeeModeValue)
  else .ok ()

/-- Initialize the contract. -/
def constructor (e : Env Address) (admin pool : Address) (isAprCapped : Bool) (value : I128) :
    Except Failure (State Address) := do
  e.requireAuth admin
  requireFeeModeValue value
  pure {
    storage := {
      admin := admin
      pool := pool
      feeMode := { isAprCapped := isAprCapped, value := value }
      reserves := none
      resVault := fun _ => none
      deposit := fun _ => none }
    pool := { bTokens := fun _ => 0, payouts := [] }
    events := [] }

/-! ### Read-only -/

/-- A user's position in shares. -/
def getShares (s : State Address) (reserve user : Address) : I128 :=
  s.storage.getReserveVaultShares reserve user

/-- A user's position in bTokens. -/
def getBTokens (e : Env Address) (s : State Address) (reserve user : Address) :
    Except Failure I128 :=
  let shares := s.storage.getReserveVaultShares reserve user
  if shares.val > 0 then do
    let vault ← ReserveVault.getReserveVaultUpdated e s.storage reserve
    vault.sharesToBTokensDown shares
  else pure 0

/-- A user's position in underlying tokens. -/
def getUnderlyingTokens (e : Env Address) (s : State Address) (reserve user : Address) :
    Except Failure I128 :=
  let shares := s.storage.getReserveVaultShares reserve user
  if shares.val > 0 then do
    let vault ← ReserveVault.getReserveVaultUpdated e s.storage reserve
    let bTokens ← vault.sharesToBTokensDown shares
    vault.bTokensToUnderlyingDown bTokens
  else pure 0

/-- The accrued fees in underlying tokens. -/
def getCollectedFees (e : Env Address) (s : State Address) (reserve : Address) :
    Except Failure I128 :=
  if s.storage.hasReserveVault reserve then do
    let vault ← ReserveVault.getReserveVaultUpdated e s.storage reserve
    vault.bTokensToUnderlyingDown vault.accruedFees
  else pure 0

/-- The blend pool address. -/
def getPool (s : State Address) : Address := s.storage.pool

/-- The reserve vault data. -/
def getReserveVault (e : Env Address) (s : State Address) (reserve : Address) :
    Except Failure (ReserveVault Address) :=
  ReserveVault.getReserveVaultUpdated e s.storage reserve

/-! ### Read-write, admin only -/

/-- Sets the fee mode for the fee vault. -/
def setFeeMode (e : Env Address) (s : State Address) (isAprCapped : Bool) (value : I128) :
    Except Failure (State Address) := do
  e.requireAuth s.storage.admin
  requireFeeModeValue value
  -- accrue interest for all reserves first, to avoid any retroactive effect
  let storage ← ReserveVault.accrueInterestForAllReserves e s.storage
  pure { s with
    storage := { storage with feeMode := { isAprCapped := isAprCapped, value := value } }
    events := s.events ++ [.feeModeUpdate isAprCapped value] }

/-- Sets the admin address for the fee vault. -/
def setAdmin (e : Env Address) (s : State Address) (admin : Address) :
    Except Failure (State Address) := do
  e.requireAuth s.storage.admin
  e.requireAuth admin
  pure { s with storage := { s.storage with admin := admin } }

/-- Add a new reserve vault, for a reserve that the pool has. -/
def addReserveVault (e : Env Address) (s : State Address) (reserveAddress : Address) :
    Except Failure (State Address) := do
  e.requireAuth s.storage.admin
  if s.storage.hasReserveVault reserveAddress then
    .error (.contract .reserveAlreadyExists)
  else
    let storage := s.storage.setReserveVault reserveAddress {
      address := reserveAddress
      bRate := e.bRate reserveAddress
      lastUpdateTimestamp := e.timestamp
      totalShares := 0
      totalBTokens := 0
      accruedFees := 0 }
    pure { s with
      storage := storage.addReserveToReserves reserveAddress
      events := s.events ++ [.newReserveVault reserveAddress] }

/-- Claims emissions for the given reserves from the pool, which sends them to `toAddr`. -/
def claimEmissions (e : Env Address) (s : State Address) (reserveTokenIds : List UInt32)
    (toAddr : Address) : Except Failure (I128 × State Address) := do
  let admin := s.storage.admin
  e.requireAuth admin
  let emissions ← Pool.claim e reserveTokenIds toAddr
  pure (emissions, { s with
    events := s.events ++ [.vaultEmissionsClaim admin reserveTokenIds emissions] })

/-- Claims fees for the given reserve from the vault.  Returns the bTokens burnt. -/
def claimFees (e : Env Address) (s : State Address) (reserve toAddr : Address) :
    Except Failure (I128 × State Address) := do
  let admin := s.storage.admin
  e.requireAuth admin
  requireHasReserve s.storage reserve
  let ((bTokensBurnt, amount), storage) ← ReserveVault.claimFees e s.storage reserve
  let pool ← s.pool.withdraw e reserve toAddr amount
  pure (bTokensBurnt, {
    storage := storage
    pool := pool
    events := s.events ++ [.vaultFeeClaim reserve admin amount bTokensBurnt] })

/-! ### Read-write -/

/-- Deposits tokens into the fee vault for a specific reserve.  Returns the shares minted. -/
def deposit (e : Env Address) (s : State Address) (reserve user : Address) (amount : I128) :
    Except Failure (I128 × State Address) := do
  e.requireAuth user
  requireHasReserve s.storage reserve
  requirePositive amount .invalidAmount
  let pool ← s.pool.supply e reserve amount
  let ((bTokensMinted, newShares), storage) ←
    ReserveVault.deposit e s.storage reserve user amount
  pure (newShares, {
    storage := storage
    pool := pool
    events := s.events ++ [.vaultDeposit reserve user amount newShares bTokensMinted] })

/-- Withdraws tokens from the fee vault for a specific reserve.  Returns the shares burnt. -/
def withdraw (e : Env Address) (s : State Address) (reserve user : Address) (amount : I128) :
    Except Failure (I128 × State Address) := do
  e.requireAuth user
  requireHasReserve s.storage reserve
  requirePositive amount .invalidAmount
  let pool ← s.pool.withdraw e reserve user amount
  let ((bTokensBurnt, burntShares), storage) ←
    ReserveVault.withdraw e s.storage reserve user amount
  pure (burntShares, {
    storage := storage
    pool := pool
    events := s.events ++ [.vaultWithdraw reserve user amount burntShares bTokensBurnt] })

end Contract

/-! ### Transactions -/

/-- A call of a state-changing entry point. -/
inductive Call (Address : Type) where
  | setFeeMode (isAprCapped : Bool) (value : I128)
  | setAdmin (admin : Address)
  | addReserveVault (reserve : Address)
  | claimEmissions (reserveTokenIds : List UInt32) (toAddr : Address)
  | claimFees (reserve toAddr : Address)
  | deposit (reserve user : Address) (amount : I128)
  | withdraw (reserve user : Address) (amount : I128)

/-- The reserve a call is about, if it names one. -/
def Call.reserve? : Call Address → Option Address
  | .setFeeMode _ _ => none
  | .setAdmin _ => none
  | .addReserveVault reserve => some reserve
  | .claimEmissions _ _ => none
  | .claimFees reserve _ => some reserve
  | .deposit reserve _ _ => some reserve
  | .withdraw reserve _ _ => some reserve

/-- The reserves a call adds to the list of supported ones. -/
def Call.opens : Call Address → List Address
  | .addReserveVault reserve => [reserve]
  | _ => []

/-- A call together with its surroundings. -/
structure Tx (Address : Type) where
  env : Env Address
  call : Call Address

/-- What an entry point returns; `none` for `()`. -/
abbrev Value := Option I128

/-- Run one entry point. -/
def exec (s : State Address) (t : Tx Address) : Except Failure (Value × State Address) :=
  match t.call with
  | .setFeeMode isAprCapped value =>
    (Contract.setFeeMode t.env s isAprCapped value).map fun s' => (none, s')
  | .setAdmin admin => (Contract.setAdmin t.env s admin).map fun s' => (none, s')
  | .addReserveVault reserve =>
    (Contract.addReserveVault t.env s reserve).map fun s' => (none, s')
  | .claimEmissions ids toAddr =>
    (Contract.claimEmissions t.env s ids toAddr).map fun r => (some r.1, r.2)
  | .claimFees reserve toAddr =>
    (Contract.claimFees t.env s reserve toAddr).map fun r => (some r.1, r.2)
  | .deposit reserve user amount =>
    (Contract.deposit t.env s reserve user amount).map fun r => (some r.1, r.2)
  | .withdraw reserve user amount =>
    (Contract.withdraw t.env s reserve user amount).map fun r => (some r.1, r.2)

/-- A freshly deployed contract. -/
def Deployed (s : State Address) : Prop :=
  ∃ e admin pool isAprCapped value, Contract.constructor e admin pool isAprCapped value = .ok s

/-- States reached from deployment by transactions whose surroundings satisfy `ok`. -/
def Reachable (ok : Env Address → Prop) (s : State Address) : Prop :=
  Revert.Reachable exec Deployed (fun t => ok t.env) s

/-- The pool has the reserves it is asked for, and its rates are positive. -/
def Env.PositiveRates (e : Env Address) : Prop := ∀ r, 0 < (e.bRate r).val

/-! ### A concrete run -/

namespace Demo

/-- Every reserve at `rate`, with the authorization of `caller` alone. -/
def env (timestamp : UInt64) (rate : I128) (caller : ℕ) : Env ℕ where
  timestamp := timestamp
  bRate _ := rate
  authorized u := u == caller
  poolAccepts := true
  emissions _ _ := 0

omit [FixedPoint] in
/-- One positive rate for all reserves is a positive rate for each. -/
theorem env_positiveRates {timestamp : UInt64} {rate : I128} {caller : ℕ} (h : 0 < rate.val) :
    (env timestamp rate caller).PositiveRates := fun _ => h

/-- Deployed by the admin `0` over the pool `1`, at a take rate of 10%. -/
def deployed : State ℕ where
  storage := {
    admin := 0
    pool := 1
    feeMode := { isAprCapped := false, value := I128.ofUInt64 1000000 }
    reserves := none
    resVault := fun _ => none
    deposit := fun _ => none }
  pool := { bTokens := fun _ => 0, payouts := [] }
  events := []

omit [FixedPoint] in
/-- The state is the one the constructor leaves. -/
theorem deployed_deployed : Deployed deployed :=
  ⟨env 0 scalar12 0, 0, 1, false, I128.ofUInt64 1000000, rfl⟩

/-- Reserve `7` is opened at a rate of 1.1; user `3` deposits a little over a hundred tokens of
    six decimals, user `4` some more once the rate is 1.2; then the admin claims the fees. -/
def txs : List (Tx ℕ) :=
  [⟨env 10 (I128.ofUInt64 1100000000000) 0, .addReserveVault 7⟩,
   ⟨env 20 (I128.ofUInt64 1100000000000) 3, .deposit 7 3 (I128.ofUInt64 100000007)⟩,
   ⟨env 30 (I128.ofUInt64 1200000000000) 4, .deposit 7 4 (I128.ofUInt64 55555555)⟩,
   ⟨env 40 (I128.ofUInt64 1200000000000) 0, .claimFees 7 0⟩]

/-- Where that run ends. -/
def state : State ℕ := Revert.run (@exec ℕ _ FixedPoint.reference) deployed txs

omit [FixedPoint] in
/-- The rates never fall below one. -/
theorem txs_rates : ∀ t ∈ txs, ∀ r, scalar12.val ≤ t.env.bRate r := by
  intro t ht r
  simp only [txs, List.mem_cons, List.not_mem_nil, or_false] at ht
  obtain rfl | rfl | rfl | rfl := ht
  all_goals
    change scalar12.val ≤ (I128.ofUInt64 _).val
    decide

omit [FixedPoint] in
/-- So they are positive throughout, as the theorems about runs ask. -/
theorem txs_positiveRates : ∀ t ∈ txs, t.env.PositiveRates :=
  fun t ht r => scalar12_pos.trans_le (txs_rates t ht r)

omit [FixedPoint] in
/-- The run starts from deployment, so where it ends can be reached. -/
theorem state_reachable : @Reachable ℕ _ FixedPoint.reference Env.PositiveRates state :=
  Revert.Reachable.run (.init deployed_deployed) txs_positiveRates

/-- The vault of reserve `7` there: its fees are claimed. -/
def vault : ReserveVault ℕ where
  address := 7
  bRate := I128.ofUInt64 1200000000000
  lastUpdateTimestamp := 40
  totalShares := I128.ofUInt64 137594436
  totalBTokens := I128.ofUInt64 136447817
  accruedFees := 0

omit [FixedPoint] in
/-- The vault is the one stored: the numbers are those of the run. -/
theorem state_vault : state.storage.resVault 7 = some vault := by decide

example : (Contract.getShares state 7 3).val = 90909097 ∧
    (Contract.getShares state 7 4).val = 46685339 := by decide

end Demo

end FeeVault
