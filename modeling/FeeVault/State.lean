import FeeVault.Basic

namespace FeeVault

/-!
# The contract's world

What a call reads and writes:

* `Env` — the ledger time, the authorizations and the answers of the Blend pool during one
  transaction; free to differ from one transaction to the next;
* `Storage` — the contract's entries of `storage.rs`.  The instance entries are written by the
  constructor before any other entry point runs and never removed, so they are plain fields;
  the persistent entries are partial maps.  Time-to-live extensions have no effect on values;
  they are the subject of `Lifetimes`;
* `State` — the storage, the vault's account with the pool, and the published events.
-/

variable {Address : Type}

/-- The surroundings of one transaction. -/
structure Env (Address : Type) where
  /-- `e.ledger().timestamp()`. -/
  timestamp : UInt64
  /-- The pool's `get_reserve(reserve).data.b_rate`.  The pool is taken to have every reserve it is
      asked for: its `get_reserve` fails for any other, and the call with it, which has no
      counterpart here.  Where this matters, `PositiveRates` and the like are the assumption. -/
  bRate : Address → I128
  /-- The addresses that authorized the call. -/
  authorized : Address → Bool
  /-- Whether the pool accepts the request the call submits. -/
  poolAccepts : Bool
  /-- The emissions the pool's `claim` pays for the reserve tokens to the address. -/
  emissions : List UInt32 → Address → I128

/-- The totals of one reserve. -/
structure ReserveVault (Address : Type) where
  /-- The reserve asset address. -/
  address : Address
  /-- The reserve's last bRate. -/
  bRate : I128
  /-- The timestamp of the last update. -/
  lastUpdateTimestamp : UInt64
  /-- The total shares issued by the reserve vault. -/
  totalShares : I128
  /-- The total bToken deposits owned by the depositors.  Excludes accrued fees. -/
  totalBTokens : I128
  /-- The number of bTokens the admin is due. -/
  accruedFees : I128
  deriving DecidableEq

/-- How the admin is paid. -/
structure FeeMode where
  /-- Whether the vault APR is capped. -/
  isAprCapped : Bool
  /-- The APR cap if `isAprCapped`, otherwise the admin's take rate. -/
  value : I128
  deriving DecidableEq

/-- The values the constructor and `set_fee_mode` admit: `0` to `1_000_0000`. -/
def FeeMode.Valid (fm : FeeMode) : Prop := 0 ≤ fm.value.val ∧ fm.value.val ≤ 10000000

instance (fm : FeeMode) : Decidable fm.Valid := inferInstanceAs (Decidable (_ ∧ _))

/-- Key of a user's shares in a reserve. -/
structure DepositKey (Address : Type) where
  reserve : Address
  user : Address
  deriving DecidableEq

/-- The contract's storage entries. -/
structure Storage (Address : Type) where
  admin : Address
  pool : Address
  feeMode : FeeMode
  reserves : Option (List Address)
  resVault : Address → Option (ReserveVault Address)
  deposit : DepositKey Address → Option I128

/-- A withdrawal the pool carried out for the vault. -/
structure Payout (Address : Type) where
  reserve : Address
  toAddr : Address
  requested : ℤ
  paid : ℤ

/-- The vault's account with the pool: its bToken position in each reserve, and what was paid
    out of it, latest first. -/
structure Pool (Address : Type) where
  bTokens : Address → ℤ
  payouts : List (Payout Address)

/-- What the contract publishes. -/
inductive Event (Address : Type) where
  | newReserveVault (reserve : Address)
  | vaultDeposit (reserve user : Address) (amount shares bTokens : I128)
  | vaultWithdraw (reserve user : Address) (amount shares bTokens : I128)
  | vaultFeeClaim (reserve admin : Address) (amount bTokens : I128)
  | vaultEmissionsClaim (admin : Address) (reserveTokenIds : List UInt32) (amount : I128)
  | feeModeUpdate (isAprCapped : Bool) (value : I128)

/-- Everything a transaction may change. -/
structure State (Address : Type) where
  storage : Storage Address
  pool : Pool Address
  events : List (Event Address)

/-! ### `storage.rs` -/

namespace Storage

variable (st : Storage Address) {reserve reserve' user user' : Address} {shares : I128}
  {vault : ReserveVault Address}

/-- A reserve's vault data. -/
def getReserveVault (reserve : Address) : Except Failure (ReserveVault Address) :=
  match st.resVault reserve with
  | some reserveData => .ok reserveData
  | none => .error (.contract .reserveNotFound)

/-- Check if a reserve has a vault. -/
def hasReserveVault (reserve : Address) : Bool := (st.resVault reserve).isSome

/-- The number of vault shares a user owns. -/
def getReserveVaultShares (reserve user : Address) : I128 :=
  (st.deposit ⟨reserve, user⟩).getD 0

/-- All the supported reserves. -/
def getReserves : List Address := st.reserves.getD []

/-- Add a reserve to the list of supported reserves. -/
def addReserveToReserves (reserve : Address) : Storage Address :=
  { st with reserves := some (st.getReserves ++ [reserve]) }

variable [DecidableEq Address]

/-- Set a reserve's vault data. -/
def setReserveVault (reserve : Address) (vault : ReserveVault Address) : Storage Address :=
  { st with resVault := Function.update st.resVault reserve (some vault) }

/-- Set the number of vault shares a user owns. -/
def setReserveVaultShares (reserve user : Address) (shares : I128) : Storage Address :=
  { st with deposit := Function.update st.deposit ⟨reserve, user⟩ (some shares) }

/-! ### Reading back what was written -/

omit [DecidableEq Address] in
@[simp] theorem getReserveVault_eq_ok :
    st.getReserveVault reserve = .ok vault ↔ st.resVault reserve = some vault := by
  unfold getReserveVault
  cases st.resVault reserve <;> simp

/-- The vault written is read back under its reserve, and every other reserve has the
    vault it had. -/
theorem resVault_setReserveVault :
    (st.setReserveVault reserve vault).resVault reserve' =
      if reserve' = reserve then some vault else st.resVault reserve' := by
  simp [setReserveVault, Function.update_apply]

@[simp] theorem getReserveVaultShares_setReserveVault :
    (st.setReserveVault reserve vault).getReserveVaultShares = st.getReserveVaultShares := rfl

/-- The shares written are read back under their reserve and user, and no other balance
    changes. -/
theorem getReserveVaultShares_setReserveVaultShares :
    (st.setReserveVaultShares reserve user shares).getReserveVaultShares reserve' user' =
      if reserve' = reserve ∧ user' = user then shares
      else st.getReserveVaultShares reserve' user' := by
  simp only [getReserveVaultShares, setReserveVaultShares, Function.update_apply,
    DepositKey.mk.injEq]
  split <;> rfl

omit [DecidableEq Address] in
@[simp] theorem getReserves_addReserveToReserves :
    (st.addReserveToReserves reserve).getReserves = st.getReserves ++ [reserve] := rfl

end Storage

/-- Require that the reserve exists in the fee vault. -/
def requireHasReserve (st : Storage Address) (reserve : Address) : Except Failure Unit :=
  if st.hasReserveVault reserve then .ok () else .error (.contract .reserveNotFound)

/-- `address.require_auth()`. -/
def Env.requireAuth (e : Env Address) (address : Address) : Except Failure Unit :=
  if e.authorized address then .ok () else .error .unauthorized

@[simp] theorem requireHasReserve_eq_ok {st : Storage Address} {reserve : Address} {x : Unit} :
    requireHasReserve st reserve = .ok x ↔ ∃ v, st.resVault reserve = some v := by
  unfold requireHasReserve Storage.hasReserveVault
  cases st.resVault reserve <;> simp

@[simp] theorem requireAuth_eq_ok {e : Env Address} {address : Address} {x : Unit} :
    e.requireAuth address = .ok x ↔ e.authorized address = true := by
  unfold Env.requireAuth
  split <;> simp_all

end FeeVault
