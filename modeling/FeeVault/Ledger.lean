import FeeVault.Contract
import FeeVault.Accrual
import FeeVault.Lib.SharePool

namespace FeeVault

/-!
# What the contract is for — the ideal ledger

The fee vault as its users are to understand it: a ledger of share pools in unbounded integers.
The types leave out what the contract has to check or to keep up itself.

* `Reserve` — a share pool at a positive rate, with fees set aside; `Reserve.accrue` settles it at a
  new rate, all of it in one step;
* `Ledger` — the reserves, who holds which shares, the admin with an admissible fee mode, and what
  has been paid out.  There is no list of reserves and no position with the pool: every reserve is
  settled at once, and a payment is always made in full;
* `Ledger.exec` — one request.  It is refused for a reason of its own or carried out; no sum
  overflows and no share is minted or burned for nothing.
-/

/-! ### One reserve -/

/-- A fee mode the admin may set. -/
abbrev Mode := {fm : FeeMode // fm.Valid}

/-- A reserve as its depositors see it. -/
structure Reserve where
  /-- The depositors' bTokens and the shares they are held in. -/
  pool : SharePool
  /-- The admin's bTokens. -/
  fees : ℤ
  /-- Underlying per bToken, with 12 decimals, … -/
  rate : ℤ
  /-- … and when that was so. -/
  time : ℕ
  fees_nonneg : 0 ≤ fees
  rate_pos : 0 < rate

namespace Reserve

variable (x : Reserve) {fm : FeeMode} {n : ℤ} {now : ℕ}

/-- A reserve nobody has deposited into. -/
def fresh (rate : ℤ) (rate_pos : 0 < rate) (time : ℕ) : Reserve :=
  ⟨.empty, 0, rate, time, Int.le_refl 0, rate_pos⟩

/-- The bTokens the admin is due when the rate has come to `n`. -/
def fee (fm : FeeMode) (n : ℤ) (now : ℕ) : ℤ :=
  if n ≤ x.rate then 0
  else if fm.isAprCapped then aprCappedFee x.pool.assets x.rate n fm.value (now - x.time : ℕ)
  else takeRateFee x.pool.assets x.rate n fm.value

/-- No fee is taken on a rate that did not rise. -/
theorem fee_of_le (h : n ≤ x.rate) : x.fee fm n now = 0 := if_pos h

/-- A fee is never negative under a valid mode. -/
theorem fee_nonneg (hfm : fm.Valid) : 0 ≤ x.fee fm n now := by
  rcases le_or_gt n x.rate with hle | hlt
  · exact (x.fee_of_le hle).ge
  · rw [fee, if_neg (not_le.2 hlt)]
    split
    · exact aprCappedFee_nonneg x.pool.assets_nonneg x.rate_pos hlt
    · exact takeRateFee_nonneg x.pool.assets_nonneg x.rate_pos hlt hfm.1

/-- The fee is paid out of the interest. -/
theorem mul_fee_le (hfm : fm.Valid) (hlt : x.rate < n) :
    n * x.fee fm n now ≤ x.pool.assets * (n - x.rate) := by
  rw [fee, if_neg (not_le.2 hlt)]
  split
  · exact mul_aprCappedFee_le x.pool.assets_nonneg x.rate_pos hlt hfm.1 (Int.natCast_nonneg _)
  · exact mul_takeRateFee_le x.pool.assets_nonneg x.rate_pos hlt hfm.2

/-- So it never takes the depositors' last bToken: the interest is worth less than what
    earns it, at any rate. -/
theorem fee_lt (hfm : fm.Valid) :
    x.fee fm n now < x.pool.assets ∨ x.fee fm n now = 0 := by
  rcases le_or_gt n x.rate with hle | hlt
  · exact Or.inr (x.fee_of_le hle)
  · have hn : 0 < n := x.rate_pos.trans hlt
    have hinterest : n * x.fee fm n now ≤ x.pool.assets * (n - x.rate) := x.mul_fee_le hfm hlt
    have hfee : 0 ≤ x.fee fm n now := x.fee_nonneg hfm
    generalize x.fee fm n now = fee at *
    rcases x.pool.assets_nonneg.eq_or_lt with hT | hT
    · rw [← hT, zero_mul] at hinterest
      exact Or.inr (le_antisymm (nonpos_of_mul_nonpos_right hinterest hn) hfee)
    · refine Or.inl (lt_of_mul_lt_mul_left (lt_of_le_of_lt hinterest ?_) hn.le)
      have := mul_pos hT x.rate_pos
      linarith [mul_sub x.pool.assets n x.rate, mul_comm x.pool.assets n]

/-- The reserve settled at the rate `n`: the fee is skimmed off the pool and set aside. -/
def accrue (fm : Mode) (n : ℤ) (hn : 0 < n) (now : ℕ) : Reserve where
  pool := x.pool.skim (x.fee fm.1 n now) (x.fee_nonneg fm.2) (x.fee_lt fm.2)
  fees := x.fees + x.fee fm.1 n now
  rate := n
  time := now
  fees_nonneg := add_nonneg x.fees_nonneg (x.fee_nonneg fm.2)
  rate_pos := hn

/-- There are fees to take. -/
def requireFees : Except Failure Unit :=
  if 0 < x.fees then .ok () else .error (.contract .insufficientAccruedFees)

/-- The reserve once its fees are paid. -/
def claimed : Reserve := { x with fees := 0, fees_nonneg := Int.le_refl 0 }

end Reserve

/-! ### The ledger -/

/-- A request, in surroundings where the pool's rates are positive. -/
structure PricedTx (Address : Type) extends Tx Address where
  rates : env.PositiveRates

/-- What the vault keeps, for everybody. -/
structure Ledger (Address : Type) where
  admin : Address
  mode : Mode
  /-- The reserves that are open. -/
  reserves : Address → Option Reserve
  /-- The shares in a reserve a user holds. -/
  holdings : Address → Address → ℤ
  /-- The underlying of a reserve paid to somebody, latest first. -/
  payouts : List (Address × Address × ℤ)

/-- The pool takes part. -/
def Env.accepted {Address : Type} (e : Env Address) : Except Failure Unit :=
  if e.poolAccepts then .ok () else .error .pool

namespace Ledger

variable {Address : Type}

/-- The ledger of a vault just opened. -/
def fresh (admin : Address) (mode : Mode) : Ledger Address :=
  ⟨admin, mode, fun _ => none, fun _ _ => 0, []⟩

variable (l : Ledger Address)

/-- The reserve asked for. -/
def find (r : Address) : Except Failure Reserve :=
  match l.reserves r with
  | some x => .ok x
  | none => .error (.contract .reserveNotFound)

variable [DecidableEq Address]

/-- Replace a reserve. -/
def setReserve (r : Address) (x : Reserve) : Ledger Address :=
  { l with reserves := Function.update l.reserves r (some x) }

/-- Replace a reserve and give `u` shares in it. -/
def credit (r u : Address) (x : Reserve) (shares : ℤ) : Ledger Address :=
  { l.setReserve r x with
    holdings := Function.update l.holdings r
      (Function.update (l.holdings r) u (l.holdings r u + shares)) }

/-- Writing one reserve leaves the others. -/
theorem setReserve_reserves (r r' : Address) (x : Reserve) :
    (l.setReserve r x).reserves r' = if r' = r then some x else l.reserves r' :=
  Function.update_apply ..

/-- Crediting one user in one reserve leaves all other holdings. -/
theorem credit_holdings (r r' u u' : Address) (x : Reserve) (shares : ℤ) :
    (l.credit r u x shares).holdings r' u' =
      if r' = r ∧ u' = u then l.holdings r u + shares else l.holdings r' u' := by
  show Function.update l.holdings r _ r' u' = _
  by_cases hr : r' = r
  · subst hr
    simp [Function.update_apply]
  · simp [hr]

/-- Pay underlying out. -/
def pay (r u : Address) (amount : ℤ) : Ledger Address :=
  { l with payouts := (r, u, amount) :: l.payouts }

/-! ### Requests -/

/-- Mint shares in the settled reserve `y` for `u`, who pays `bTokens`. -/
def mint (r u : Address) (y : Reserve) (bTokens : ℤ) : Except Failure (ℤ × Ledger Address) :=
  if h : 0 < bTokens then
    .ok (y.pool.minted bTokens,
      l.credit r u { y with pool := y.pool.deposit bTokens h.le } (y.pool.minted bTokens))
  else .error (.contract .invalidBTokensMinted)

/-- Burn shares in the settled reserve `y` of `u`, who takes `bTokens`. -/
def burn (r u : Address) (y : Reserve) (bTokens : ℤ) : Except Failure (ℤ × Ledger Address) :=
  if h : bTokens ≤ y.pool.assets then
    if y.pool.burned bTokens ≤ l.holdings r u then
      .ok (y.pool.burned bTokens,
        l.credit r u { y with pool := y.pool.withdraw bTokens h } (-y.pool.burned bTokens))
    else .error (.contract .balanceError)
  else .error (.contract .insufficientReserves)

variable (e : Env Address) (he : e.PositiveRates)

/-- Pay underlying in, for shares. -/
def deposit (r u : Address) (amount : I128) : Except Failure (ℤ × Ledger Address) := do
  e.requireAuth u
  let x ← l.find r
  requirePositive amount .invalidAmount
  e.accepted
  l.mint r u (x.accrue l.mode (e.bRate r) (he r) e.timestamp.toNat)
    (MulDiv.floor amount scalar12 (e.bRate r))

/-- Take underlying out, against shares. -/
def withdraw (r u : Address) (amount : I128) : Except Failure (ℤ × Ledger Address) := do
  e.requireAuth u
  let x ← l.find r
  requirePositive amount .invalidAmount
  e.accepted
  let (shares, l') ← l.burn r u (x.accrue l.mode (e.bRate r) (he r) e.timestamp.toNat)
    (MulDiv.ceil amount scalar12 (e.bRate r))
  .ok (shares, l'.pay r u amount)

/-- Take the fees out. -/
def claimFees (r toAddr : Address) : Except Failure (ℤ × Ledger Address) := do
  e.requireAuth l.admin
  let x ← l.find r
  let y := x.accrue l.mode (e.bRate r) (he r) e.timestamp.toNat
  y.requireFees
  e.accepted
  .ok (y.fees, (l.setReserve r y.claimed).pay r toAddr (MulDiv.floor y.fees (e.bRate r) scalar12))

/-- Settle every reserve, then charge fees another way. -/
def setFeeMode (isAprCapped : Bool) (value : I128) : Except Failure (Ledger Address) := do
  e.requireAuth l.admin
  if h : (FeeMode.mk isAprCapped value).Valid then
    .ok { l with
      mode := ⟨_, h⟩
      reserves := fun r => (l.reserves r).map fun x =>
        x.accrue l.mode (e.bRate r) (he r) e.timestamp.toNat }
  else .error (.contract .invalidFeeModeValue)

/-- Hand the vault over. -/
def setAdmin (admin : Address) : Except Failure (Ledger Address) := do
  e.requireAuth l.admin
  e.requireAuth admin
  .ok { l with admin := admin }

/-- Open a reserve. -/
def addReserveVault (r : Address) : Except Failure (Ledger Address) := do
  e.requireAuth l.admin
  if (l.reserves r).isSome then .error (.contract .reserveAlreadyExists)
  else .ok (l.setReserve r (.fresh (e.bRate r) (he r) e.timestamp.toNat))

/-- Collect what the pool grants on top. -/
def claimEmissions (reserveTokenIds : List UInt32) (toAddr : Address) : Except Failure ℤ := do
  e.requireAuth l.admin
  e.accepted
  .ok (e.emissions reserveTokenIds toAddr)

end Ledger

/-- One request and what it returns. -/
def Ledger.exec {Address : Type} [DecidableEq Address] (l : Ledger Address)
    (t : PricedTx Address) : Except Failure (Option ℤ × Ledger Address) :=
  match t.call with
  | .setFeeMode isAprCapped value =>
    (l.setFeeMode t.env t.rates isAprCapped value).map fun l' => (none, l')
  | .setAdmin admin => (l.setAdmin t.env admin).map fun l' => (none, l')
  | .addReserveVault r => (l.addReserveVault t.env t.rates r).map fun l' => (none, l')
  | .claimEmissions ids toAddr =>
    (l.claimEmissions t.env ids toAddr).map fun y => (some y, l)
  | .claimFees r toAddr =>
    (l.claimFees t.env t.rates r toAddr).map fun y => (some y.1, y.2)
  | .deposit r u amount =>
    (l.deposit t.env t.rates r u amount).map fun y => (some y.1, y.2)
  | .withdraw r u amount =>
    (l.withdraw t.env t.rates r u amount).map fun y => (some y.1, y.2)

end FeeVault
