import FeeVault.State

namespace FeeVault

open FixedPoint

/-!
# `reserve_vault.rs` — the bookkeeping of one reserve

Conversions between underlying, bTokens and shares, the accrual of fees (`updateRate`), and the
three movements `deposit`, `withdraw` and `claimFees`, each followed by the write-back to
storage.  None of these talks to the pool except to read the `bRate`.
-/

variable {Address : Type} [FixedPoint]

namespace ReserveVault

/-! ### Conversions -/

section Conversions

variable (vault : ReserveVault Address) (amount : I128)

/-- Converts a bToken amount to shares rounding down. -/
def bTokensToSharesDown : Except Failure I128 :=
  if vault.totalShares = 0 ∨ vault.totalBTokens = 0 then .ok amount
  else unwrapOptimized (fixedMulFloor amount vault.totalShares vault.totalBTokens)

/-- Converts a bToken amount to shares rounding up. -/
def bTokensToSharesUp : Except Failure I128 :=
  if vault.totalShares = 0 ∨ vault.totalBTokens = 0 then .ok amount
  else unwrapOptimized (fixedMulCeil amount vault.totalShares vault.totalBTokens)

/-- Converts a share amount to a bToken amount rounding down. -/
def sharesToBTokensDown : Except Failure I128 :=
  unwrapOptimized (fixedDivFloor amount vault.totalShares vault.totalBTokens)

/-- Converts a bToken amount to an underlying token amount rounding down. -/
def bTokensToUnderlyingDown : Except Failure I128 :=
  unwrapOptimized (fixedMulFloor amount vault.bRate scalar12)

/-- Converts an underlying amount to a bToken amount rounding down. -/
def underlyingToBTokensDown : Except Failure I128 :=
  unwrapOptimized (fixedDivFloor amount vault.bRate scalar12)

/-- Converts an underlying amount to a bToken amount rounding up. -/
def underlyingToBTokensUp : Except Failure I128 :=
  unwrapOptimized (fixedDivCeil amount vault.bRate scalar12)

end Conversions

/-! ### Accrual -/

/-- `adminTakeBTokens` in APR-capped mode: the growth of the reserve beyond the target rate. -/
def aprCappedTake (vault : ReserveVault Address) (targetApr : I128) (now : UInt64)
    (newRate : I128) : Except Failure I128 := do
  let timeElapsed ← unwrapOptimized (now.checkedSub vault.lastUpdateTimestamp)
  -- the target APR has 7 decimals, the growth rate 12
  let scaledApr ← unwrapOptimized (I128.checkedMul ⟨100000, by decide⟩ targetApr)
  let growth ← unwrapOptimized (scaledApr.checkedMul (I128.ofUInt64 timeElapsed))
  let growthPerYear ← unwrapOptimized (growth.checkedDiv secondsPerYear)
  let targetGrowthRate ← unwrapOptimized (growthPerYear.checkedAdd scalar12)
  let targetBRate ← unwrapOptimized (fixedMulCeil vault.bRate targetGrowthRate scalar12)
  -- if the target APR wasn't reached, no fees are accrued
  if targetBRate ≥ newRate then pure 0
  else do
    let excess ← unwrapOptimized (newRate.checkedSub targetBRate)
    unwrapOptimized (fixedMulFloor vault.totalBTokens excess newRate)

/-- `adminTakeBTokens` in take-rate mode: the admin's part of the interest, in bTokens. -/
def takeRateTake (vault : ReserveVault Address) (adminTakeRate newRate : I128) :
    Except Failure I128 := do
  let growth ← unwrapOptimized (newRate.checkedSub vault.bRate)
  let interest ← unwrapOptimized (fixedMulFloor vault.totalBTokens growth scalar12)
  let take ← unwrapOptimized (fixedMulFloor interest adminTakeRate scalar7)
  unwrapOptimized (fixedDivFloor take newRate scalar12)

/-- `adminTakeBTokens`: what the admin is due for the rise to `newRate`, by fee mode. -/
def adminTake (vault : ReserveVault Address) (feeMode : FeeMode) (now : UInt64)
    (newRate : I128) : Except Failure I128 :=
  if feeMode.isAprCapped then vault.aprCappedTake feeMode.value now newRate
  else vault.takeRateTake feeMode.value newRate

/-- Updates the reserve's bRate and accrues fees to the admin in accordance with the portion
    of interest they earned.  `feeMode` is what storage holds under the fee mode key. -/
def updateRate (e : Env Address) (feeMode : FeeMode) (vault : ReserveVault Address) :
    Except Failure (ReserveVault Address) :=
  let now := e.timestamp
  let newRate := e.bRate vault.address
  -- if the rate didn't increase, the admin won't take any fees
  if newRate ≤ vault.bRate then
    pure { vault with lastUpdateTimestamp := now, bRate := newRate }
  else do
    let adminTakeBTokens ← vault.adminTake feeMode now newRate
    -- if no interest was accrued we do not accrue fees
    if adminTakeBTokens.val ≤ 0 then
      pure { vault with lastUpdateTimestamp := now, bRate := newRate }
    else do
      let totalBTokens ← unwrapOptimized (vault.totalBTokens.checkedSub adminTakeBTokens)
      let accruedFees ← unwrapOptimized (vault.accruedFees.checkedAdd adminTakeBTokens)
      pure { vault with
        lastUpdateTimestamp := now
        bRate := newRate
        totalBTokens := totalBTokens
        accruedFees := accruedFees }

/-- Get the reserve vault from storage and update the bRate. -/
def getReserveVaultUpdated (e : Env Address) (st : Storage Address) (address : Address) :
    Except Failure (ReserveVault Address) := do
  let vault ← st.getReserveVault address
  vault.updateRate e st.feeMode

/-! ### Movements -/

variable [DecidableEq Address]

/-- Deposit into the reserve vault.  Does not perform the call to the pool.  Returns the
    bTokens minted to the vault and the shares minted to the user. -/
def deposit (e : Env Address) (st : Storage Address) (reserve user : Address) (amount : I128) :
    Except Failure ((I128 × I128) × Storage Address) := do
  let vault ← getReserveVaultUpdated e st reserve
  let bTokensAmount ← vault.underlyingToBTokensDown amount
  requirePositive bTokensAmount .invalidBTokensMinted
  let userShares := st.getReserveVaultShares vault.address user
  let shareAmount ← vault.bTokensToSharesDown bTokensAmount
  requirePositive shareAmount .invalidSharesMinted
  let totalShares ← unwrapOptimized (vault.totalShares.checkedAdd shareAmount)
  let totalBTokens ← unwrapOptimized (vault.totalBTokens.checkedAdd bTokensAmount)
  let userShares ← unwrapOptimized (userShares.checkedAdd shareAmount)
  let st := st.setReserveVault vault.address
    { vault with totalShares := totalShares, totalBTokens := totalBTokens }
  pure ((bTokensAmount, shareAmount), st.setReserveVaultShares vault.address user userShares)

/-- Withdraw from the reserve vault.  Does not perform the call to the pool.  Returns the
    bTokens burned from the vault and the shares burned from the user. -/
def withdraw (e : Env Address) (st : Storage Address) (reserve user : Address) (amount : I128) :
    Except Failure ((I128 × I128) × Storage Address) := do
  let vault ← getReserveVaultUpdated e st reserve
  let bTokensAmount ← vault.underlyingToBTokensUp amount
  let userShares := st.getReserveVaultShares vault.address user
  let shareAmount ← vault.bTokensToSharesUp bTokensAmount
  requirePositive shareAmount .invalidBTokensBurnt
  if vault.totalShares < shareAmount ∨ vault.totalBTokens < bTokensAmount then
    .error (.contract .insufficientReserves)
  else if shareAmount > userShares then
    .error (.contract .balanceError)
  else do
    let totalShares ← unwrapOptimized (vault.totalShares.checkedSub shareAmount)
    let totalBTokens ← unwrapOptimized (vault.totalBTokens.checkedSub bTokensAmount)
    let userShares ← unwrapOptimized (userShares.checkedSub shareAmount)
    let st := st.setReserveVault vault.address
      { vault with totalShares := totalShares, totalBTokens := totalBTokens }
    pure ((bTokensAmount, shareAmount), st.setReserveVaultShares vault.address user userShares)

/-- Claim fees from the reserve vault.  Does not perform the call to the pool.  Returns the
    bTokens claimed and what they are worth in underlying. -/
def claimFees (e : Env Address) (st : Storage Address) (reserve : Address) :
    Except Failure ((I128 × I128) × Storage Address) := do
  let vault ← getReserveVaultUpdated e st reserve
  let bTokensAmount := vault.accruedFees
  requirePositive bTokensAmount .insufficientAccruedFees
  let underlyingAmount ← vault.bTokensToUnderlyingDown bTokensAmount
  pure ((bTokensAmount, underlyingAmount),
    st.setReserveVault vault.address { vault with accruedFees := 0 })

/-- The body of the loop over the reserves: accrue one of them and write it back. -/
def accrueInterestForReserve (e : Env Address) (st : Storage Address) (reserve : Address) :
    Except Failure (Storage Address) := do
  let updatedVault ← getReserveVaultUpdated e st reserve
  pure (st.setReserveVault reserve updatedVault)

/-- Accrues interest and updates the bRate for all reserves. -/
def accrueInterestForAllReserves (e : Env Address) (st : Storage Address) :
    Except Failure (Storage Address) :=
  st.getReserves.foldlM (accrueInterestForReserve e) st

end ReserveVault

end FeeVault
