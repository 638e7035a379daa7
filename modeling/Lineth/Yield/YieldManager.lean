import Lineth.Lib.Except
import Lineth.Lib.Memory

/-!
# The yield manager

The balances and the storage of `YieldManager` that refilling the withdrawal reserve reads. Amounts are in wei. A
yield provider runs by delegatecall in the storage of the manager: each of its hooks is any function of the whole
state. -/

namespace Lineth.Yield

open Evm
open Except (failIf)

inductive Error
  | isPaused
  | unknownYieldProvider
  | withdrawalReserveNotInDeficit
  | noAvailableFundsToReplenishWithdrawalReserve
  | noEthSent
  | delegateCallFailed
  /-- A checked operation over- or underflows. -/
  | panic
  /-- A transfer of more than there is. -/
  | insufficientBalance
  deriving DecidableEq

def checked (n : Nat) : Except Error Nat := if n < 2 ^ 256 then .ok n else .error .panic

def checkedSub (a b : Nat) : Except Error Nat := if b ≤ a then .ok (a - b) else .error .panic

structure Ledger where
  /-- `L1_MESSAGE_SERVICE.balance`, the withdrawal reserve. -/
  reserve : Nat
  /-- `address(this).balance`. -/
  balance : Nat
  userFundsInYieldProvidersTotal : Nat
  pendingPermissionlessUnstake : Nat
  minimumWithdrawalReservePercentageBps : Nat
  minimumWithdrawalReserveAmount : Nat
  targetWithdrawalReservePercentageBps : Nat
  targetWithdrawalReserveAmount : Nat
  yieldProviderIndex : Address → Nat
  userFunds : Address → Nat
  isStakingPaused : Address → Bool
  /-- `NATIVE_YIELD_PERMISSIONLESS_ACTIONS` or everything is paused. -/
  permissionlessPaused : Bool

/-- The ledger and all the rest: the providers' vaults and the storage that only their hooks use. -/
structure World (σ : Type) extends Ledger where
  vendor : σ

namespace Ledger

variable (l : Ledger)

def getTotalSystemBalance (amountToSubtract : Nat) : Except Error Nat := do
  let liquid ← checked (l.reserve + l.balance)
  let total ← checked (liquid + l.userFundsInYieldProvidersTotal)
  checkedSub total amountToSubtract

/-- The larger of a share of all funds, in basis points, and an amount. -/
def effectiveReserve (percentageBps amount amountToSubtract : Nat) : Except Error Nat := do
  let total ← l.getTotalSystemBalance amountToSubtract
  let scaled ← checked (total * percentageBps)
  return max (scaled / 10000) amount

section

variable (amountToSubtract : Nat)

def getEffectiveMinimumWithdrawalReserve : Except Error Nat :=
  l.effectiveReserve l.minimumWithdrawalReservePercentageBps l.minimumWithdrawalReserveAmount amountToSubtract

def getEffectiveTargetWithdrawalReserve : Except Error Nat :=
  l.effectiveReserve l.targetWithdrawalReservePercentageBps l.targetWithdrawalReserveAmount amountToSubtract

def getTargetReserveDeficit : Except Error Nat := do
  let target ← l.getEffectiveTargetWithdrawalReserve amountToSubtract
  return target - l.reserve

def isWithdrawalReserveBelowMinimum : Except Error Bool := do
  let minimum ← l.getEffectiveMinimumWithdrawalReserve amountToSubtract
  return l.reserve < minimum

end

/-- `receive`: whatever arrives counts towards what was unstaked. -/
def receive (value : Nat) : Ledger :=
  { l with
    balance := l.balance + value
    pendingPermissionlessUnstake := l.pendingPermissionlessUnstake - value }

end Ledger

structure YieldProvider (σ : Type) where
  withdrawableValue : Address → World σ → Except Error (Nat × World σ)
  beforeWithdrawFromYieldProvider : Address → Bool → World σ → Except Error (World σ)
  withdrawFromYieldProvider : Address → Nat → World σ → Except Error (World σ)
  pauseStaking : Address → World σ → Except Error (World σ)

/-- `_fundReserve` and `fund` of the message service. -/
def World.fundReserve {σ : Type} (w : World σ) (amount : Nat) : Except Error (World σ) := do
  failIf (w.balance < amount) .insufficientBalance
  failIf (amount = 0) .noEthSent
  return { w with reserve := w.reserve + amount, balance := w.balance - amount }

namespace YieldProvider

variable {σ : Type} (hooks : YieldProvider σ) (yieldProvider : Address)

def withdrawable (w : World σ) : Except Error (Nat × World σ) := do
  failIf (w.yieldProviderIndex yieldProvider = 0) .unknownYieldProvider
  let fetched ← hooks.withdrawableValue yieldProvider w
  return (min fetched.1 (fetched.2.userFunds yieldProvider), fetched.2)

def delegatecallWithdrawFromYieldProvider (amount : Nat) (w : World σ) : Except Error (World σ) :=
  if amount = 0 then .ok w
  else do
    let w ← hooks.withdrawFromYieldProvider yieldProvider amount w
    let userFunds ← checkedSub (w.userFunds yieldProvider) amount
    let total ← checkedSub w.userFundsInYieldProvidersTotal amount
    return { w with
      userFunds := Function.update w.userFunds yieldProvider userFunds
      userFundsInYieldProvidersTotal := total }

def pauseStakingIfNotAlready (w : World σ) : Except Error (World σ) :=
  if w.isStakingPaused yieldProvider then .ok w
  else do
    let w ← hooks.pauseStaking yieldProvider w
    return { w with isStakingPaused := Function.update w.isStakingPaused yieldProvider true }

def replenishWithdrawalReserve (w : World σ) : Except Error (World σ) := do
  failIf w.permissionlessPaused .isPaused
  failIf (w.yieldProviderIndex yieldProvider = 0) .unknownYieldProvider
  let below ← w.isWithdrawalReserveBelowMinimum 0
  failIf (¬ below) .withdrawalReserveNotInDeficit
  let targetDeficit ← w.getTargetReserveDeficit 0
  if targetDeficit ≤ w.balance then w.fundReserve targetDeficit
  else do
    let yieldManagerBalance := w.balance
    let w ← hooks.beforeWithdrawFromYieldProvider yieldProvider true w
    let queried ← hooks.withdrawable yieldProvider w
    failIf (queried.1 = 0 ∧ yieldManagerBalance = 0) .noAvailableFundsToReplenishWithdrawalReserve
    let withdrawAmount := min queried.1 (targetDeficit - yieldManagerBalance)
    let w ← hooks.delegatecallWithdrawFromYieldProvider yieldProvider withdrawAmount queried.2
    let moved ← checked (yieldManagerBalance + withdrawAmount)
    let w ← w.fundReserve moved
    if queried.1 < targetDeficit - yieldManagerBalance then hooks.pauseStakingIfNotAlready yieldProvider w else .ok w

end YieldProvider

end Lineth.Yield
