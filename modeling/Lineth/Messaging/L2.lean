import Lineth.Messaging.Common

/-!
# The L2 message service

Anchoring of L1 message hashes, claims of anchored messages, and sending to L1. -/

namespace Lineth.Messaging

open Evm Contract Rollup

inductive InboxStatus where
  | unknown | received | claimed
  deriving DecidableEq

structure L2 where
  lastAnchoredL1MessageNumber : Word
  l1RollingHashes : Word → Word
  inboxL1L2MessageStatus : Word → InboxStatus
  nextMessageNumber : Word
  minimumFeeInWei : Word
  rateLimiter : RateLimiter
  reentrancyGuardEntered : Bool
  messageSender : Address

inductive L2Log where
  | l1L2MessageHashesAddedToInbox (messageHashes : List Word)
  | rollingHashUpdated (messageNumber rollingHash : Word)
  | messageClaimed (messageHash : Word)
  | messageSent (message : Message) (messageHash : Word)
  | minimumFeeChanged (previousMinimumFee newMinimumFee : Word)
  deriving DecidableEq

def L2.initial (rateLimitPeriod rateLimitAmount currentPeriodEnd : Word) : L2 where
  lastAnchoredL1MessageNumber := 0
  l1RollingHashes _ := 0
  inboxL1L2MessageStatus _ := .unknown
  nextMessageNumber := 1
  minimumFeeInWei := 100000000000000
  rateLimiter := ⟨rateLimitPeriod, rateLimitAmount, currentPeriodEnd, 0⟩
  reentrancyGuardEntered := false
  messageSender := 0

/-- `L2MessageService.initialize` on fresh storage, as far as the modelled functions read it. -/
def l2MessageServiceInit (rateLimitPeriod rateLimitAmount timestamp : Word) : Except Error L2 := do
  if rateLimitPeriod = 0 then throw .periodIsZero
  if rateLimitAmount = 0 then throw .limitIsZero
  let currentPeriodEnd ← checkedAdd timestamp rateLimitPeriod
  return .initial rateLimitPeriod rateLimitAmount currentPeriodEnd

variable (keccak : List Byte → Word)

/-! ### Anchoring -/

structure AnchorLoop where
  inboxL1L2MessageStatus : Word → InboxStatus
  rollingHash : Word
  currentL1MessageNumber : Word

/-- One turn of the anchoring loop; a hash that is already in the inbox is skipped. -/
def anchorHash (a : AnchorLoop) (messageHash : Word) : Except Error AnchorLoop :=
  if a.inboxL1L2MessageStatus messageHash = .unknown then do
    let next ← checkedAdd a.currentL1MessageNumber 1
    return ⟨Function.update a.inboxL1L2MessageStatus messageHash .received,
      efficientKeccak keccak a.rollingHash messageHash, next⟩
  else
    .ok a

def anchorL1L2MessageHashes (ctx : Ctx) (messageHashes : List Word)
    (startingMessageNumber finalMessageNumber finalRollingHash : Word) (s : L2) : Except Error (L2 × List L2Log) := do
  if ctx.paused .general then throw (.isPaused .general)
  onlyRole ctx .l1L2MessageSetter
  if messageHashes.length = 0 then throw .messageHashesListLengthIsZero
  if messageHashes.length > 100 then throw (.messageHashesListLengthHigherThanOneHundred messageHashes.length)
  if finalRollingHash = 0 then throw .finalRollingHashIsZero
  let currentL1MessageNumber := s.lastAnchoredL1MessageNumber
  if startingMessageNumber = 0 then throw .arithmeticOverflow
  if startingMessageNumber - 1 ≠ currentL1MessageNumber then
    throw (.l1MessageNumberSynchronizationWrong (startingMessageNumber - 1) currentL1MessageNumber)
  let a ← messageHashes.foldlM (anchorHash keccak)
    ⟨s.inboxL1L2MessageStatus, s.l1RollingHashes currentL1MessageNumber, currentL1MessageNumber⟩
  if a.currentL1MessageNumber ≠ finalMessageNumber then
    throw (.l1MessageNumberSynchronizationWrong finalMessageNumber a.currentL1MessageNumber)
  if finalRollingHash ≠ a.rollingHash then
    throw (.l1RollingHashSynchronizationWrong finalRollingHash a.rollingHash)
  let s := { s with inboxL1L2MessageStatus := a.inboxL1L2MessageStatus }
  if a.currentL1MessageNumber ≠ s.lastAnchoredL1MessageNumber then
    return ({ s with
        lastAnchoredL1MessageNumber := a.currentL1MessageNumber
        l1RollingHashes := Function.update s.l1RollingHashes a.currentL1MessageNumber a.rollingHash },
      [.l1L2MessageHashesAddedToInbox messageHashes, .rollingHashUpdated a.currentL1MessageNumber a.rollingHash])
  else
    return (s, [])

/-! ### Claiming -/

def L2.setClaimed (messageHash : Word) (s : L2) : L2 :=
  { s with inboxL1L2MessageStatus := Function.update s.inboxL1L2MessageStatus messageHash .claimed }

def updateL1L2MessageStatusToClaimed (messageHash : Word) (s : L2) : Except Error L2 :=
  if s.inboxL1L2MessageStatus messageHash ≠ .received then
    .error (.messageDoesNotExistOrHasAlreadyBeenClaimed messageHash)
  else
    .ok (s.setClaimed messageHash)

def L2.leaveNonReentrant (s : L2) : L2 := { s with reentrancyGuardEntered := false }

def L2.claimMessage (ctx : Ctx) (m : Message) (feeRecipient : Address) (s : L2) : Prog L2 L2Log Error :=
  let messageHash := hashMessage keccak m
  .attempt (do
    if s.reentrancyGuardEntered then throw .reentrantCall
    requireTypeAndGeneralNotPaused ctx .l1L2
    updateL1L2MessageStatusToClaimed messageHash { s with reentrancyGuardEntered := true }) fun s =>
  .call { s with messageSender := m.from_ } [] fun callSuccess s =>
    if callSuccess then
      distributeFees L2.leaveNonReentrant ctx m.fee m.to_ m.calldata feeRecipient { s with messageSender := 0 }
        [.messageClaimed messageHash]
    else
      .revert (.messageSendingFailed m.to_)

/-! ### Sending and setters -/

/-- `_sendMessage` of L2 charges the minimum fee, rate-limits the rest and pays the minimum fee to `coinbase`. -/
def L2.sendMessage (ctx : Ctx) (coinbase to_ : Address) (fee : Word) (calldata : List Byte) (s : L2) :
    Prog L2 L2Log Error :=
  .attempt (do
    requireTypeAndGeneralNotPaused ctx .l2L1
    if to_ = 0 then throw .zeroAddressNotAllowed
    if fee > ctx.value then throw .valueSentTooLow
    let coinbaseFee := s.minimumFeeInWei
    if fee < coinbaseFee then throw .feeTooLow
    let postmanFee := fee - coinbaseFee
    let valueSent := ctx.value - fee
    let messageNumber := s.nextMessageNumber
    let next ← checkedAdd messageNumber 1
    let used ← checkedAdd valueSent postmanFee
    let rateLimiter ← s.rateLimiter.addUsedAmount ctx.timestamp used
    let m : Message := ⟨ctx.sender, to_, postmanFee, valueSent, messageNumber, calldata⟩
    pure ({ s with nextMessageNumber := next, rateLimiter := rateLimiter },
      [L2Log.messageSent m (hashMessage keccak m)])) fun (s, logs) =>
  .call s logs fun success s => if success then .ret s [] else .revert (.feePaymentFailed coinbase)

def setMinimumFee (ctx : Ctx) (feeInWei : Word) (s : L2) : Except Error (L2 × List L2Log) := do
  onlyRole ctx .minimumFeeSetter
  return ({ s with minimumFeeInWei := feeInWei }, [.minimumFeeChanged s.minimumFeeInWei feeInWei])

def L2.resetRateLimitAmount (ctx : Ctx) (amount : Word) (s : L2) : Except Error (L2 × List L2Log) := do
  let rateLimiter ← s.rateLimiter.resetRateLimitAmount ctx amount
  return ({ s with rateLimiter := rateLimiter }, [])

def L2.resetAmountUsedInPeriod (ctx : Ctx) (s : L2) : Except Error (L2 × List L2Log) := do
  let rateLimiter ← s.rateLimiter.resetAmountUsedInPeriod ctx
  return ({ s with rateLimiter := rateLimiter }, [])

/-! ### Entry points -/

inductive L2Entrypoint where
  | anchorL1L2MessageHashes (messageHashes : List Word)
      (startingMessageNumber finalMessageNumber finalRollingHash : Word)
  | claimMessage (message : Message) (feeRecipient : Address)
  | sendMessage (coinbase to_ : Address) (fee : Word) (calldata : List Byte)
  | setMinimumFee (feeInWei : Word)
  | resetRateLimitAmount (amount : Word)
  | resetAmountUsedInPeriod

structure L2Action where
  ctx : Ctx
  entrypoint : L2Entrypoint

def l2Code (a : L2Action) (s : L2) : Prog L2 L2Log Error :=
  match a.entrypoint with
  | .anchorL1L2MessageHashes hashes start final rollingHash =>
    .atomic (anchorL1L2MessageHashes keccak a.ctx hashes start final rollingHash s)
  | .claimMessage m feeRecipient => L2.claimMessage keccak a.ctx m feeRecipient s
  | .sendMessage coinbase to_ fee calldata => L2.sendMessage keccak a.ctx coinbase to_ fee calldata s
  | .setMinimumFee fee => .atomic (setMinimumFee a.ctx fee s)
  | .resetRateLimitAmount amount => .atomic (L2.resetRateLimitAmount a.ctx amount s)
  | .resetAmountUsedInPeriod => .atomic (L2.resetAmountUsedInPeriod a.ctx s)

end Lineth.Messaging
