import Lineth.Lib.Merkle
import Lineth.Messaging.Common

/-!
# The L1 message service

Sending messages to L2, native-yield reports, and the three ways to claim a message from L2. The functions that call
out are `Contract.Prog`s; the others return the new state and the logs. -/

namespace Lineth.Rollup

open Evm Messaging Contract Except

/-! ### Rate limit setters and the re-entrancy guard -/

def resetRateLimitAmount (ctx : Ctx) (amount : Word) (s : L1) : Except Error (L1 × List Log) := do
  let rateLimiter ← s.rateLimiter.resetRateLimitAmount ctx amount
  return ({ s with rateLimiter := rateLimiter }, [])

def resetAmountUsedInPeriod (ctx : Ctx) (s : L1) : Except Error (L1 × List Log) := do
  let rateLimiter ← s.rateLimiter.resetAmountUsedInPeriod ctx
  return ({ s with rateLimiter := rateLimiter }, [])

def enterNonReentrant (s : L1) : Except Error L1 :=
  if s.reentrancyGuardEntered then .error .reentrantCall else .ok { s with reentrancyGuardEntered := true }

def leaveNonReentrant (s : L1) : L1 := { s with reentrancyGuardEntered := false }

/-! ### Sending -/

variable (keccak : List Byte → Word)

/-- `_addRollingHash`; the subtraction is unchecked. -/
def addRollingHash (messageNumber messageHash : Word) (s : L1) : L1 × Log :=
  let newRollingHash := efficientKeccak keccak (s.rollingHashes (messageNumber - 1)) messageHash
  ({ s with rollingHashes := Function.update s.rollingHashes messageNumber newRollingHash },
    .rollingHashUpdated messageNumber newRollingHash messageHash)

def sendMessage (ctx : Ctx) (to_ : Address) (fee : Word) (calldata : List Byte) (s : L1) :
    Except Error (L1 × List Log) := do
  requireTypeAndGeneralNotPaused ctx .l1L2
  if to_ = 0 then throw .zeroAddressNotAllowed
  if fee > ctx.value then throw .valueSentTooLow
  let messageNumber := s.nextMessageNumber
  let next ← checkedAdd messageNumber 1
  let message : Message := ⟨ctx.sender, to_, fee, ctx.value - fee, messageNumber, calldata⟩
  let messageHash := hashMessage keccak message
  let r := addRollingHash keccak messageNumber messageHash { s with nextMessageNumber := next }
  return (r.1, [r.2, .messageSent message messageHash])

/-- A yield report sends a message without calldata on behalf of the yield manager. -/
def reportNativeYield (ctx : Ctx) (amount : Word) (l2YieldRecipient : Address) (s : L1) :
    Except Error (L1 × List Log) := do
  requireTypeAndGeneralNotPaused ctx .l1L2
  if ctx.sender ≠ s.yieldManager then throw .callerIsNotYieldManager
  if l2YieldRecipient = 0 then throw .zeroAddressNotAllowed
  let messageNumber := s.nextMessageNumber
  let next ← checkedAdd messageNumber 1
  let messageHash := hashMessageWithEmptyCalldata keccak ctx.sender l2YieldRecipient 0 amount messageNumber
  let r := addRollingHash keccak messageNumber messageHash { s with nextMessageNumber := next }
  return (r.1, [r.2, .messageSent ⟨ctx.sender, l2YieldRecipient, 0, amount, messageNumber, []⟩ messageHash])

/-! ### Claiming -/

def setL2L1MessageToClaimed (messageNumber : Word) (s : L1) : Except Error L1 :=
  if s.messageClaimedBitMap messageNumber then .error (.messageAlreadyClaimed messageNumber)
  else .ok { s with messageClaimedBitMap := Function.update s.messageClaimedBitMap messageNumber true }

def merkleLoop (leafIndex : BitVec 32) : Nat → Word → List Word → Word
  | _, node, [] => node
  | height, node, sibling :: proof =>
    let node := if (leafIndex >>> height) &&& 1 = 1 then efficientKeccak keccak sibling node
      else efficientKeccak keccak node sibling
    merkleLoop leafIndex (height + 1) node proof

/-- `_verifyMerkleProof`; `2 ** _proof.length` is checked arithmetic and the cast admits 32 bits. -/
def verifyMerkleProof (leafHash : Word) (proof : List Word) (leafIndex : BitVec 32) (root : Word) :
    Except Error Bool := do
  if 2 ^ 256 ≤ 2 ^ proof.length then throw .arithmeticOverflow
  let maxAllowedIndex := 2 ^ proof.length - 1
  if maxAllowedIndex > 2 ^ 32 - 1 then throw (.safeCastOverflowedUintDowncast 32 maxAllowedIndex)
  if leafIndex.toNat > maxAllowedIndex then throw (.leafIndexOutOfBounds leafIndex maxAllowedIndex)
  return merkleLoop keccak leafIndex 0 leafHash proof == root

section

variable (ctx : Ctx) (p : ClaimMessageWithProofParams) (s : L1)

/-- `_validateAndConsumeMessageProof`. `_claimMessageWithProof` starts with the same statements. -/
def validateAndConsumeMessageProof :
    Except Error (L1 × Word) := do
  requireTypeAndGeneralNotPaused ctx .l2L1
  let merkleDepth := s.l2MerkleRootsDepths p.merkleRoot
  if merkleDepth = 0 then throw .l2MerkleRootDoesNotExist
  if merkleDepth.toNat ≠ p.proof.length then
    throw (.proofLengthDifferentThanMerkleDepth merkleDepth p.proof.length)
  let s ← setL2L1MessageToClaimed p.messageNumber s
  let used ← checkedAdd p.fee p.value
  let rateLimiter ← s.rateLimiter.addUsedAmount ctx.timestamp used
  let messageLeafHash := hashMessage keccak p.message
  let valid ← verifyMerkleProof keccak messageLeafHash p.proof p.leafIndex p.merkleRoot
  if !valid then throw .invalidMerkleProof
  return ({ s with rateLimiter := rateLimiter }, messageLeafHash)

def claimMessageWithProof : Prog L1 Log Error :=
  .attempt (enterNonReentrant s) fun s =>
  .attempt (validateAndConsumeMessageProof keccak ctx p s) fun (s, messageLeafHash) =>
  .call { s with messageSender := p.from_ } [] fun callSuccess s =>
    if callSuccess then
      distributeFees leaveNonReentrant ctx p.fee p.to_ p.data p.feeRecipient { s with messageSender := 0 }
        [.messageClaimed messageLeafHash]
    else
      .revert (.messageSendingFailed p.to_)

def claimMessageWithProofAndWithdrawLST :
    Prog L1 Log Error :=
  .attempt (enterNonReentrant s) fun s =>
  .attempt (do
    if p.value ≤ ctx.balance then throw .lstWithdrawalRequiresDeficit
    if ctx.sender ≠ p.to_ then throw .callerNotLSTWithdrawalRecipient
    validateAndConsumeMessageProof keccak ctx p s) fun (s, messageLeafHash) =>
  .call { s with isWithdrawLSTAllowed := true } [] fun callSuccess s =>
    if callSuccess then
      .ret (leaveNonReentrant { s with isWithdrawLSTAllowed := false }) [.messageClaimed messageLeafHash]
    else
      .revert .yieldManagerCallFailed

end

/-- `ClaimMessageV1.claimMessage`, for messages that an earlier version put into the inbox (status 1). -/
def claimMessage (ctx : Ctx) (m : Message) (feeRecipient : Address) (s : L1) : Prog L1 Log Error :=
  let messageHash := hashMessage keccak m
  .attempt (enterNonReentrant s) fun s =>
  .attempt (do
    requireTypeAndGeneralNotPaused ctx .l2L1
    if s.inboxL2L1MessageStatus messageHash ≠ 1 then
      throw (.messageDoesNotExistOrHasAlreadyBeenClaimed messageHash)
    let used ← checkedAdd m.fee m.valueSent
    let rateLimiter ← s.rateLimiter.addUsedAmount ctx.timestamp used
    pure { s with
      messageSender := m.from_
      inboxL2L1MessageStatus := Function.update s.inboxL2L1MessageStatus messageHash 0
      rateLimiter := rateLimiter }) fun s =>
  .call s [] fun callSuccess s =>
    if callSuccess then
      distributeFees leaveNonReentrant ctx m.fee m.to_ m.calldata feeRecipient { s with messageSender := 0 }
        [.messageClaimed messageHash]
    else
      .revert (.messageSendingFailed m.to_)

/-! ### Yield -/

def transferFundsForNativeYield (ctx : Ctx) (s : L1) : Prog L1 Log Error :=
  .attempt (do requireTypeAndGeneralNotPaused ctx .nativeYieldStaking; onlyRole ctx .yieldProviderStaking) fun _ =>
  .call s [] fun callSuccess s => if callSuccess then .ret s [] else .revert .yieldManagerCallFailed

def fund (ctx : Ctx) (s : L1) : Except Error (L1 × List Log) :=
  if ctx.value = 0 then .error .noEthSent else .ok (s, [])

def setYieldManager (ctx : Ctx) (newYieldManager : Address) (s : L1) : Except Error (L1 × List Log) := do
  onlyRole ctx .setYieldManager
  if newYieldManager = 0 then throw .zeroAddressNotAllowed
  return ({ s with yieldManager := newYieldManager }, [])

/-! ### The Merkle check -/

theorem merkleLoop_eq_climb (leafIndex : BitVec 32) (height : Nat) (node : Word) (proof : List Word) :
    merkleLoop keccak leafIndex height node proof =
      Merkle.climb (efficientKeccak keccak) (leafIndex.toNat / 2 ^ height) node proof := by
  induction proof generalizing height node with
  | nil => rfl
  | cons a proof ih =>
    have hbit : ((leafIndex >>> height) &&& 1 = 1) ↔ leafIndex.toNat / 2 ^ height % 2 = 1 := by
      rw [← BitVec.toNat_inj, BitVec.toNat_and, BitVec.toNat_ushiftRight, Nat.shiftRight_eq_div_pow]
      exact iff_of_eq (congrArg (· = 1) (Nat.and_one_is_mod _))
    rw [merkleLoop, ih, Merkle.climb, Merkle.combine, Nat.pow_succ, ← Nat.div_div_eq_div_mul]
    simp only [hbit]

theorem verifyMerkleProof_eq_ok_true {leafHash root : Word} {proof : List Word} {leafIndex : BitVec 32} :
    verifyMerkleProof keccak leafHash proof leafIndex root = .ok true ↔
      proof.length ≤ 32 ∧ leafIndex.toNat < 2 ^ proof.length ∧
        Merkle.climb (efficientKeccak keccak) leafIndex.toNat leafHash proof = root := by
  have hloop := merkleLoop_eq_climb keccak leafIndex 0 leafHash proof
  rw [Nat.pow_zero, Nat.div_one] at hloop
  have h256 : 2 ^ 256 ≤ 2 ^ proof.length ↔ 256 ≤ proof.length := Nat.pow_le_pow_iff_right (by decide)
  have h32 : 2 ^ proof.length ≤ 2 ^ 32 ↔ proof.length ≤ 32 := Nat.pow_le_pow_iff_right (by decide)
  have hpos : 0 < 2 ^ proof.length := Nat.two_pow_pos _
  simp only [verifyMerkleProof, throw_eq_error, pure_eq_ok, error_bind, hloop, h256,
    ite_error_eq_ok, ok.injEq, beq_iff_eq]
  constructor
  · rintro ⟨-, hcast, hindex, hroot⟩
    exact ⟨h32.1 (by omega), by omega, hroot⟩
  · rintro ⟨hlen, hindex, hroot⟩
    have := h32.2 hlen
    exact ⟨by omega, by omega, by omega, hroot⟩

end Lineth.Rollup
