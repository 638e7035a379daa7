import Lineth.L2Execution.Guest
import Lineth.Rollup.Contract

/-!
# The outcome of a forced transaction

The rollup can only finalize past the deadline of a forced transaction if the guest accepts some outcome for it. A
transaction that is not in the block is proved invalid, by its sender's nonce or balance. This works out exactly if
the sender has an account and the transaction's cost is less than `2 ^ 256`. The gateway admits others. -/

namespace Lineth.L2Execution

open Evm Except Acceptance

variable (host : Host) (chainId : BitVec 64) (payload : ExecutionPayload) (preStateRoot : Word)
  (nodes : List (List Byte)) (st₀ st : FtxState) (before : List ForcedTransactionWitness)
  (ftx : ForcedTransactionWitness) (tx : Transaction) (fromAddress : Address) (account : Option Account)

/-- A forced transaction whose turn it is when the loop is in state `st`, in a block without it. -/
structure Pending : Prop where
  number : ftx.number.toNat = st.lastProcessedNumber.toNat + 1
  deadline : payload.blockNumber ≤ ftx.deadline
  decodes : host.decodeTx ftx.signedTxRlp = some tx
  recovers : host.recoverSender tx chainId = some fromAddress
  notInBlock : host.keccak ftx.signedTxRlp ∉ payload.rawTransactions.map host.keccak

def Accepts : Prop :=
  ∃ st, validateForcedTransactions host chainId payload preStateRoot nodes st₀ (before ++ [ftx]) = .ok st

def cost : Nat := maxGasFee tx.toTxInput + tx.value.toNat

/-- A sender without an account has nonce and balance 0. -/
def emptyAccount : Account := ⟨0, 0⟩

/-- Whichever reason makes the transaction invalid, the guest accepts that reason. -/
def ProvablyInvalid : Prop :=
  ((account.getD emptyAccount).nonce ≠ tx.nonce →
    Accepts host chainId payload preStateRoot nodes st₀ before { ftx with acceptance := badNonce }) ∧
  ((account.getD emptyAccount).balance.toNat < cost tx →
    Accepts host chainId payload preStateRoot nodes st₀ before { ftx with acceptance := badBalance })

variable {host chainId payload preStateRoot nodes st₀ st before ftx tx fromAddress account}

@[simp] theorem toTxInput_nonce (tx : Transaction) : tx.toTxInput.nonce = some tx.nonce := by
  rcases tx with ⟨_, _, _, _, _ | _⟩ <;> rfl

@[simp] theorem toTxInput_value (tx : Transaction) : tx.toTxInput.value = tx.value := by
  rcases tx with ⟨_, _, _, _, _ | _⟩ <;> rfl

@[simp] theorem toTxInput_to (tx : Transaction) : tx.toTxInput.to_ = tx.to_ := by
  rcases tx with ⟨_, _, _, _, _ | _⟩ <;> rfl

/-- Only the declared outcome decides whether the guest accepts a pending forced transaction. -/
theorem Pending.accepts_iff (h : Pending host chainId payload st ftx tx fromAddress)
    (hbefore : validateForcedTransactions host chainId payload preStateRoot nodes st₀ before = .ok st)
    (acceptance : Byte) :
    Accepts host chainId payload preStateRoot nodes st₀ before { ftx with acceptance } ↔
      ∃ addresses, checkOutcome host payload preStateRoot nodes tx.toTxInput fromAddress (host.keccak ftx.signedTxRlp)
        acceptance = .ok addresses := by
  have hfit : ¬ 2 ^ 64 ≤ st.lastProcessedNumber.toNat + 1 := by have := ftx.number.isLt; have := h.number; omega
  simp only [Accepts, validateForcedTransactions, List.foldlM_append, List.foldlM_cons, List.foldlM_nil] at hbefore ⊢
  rw [hbefore]
  simp only [validateForcedTransaction, ok_bind, failIf_of_not hfit, failIf_of_not (not_not.2 h.number),
    failIf_of_not (BitVec.not_lt.2 h.deadline), h.decodes, h.recovers, orThrow_some, pure_eq_ok, bind_eq_ok]
  constructor
  · rintro ⟨_, _, ⟨addresses, hout, _⟩, _⟩
    exact ⟨addresses, hout⟩
  · rintro ⟨addresses, hout⟩
    exact ⟨_, _, ⟨addresses, hout, rfl⟩, rfl⟩

theorem checkOutcome_invalid_iff {acceptance : Byte} {txHash : Word} {txInput : TxInput}
    (ha : acceptance = badNonce ∨ acceptance = badBalance) :
    (∃ addresses, checkOutcome host payload preStateRoot nodes txInput fromAddress txHash acceptance = .ok addresses) ↔
      txHash ∉ payload.rawTransactions.map host.keccak ∧
        checkInvalid host preStateRoot nodes txInput fromAddress acceptance = .ok () := by
  have hfrom : acceptance ≠ filteredAddressFrom := by rintro rfl; revert ha; decide
  have hto : acceptance ≠ filteredAddressTo := by rintro rfl; revert ha; decide
  have hincluded : acceptance ≠ included := by rintro rfl; revert ha; decide
  have hknown : ¬ (acceptance ≠ badNonce ∧ acceptance ≠ badBalance) := by tauto
  simp only [checkOutcome, if_neg hfrom, if_neg hto, if_neg hincluded, failIf_of_not hknown, ok_bind, bind_eq_ok,
    failIf_eq_ok]
  constructor
  · rintro ⟨_, _, hblock, _, h, _⟩
    exact ⟨hblock, h⟩
  · rintro ⟨hblock, h⟩
    exact ⟨[], (), hblock, (), h, rfl⟩

section

variable (hacct : host.account preStateRoot nodes fromAddress = some account)

include hacct

theorem checkInvalid_badNonce_iff :
    checkInvalid host preStateRoot nodes tx.toTxInput fromAddress badNonce = .ok () ↔
      ∃ a, account = some a ∧ a.nonce ≠ tx.nonce := by
  cases account <;> simp [checkInvalid, hacct, toTxInput_nonce]

theorem checkInvalid_badBalance_iff :
    checkInvalid host preStateRoot nodes tx.toTxInput fromAddress badBalance = .ok () ↔
      ∃ a, account = some a ∧ cost tx < 2 ^ 256 ∧ a.balance.toNat < cost tx := by
  have hne : badBalance ≠ badNonce := by decide
  cases account <;> simp [checkInvalid, hacct, toTxInput_value, hne, cost, bind_eq_ok]

end

/-- A pending forced transaction whose sender's account the witnesses prove, or prove absent, has a provable outcome
exactly if it costs nothing and has nonce 0 where there is no account, and its cost fits 256 bits where there is one. -/
theorem provablyInvalid_iff
    (hbefore : validateForcedTransactions host chainId payload preStateRoot nodes st₀ before = .ok st)
    (hpending : Pending host chainId payload st ftx tx fromAddress)
    (hacct : host.account preStateRoot nodes fromAddress = some account) :
    ProvablyInvalid host chainId payload preStateRoot nodes st₀ before ftx tx account ↔
      (account = none → tx.nonce = 0 ∧ cost tx = 0) ∧ (account ≠ none → cost tx < 2 ^ 256) := by
  rw [ProvablyInvalid, hpending.accepts_iff hbefore, hpending.accepts_iff hbefore,
    checkOutcome_invalid_iff (.inl rfl), checkOutcome_invalid_iff (.inr rfl), checkInvalid_badNonce_iff hacct,
    checkInvalid_badBalance_iff hacct, and_iff_right hpending.notInBlock, and_iff_right hpending.notInBlock]
  cases account with
  | none =>
    simp only [Option.getD_none, emptyAccount, reduceCtorEq, false_and, exists_false, imp_false, not_not, forall_const,
      ne_eq, not_true_eq_false, IsEmpty.forall_iff, and_true]
    constructor
    · rintro ⟨hnonce, hbalance⟩
      exact ⟨hnonce.symm, by simpa using hbalance⟩
    · rintro ⟨hnonce, hcost⟩
      exact ⟨hnonce.symm, by simp [hcost]⟩
  | some a =>
    simp only [Option.getD_some, Option.some.injEq, exists_eq_left', reduceCtorEq, IsEmpty.forall_iff, ne_eq,
      not_false_eq_true, forall_const, true_and]
    constructor
    · rintro ⟨-, h⟩
      -- a cost beyond 256 bits exceeds every balance
      by_contra hcost
      exact hcost (h (lt_of_lt_of_le a.balance.isLt (Nat.le_of_not_lt hcost))).1
    · intro hcost
      exact ⟨id, fun hbalance => ⟨hcost, hbalance⟩⟩

/-! ### Two transactions that the gateway admits -/

def Transaction.ofGateway (t : Rollup.Eip1559Transaction) : Transaction where
  nonce := t.nonce.setWidth 64
  gas := t.gasLimit.setWidth 64
  to_ := if t.to_ = 0 then none else some t.to_
  value := t.value
  fees := .feeMarket (t.maxFeePerGas.setWidth 128)

def transfer (value : Word) : Rollup.Eip1559Transaction where
  nonce := 0
  maxPriorityFeePerGas := 1
  maxFeePerGas := 1
  gasLimit := 21000
  to_ := 7
  value := value
  input := []
  accessList := []
  yParity := 0
  r := 1
  s := 1

/-- A host that decodes one forced transaction, of sender 5 with the given account. -/
def Host.single (tx : Transaction) (account : Option Account) : Host where
  keccak bytes := BitVec.ofNat 256 bytes.length
  decodeStateless _ := none
  decodeMinimalHeader _ := none
  decodeTx _ := some tx
  recoverSender _ _ := some 5
  execute _ _ _ := none
  account _ _ _ := some account

def emptyBlock : ExecutionPayload := ⟨0, 0, 100, 0, 7, 0, [], []⟩

def firstForced : ForcedTransactionWitness := ⟨1, [2], badBalance, 200⟩

theorem pending_single (tx : Transaction) (account : Option Account) :
    Pending (Host.single tx account) 59144 emptyBlock ⟨0, 0, []⟩ firstForced tx 5 where
  number := by decide
  deadline := by decide
  decodes := rfl
  recovers := rfl
  notInBlock := by simp [emptyBlock]

/-- A sender with 10 wei cannot pay for gas. -/
theorem provablyInvalid_iff_poor :
    ProvablyInvalid (Host.single (.ofGateway (transfer 0)) (some ⟨0, 10⟩)) 59144 emptyBlock 0 []
      ⟨0, 0, []⟩ [] firstForced (.ofGateway (transfer 0)) (some ⟨0, 10⟩) :=
  (provablyInvalid_iff rfl (pending_single _ _) rfl).2 ⟨by simp, fun _ => by decide⟩

/-- Two transfers that the gateway admits have no provable outcome: the first sender has no account and cannot pay; the
second has an account, with a balance that covers the cost modulo `2 ^ 256` but not the cost. -/
theorem no_provable_outcome :
    Rollup.validateForcedTransaction Rollup.GatewayConfig.sample (transfer 0) = .ok () ∧
    validateForcedTransactions (Host.single (.ofGateway (transfer 0)) none) 59144 emptyBlock 0 [] ⟨0, 0, []⟩
      [firstForced] = .error .forcedTxSenderAbsent ∧
    ¬ ProvablyInvalid (Host.single (.ofGateway (transfer 0)) none) 59144 emptyBlock 0 [] ⟨0, 0, []⟩ [] firstForced
      (.ofGateway (transfer 0)) none ∧
    Rollup.validateForcedTransaction Rollup.GatewayConfig.sample (transfer (BitVec.allOnes 256)) = .ok () ∧
    validateForcedTransactions (Host.single (.ofGateway (transfer (BitVec.allOnes 256)))
    (some ⟨0, 30000⟩)) 59144 emptyBlock 0 []
      ⟨0, 0, []⟩ [firstForced] = .error .overflow ∧
    ¬ ProvablyInvalid (Host.single (.ofGateway (transfer (BitVec.allOnes 256))) (some ⟨0, 30000⟩)) 59144 emptyBlock 0 []
      ⟨0, 0, []⟩ [] firstForced (.ofGateway (transfer (BitVec.allOnes 256))) (some ⟨0, 30000⟩) := by
  refine ⟨rfl, rfl, ?_, rfl, rfl, ?_⟩
  · rintro ⟨-, h⟩
    obtain ⟨st, hst⟩ := h (by decide)
    cases hst
  · rintro ⟨-, h⟩
    obtain ⟨st, hst⟩ := h (by decide)
    cases hst

end Lineth.L2Execution
