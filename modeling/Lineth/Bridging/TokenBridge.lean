import Lineth.Lib.Except
import Lineth.Lib.Memory

/-!
# Two paired token bridges

`TokenBridgeBase` on both layers, with the messages in flight: each is delivered at most once, in any order.
Transactions that revert do nothing. Tokens that are called fail, deliver any amount, and call the functions of the
bridges that have no reentrancy guard (`Call`). Pauses, roles and fees only make calls revert. -/

namespace Lineth.Bridging

open Evm
open Except (failIf orThrow)

def empty : Address := 0x0

def reservedStatus : Address := 0x111

def nativeStatus : Address := 0x222

def deployedStatus : Address := 0x333

inductive Error
  | zeroAddressNotAllowed
  | zeroAmountNotAllowed (amount : Word)
  | reservedToken (token : Address)
  | alreadyBridgedToken (token : Address)
  | notReserved (token : Address)
  | tokenListEmpty
  | tokenNotDeployed (token : Address)
  | alreadyBrigedToNativeTokenSet (token : Address)
  | statusAddressNotAllowed (token : Address)
  | nativeToBridgedTokenAlreadySet (token : Address)
  | sourceChainSameAsTargetChain
  /-- A call of the token reverts. -/
  | tokenCall
  /-- There is no such message to claim. -/
  | notInFlight
  deriving DecidableEq

inductive Layer
  | l1
  | l2
  deriving DecidableEq

def Layer.other : Layer → Layer
  | l1 => l2
  | l2 => l1

@[simp] theorem Layer.other_other (c : Layer) : c.other.other = c := by cases c <;> rfl

@[simp] theorem Layer.other_ne (c : Layer) : c.other ≠ c := by cases c <;> decide

theorem Layer.eq_or (c e : Layer) : e = c ∨ e = c.other := by cases c <;> cases e <;> decide

inductive Message
  | completeBridging (nativeToken : Address) (amount : Word) (recipient : Address) (chainId : Word)
      (tokenMetadata : List Byte)
  | setDeployed (nativeTokens : List Address)
  deriving DecidableEq

structure TokenBridge where
  nativeToBridgedToken : Word → Address → Address
  bridgedToNativeToken : Address → Address
  sourceChainId : Word
  targetChainId : Word
  chain_ne : sourceChainId ≠ targetChainId

namespace TokenBridge

variable (b : TokenBridge)

/-- The mapping value of a token native to this layer. -/
def status (token : Address) : Address := b.nativeToBridgedToken b.sourceChainId token

def setMapping (chainId : Word) (token value : Address) : TokenBridge :=
  { b with
    nativeToBridgedToken :=
      Function.update b.nativeToBridgedToken chainId (Function.update (b.nativeToBridgedToken chainId) token value) }

def setStatus (token value : Address) : TokenBridge := b.setMapping b.sourceChainId token value

def setBridged (nativeToken bridgedToken : Address) : TokenBridge :=
  { b.setMapping b.targetChainId nativeToken bridgedToken with
    bridgedToNativeToken := Function.update b.bridgedToNativeToken bridgedToken nativeToken }

def init (sourceChainId targetChainId : Word) (reservedTokens : List Address) : Except Error TokenBridge := do
  if h : sourceChainId = targetChainId then throw .sourceChainSameAsTargetChain
  else
    failIf (empty ∈ reservedTokens) .zeroAddressNotAllowed
    return reservedTokens.foldl (fun b token => b.setStatus token reservedStatus)
      ⟨fun _ _ => empty, fun _ => empty, sourceChainId, targetChainId, h⟩

def isNewToken (token : Address) : Prop := b.bridgedToNativeToken token = empty ∧ b.status token = empty

instance (token : Address) : Decidable (b.isNewToken token) := inferInstanceAs (Decidable (_ ∧ _))

def confirmDeployment (tokens : List Address) : Except Error Message := do
  failIf (tokens = []) .tokenListEmpty
  let natives ← tokens.mapM fun token => do
    failIf (b.bridgedToNativeToken token = empty) (Error.tokenNotDeployed token)
    return b.bridgedToNativeToken token
  return .setDeployed natives

def setDeployed (nativeTokens : List Address) : TokenBridge :=
  nativeTokens.foldl (fun b token => b.setStatus token deployedStatus) b

def setReserved (token : Address) : Except Error TokenBridge := do
  failIf (token = empty) .zeroAddressNotAllowed
  failIf (¬ b.isNewToken token) (.alreadyBridgedToken token)
  return b.setStatus token reservedStatus

def removeReserved (token : Address) : Except Error TokenBridge := do
  failIf (token = empty) .zeroAddressNotAllowed
  failIf (b.status token ≠ reservedStatus) (.notReserved token)
  return b.setStatus token empty

def setCustomContract (nativeToken targetContract : Address) : Except Error TokenBridge := do
  failIf (nativeToken = empty ∨ targetContract = empty) .zeroAddressNotAllowed
  failIf (¬ b.isNewToken nativeToken) (.alreadyBridgedToken nativeToken)
  failIf (b.bridgedToNativeToken targetContract ≠ empty) (.alreadyBrigedToNativeTokenSet targetContract)
  failIf (targetContract ∈ [nativeStatus, deployedStatus, reservedStatus]) (.statusAddressNotAllowed targetContract)
  failIf (b.nativeToBridgedToken b.targetChainId nativeToken ≠ empty) (.nativeToBridgedTokenAlreadySet nativeToken)
  return b.setBridged nativeToken targetContract

end TokenBridge

/-! ### Both layers -/

/-- The bridges, and the messages in flight with the layer they go to. -/
structure World where
  bridge : Layer → TokenBridge
  messages : List (Layer × Message)

namespace World

def set (w : World) (c : Layer) (b : TokenBridge) : World := { w with bridge := Function.update w.bridge c b }

def send (w : World) (c : Layer) (m : Message) : World := { w with messages := w.messages ++ [(c.other, m)] }

def claim (w : World) (i : Nat) : World := { w with messages := w.messages.eraseIdx i }

@[simp] theorem bridge_set_self (w : World) (c : Layer) (b : TokenBridge) : (w.set c b).bridge c = b := by simp [set]

theorem bridge_set_of_ne (w : World) {c e : Layer} (b : TokenBridge) (h : e ≠ c) :
    (w.set c b).bridge e = w.bridge e := by
  simp [set, h]

end World

/-- The calls without a reentrancy guard; a `setDeployed` message is delivered by its place among those in flight. -/
inductive Call
  | confirmDeployment (layer : Layer) (tokens : List Address)
  | setReserved (layer : Layer) (token : Address)
  | removeReserved (layer : Layer) (token : Address)
  | setCustomContract (layer : Layer) (nativeToken targetContract : Address)
  | claimSetDeployed (i : Nat)
  deriving DecidableEq

def Call.exec (w : World) : Call → Except Error World
  | confirmDeployment c tokens => do return w.send c (← (w.bridge c).confirmDeployment tokens)
  | setReserved c token => do return w.set c (← (w.bridge c).setReserved token)
  | removeReserved c token => do return w.set c (← (w.bridge c).removeReserved token)
  | setCustomContract c nativeToken targetContract => do
    return w.set c (← (w.bridge c).setCustomContract nativeToken targetContract)
  | claimSetDeployed i =>
    match w.messages[i]? with
    | some (c, .setDeployed tokens) => return (w.claim i).set c ((w.bridge c).setDeployed tokens)
    | _ => throw .notInFlight

/-- A call that reverts does nothing. -/
def Call.step (w : World) (call : Call) : World := ((call.exec w).toOption).getD w

/-- What the token does in a transaction: the amount it delivers, if it does not revert, its metadata, the address
of a new bridged token, and the calls it makes. -/
structure TokenCalls where
  received : Option Word
  tokenMetadata : List Byte
  bridgedToken : Address
  calls : List Call
  deriving DecidableEq

namespace World

def calls (w : World) (t : TokenCalls) : World := t.calls.foldl Call.step w

def bridgeToken (w : World) (c : Layer) (token : Address) (amount : Word) (recipient : Address) (t : TokenCalls) :
    Except Error World := do
  failIf (token = empty ∨ recipient = empty) .zeroAddressNotAllowed
  failIf (amount = 0) (.zeroAmountNotAllowed amount)
  let b := w.bridge c
  let nativeMappingValue := b.status token
  failIf (nativeMappingValue = reservedStatus) (.reservedToken token)
  let nativeToken := b.bridgedToNativeToken token
  let received ← orThrow t.received .tokenCall
  let w := w.calls t
  if nativeToken ≠ empty then
    return w.send c (.completeBridging nativeToken amount recipient b.targetChainId [])
  else
    let w := if nativeMappingValue = empty then w.set c ((w.bridge c).setStatus token nativeStatus) else w
    let tokenMetadata := if nativeMappingValue ≠ deployedStatus then t.tokenMetadata else []
    return w.send c (.completeBridging token received recipient b.sourceChainId tokenMetadata)

/-- The amount goes from the escrow or is minted by the token called; an address without a token reverts there. -/
def completeBridging (w : World) (c : Layer) (nativeToken : Address) (chainId : Word) (t : TokenCalls) :
    Except Error World := do
  let b := w.bridge c
  let nativeMappingValue := b.nativeToBridgedToken chainId nativeToken
  failIf (t.received = none) .tokenCall
  if nativeMappingValue = nativeStatus ∨ nativeMappingValue = deployedStatus then return w.calls t
  else if nativeMappingValue = empty then return (w.set c (b.setBridged nativeToken t.bridgedToken)).calls t
  else return w.calls t

end World

inductive Transaction
  | call (call : Call)
  | bridgeToken (layer : Layer) (token : Address) (amount : Word) (recipient : Address) (t : TokenCalls)
  /-- Delivers a `completeBridging` message. -/
  | claimCompleteBridging (i : Nat) (t : TokenCalls)
  deriving DecidableEq

def Transaction.exec (w : World) : Transaction → Except Error World
  | call c => c.exec w
  | bridgeToken c token amount recipient t => w.bridgeToken c token amount recipient t
  | claimCompleteBridging i t =>
    match w.messages[i]? with
    | some (c, .completeBridging nativeToken _ _ chainId _) => (w.claim i).completeBridging c nativeToken chainId t
    | _ => throw .notInFlight

def Transaction.step (w : World) (tx : Transaction) : World := ((tx.exec w).toOption).getD w

def World.run (w : World) (txs : List Transaction) : World := txs.foldl Transaction.step w

def Transaction.calls : Transaction → List Call
  | call c => [c]
  | bridgeToken _ _ _ _ t => t.calls
  | claimCompleteBridging _ t => t.calls

end Lineth.Bridging
