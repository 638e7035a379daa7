import Lineth.Lib.Call
import Lineth.Rollup.State

/-!
# What the message services of both chains share

The rate limiter, and the payment of the delivery fee at the end of a claim. -/

namespace Lineth.Rollup

open Evm Contract

namespace RateLimiter

def addUsedAmount (timestamp usedAmount : Word) (r : RateLimiter) : Except Error RateLimiter :=
  if usedAmount = 0 then
    .ok r
  else do
    let (periodEnd, used) ←
      if r.currentPeriodEnd < timestamp then do
        let periodEnd ← checkedAdd timestamp r.periodInSeconds
        pure (periodEnd, usedAmount)
      else do
        let used ← checkedAdd usedAmount r.currentPeriodAmountInWei
        pure (r.currentPeriodEnd, used)
    if used > r.limitInWei then throw .rateLimitExceeded
    return { r with currentPeriodEnd := periodEnd, currentPeriodAmountInWei := used }

def resetRateLimitAmount (ctx : Ctx) (amount : Word) (r : RateLimiter) : Except Error RateLimiter := do
  onlyRole ctx .rateLimitSetter
  if r.currentPeriodEnd < ctx.timestamp then
    let periodEnd ← checkedAdd ctx.timestamp r.periodInSeconds
    return { r with currentPeriodEnd := periodEnd, limitInWei := amount, currentPeriodAmountInWei := 0 }
  else
    let used := if amount < r.currentPeriodAmountInWei then amount else r.currentPeriodAmountInWei
    return { r with limitInWei := amount, currentPeriodAmountInWei := used }

def resetAmountUsedInPeriod (ctx : Ctx) (r : RateLimiter) : Except Error RateLimiter := do
  onlyRole ctx .usedRateLimitResetter
  return { r with currentPeriodAmountInWei := 0 }

end RateLimiter

section Fees

variable {S L A : Type} (leave : S → S)

/-- The last statement of `distributeFees`, then `leave`, the end of `nonReentrant`. -/
def payFee (feeReceiver : Address) (s : S) (logs : List L) : Prog S L Error :=
  .call s logs fun callSuccess s =>
    if callSuccess then .ret (leave s) [] else .revert (.feePaymentFailed feeReceiver)

/-- `distributeFees` after the body. An account without code that was sent no calldata is refunded what
delivery did not cost; whether the refund arrives is not checked. -/
def distributeFees (ctx : Ctx) (fee : Word) (to_ : Address) (calldata : List Byte) (feeRecipient : Address)
    (s : S) (logs : List L) : Prog S L Error :=
  if fee = 0 then
    .ret (leave s) logs
  else if calldata = [] ∧ ctx.isEOA to_ ∧ ctx.deliveryFee < fee then
    .call s logs fun _ s => payFee leave (if feeRecipient = 0 then ctx.sender else feeRecipient) s []
  else
    payFee leave (if feeRecipient = 0 then ctx.sender else feeRecipient) s logs

variable {leave} {ctx : Ctx} {fee : Word} {to_ feeRecipient : Address} {calldata : List Byte} {logs : List L} {s₀ s : S}

theorem payFee_segments {Step : S → List L → S → Prop} {feeReceiver : Address}
    (hlogs : Step s₀ logs s) (hleave : ∀ s, Step s [] (leave s)) :
    (payFee leave feeReceiver s logs).Segments Step s₀ :=
  ⟨hlogs, fun _ s => Prog.ite_segments (fun _ => hleave s) fun _ => trivial⟩

theorem distributeFees_segments {Step : S → List L → S → Prop} (hlogs : Step s₀ logs s)
    (hret : Step s₀ logs (leave s)) (hstay : ∀ s, Step s [] s) (hleave : ∀ s, Step s [] (leave s)) :
    (distributeFees leave ctx fee to_ calldata feeRecipient s logs).Segments Step s₀ := by
  refine Prog.ite_segments (fun _ => hret) fun _ => Prog.ite_segments (fun _ => ?_) fun _ =>
    payFee_segments hlogs hleave
  exact ⟨hlogs, fun _ s => payFee_segments (hstay s) hleave⟩

theorem payFee_sat {R : S → List (Entry A L) → S → Prop} {a : A} {feeReceiver : Address} {t : List (Entry A L)}
    (hret : ∀ u s', R s u s' → R s₀ (t ++ logs.map .event ++ u ++ [.returned a]) (leave s')) :
    (payFee leave feeReceiver s logs).Sat R a s₀ t := by
  refine ⟨fun u s' hu => ?_, trivial⟩
  show R s₀ (t ++ logs.map .event ++ u ++ [].map .event ++ [.returned a]) (leave s')
  rw [List.map_nil, List.append_nil]
  exact hret u s' hu

theorem distributeFees_sat {R : S → List (Entry A L) → S → Prop} (hR : Compositional R) {a : A}
    {t : List (Entry A L)}
    (hret : ∀ u s', R s u s' → R s₀ (t ++ logs.map .event ++ u ++ [.returned a]) (leave s')) :
    (distributeFees leave ctx fee to_ calldata feeRecipient s logs).Sat R a s₀ t := by
  unfold distributeFees
  split
  · simpa [Prog.Sat] using hret [] s (hR.refl s)
  · split
    · -- the refund first, then the fee
      have hpay : ∀ u s', R s u s' →
          (payFee leave (if feeRecipient = 0 then ctx.sender else feeRecipient) s' ([] : List L)).Sat R a s₀
            (t ++ logs.map .event ++ u) := by
        intro u s' hu
        refine payFee_sat fun v s'' hv => ?_
        have := hret (u ++ v) s'' (hR.trans hu hv)
        simpa [List.append_assoc] using this
      refine ⟨fun u s' hu => hpay u s' hu, ?_⟩
      have := hpay [] s (hR.refl s)
      rwa [List.append_nil] at this
    · exact payFee_sat hret

end Fees

end Lineth.Rollup
