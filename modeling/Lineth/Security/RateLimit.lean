import Mathlib.Algebra.BigOperators.Group.List.Basic
import Lineth.Messaging.Common

/-!
# The bound of the rate limiter

The amount used in a period stays below the limit, whatever the order of the amounts, the limit resets and the amount
resets. A limit reset below the amount used sets the latter to the new limit: what it cuts off may be used once more. -/

namespace Lineth.Rollup.RateLimiter

open Evm Except List

def rateLimiterInit (periodInSeconds limitInWei timestamp : Word) : Except Error RateLimiter := do
  if periodInSeconds = 0 then throw .periodIsZero
  if limitInWei = 0 then throw .limitIsZero
  let currentPeriodEnd ← checkedAdd timestamp periodInSeconds
  return ⟨periodInSeconds, limitInWei, currentPeriodEnd, 0⟩

inductive Call where
  | addUsedAmount (usedAmount : Word)
  | resetRateLimitAmount (amount : Word)
  | resetAmountUsedInPeriod
deriving DecidableEq

def Call.run (ctx : Ctx) (r : RateLimiter) : Call → Except Error RateLimiter
  | addUsedAmount usedAmount => r.addUsedAmount ctx.timestamp usedAmount
  | resetRateLimitAmount amount => r.resetRateLimitAmount ctx amount
  | resetAmountUsedInPeriod => r.resetAmountUsedInPeriod ctx

/-- A rate limiter with what has happened in its period since the last amount reset. A period is known by its end. -/
structure Usage where
  limiter : RateLimiter
  /-- The amounts that were accepted. -/
  accepted : List Nat
  /-- What limit resets below the amount used have cut off it. -/
  cuts : List Nat
deriving DecidableEq

def Usage.start (r : RateLimiter) : Usage := ⟨r, [], []⟩

/-- Nothing is kept from an earlier period. -/
def Usage.inPeriod (u : Usage) (currentPeriodEnd : Word) : Usage :=
  if currentPeriodEnd = u.limiter.currentPeriodEnd then u else .start { u.limiter with currentPeriodAmountInWei := 0 }

/-- What an accepted call adds, where `r` is the limiter it leaves. -/
def Usage.record (u : Usage) (r : RateLimiter) : Call → Usage
  | .addUsedAmount usedAmount => ⟨r, u.accepted ++ [usedAmount.toNat], u.cuts⟩
  | .resetRateLimitAmount amount =>
    if amount < u.limiter.currentPeriodAmountInWei then
      ⟨r, u.accepted, u.cuts ++ [u.limiter.currentPeriodAmountInWei.toNat - amount.toNat]⟩
    else ⟨r, u.accepted, u.cuts⟩
  | .resetAmountUsedInPeriod => .start r

/-- A call that reverts does nothing. -/
def Usage.step (u : Usage) (c : Ctx × Call) : Usage :=
  match c.2.run c.1 u.limiter with
  | .error _ => u
  | .ok r => (u.inPeriod r.currentPeriodEnd).record r c.2

def Usage.run (u : Usage) (cs : List (Ctx × Call)) : Usage := cs.foldl Usage.step u

/-! ### What a call does to the limiter -/

/-- A new period has another end than the one before. -/
theorem ne_of_checkedAdd {timestamp period currentEnd newEnd : Word} (hexpired : currentEnd < timestamp)
    (h : checkedAdd timestamp period = .ok newEnd) : newEnd ≠ currentEnd := by
  obtain ⟨hlt, rfl⟩ := checkedAdd_eq_ok.1 h
  intro heq
  rw [BitVec.lt_def, ← heq, BitVec.toNat_add, Nat.mod_eq_of_lt hlt] at hexpired
  omega

variable {r r' : RateLimiter}

theorem addUsedAmount_cases {timestamp usedAmount : Word} (h : r.addUsedAmount timestamp usedAmount = .ok r') :
    (usedAmount = 0 ∧ r' = r) ∨
    (r'.currentPeriodEnd ≠ r.currentPeriodEnd ∧ r'.limitInWei = r.limitInWei ∧
      r'.currentPeriodAmountInWei = usedAmount ∧
      usedAmount ≤ r.limitInWei) ∨
    (r'.currentPeriodEnd = r.currentPeriodEnd ∧ r'.limitInWei = r.limitInWei ∧
      r'.currentPeriodAmountInWei ≤ r.limitInWei ∧
      r'.currentPeriodAmountInWei.toNat = r.currentPeriodAmountInWei.toNat + usedAmount.toNat) := by
  rw [RateLimiter.addUsedAmount] at h
  split at h
  · rename_i hzero
    exact .inl ⟨hzero, (ok.inj h).symm⟩
  dsimp only at h
  split at h
  · rename_i hexpired
    obtain ⟨newEnd, hnew, h⟩ := bind_eq_ok.1 h
    obtain ⟨hle, h⟩ := ite_error_eq_ok.1 h
    cases h
    exact .inr (.inl ⟨ne_of_checkedAdd hexpired hnew, rfl, rfl, BitVec.not_lt.1 hle⟩)
  · obtain ⟨sum, hsum, h⟩ := bind_eq_ok.1 h
    obtain ⟨hle, h⟩ := ite_error_eq_ok.1 h
    cases h
    obtain ⟨hlt, rfl⟩ := checkedAdd_eq_ok.1 hsum
    refine .inr (.inr ⟨rfl, rfl, BitVec.not_lt.1 hle, ?_⟩)
    rw [BitVec.toNat_add, Nat.mod_eq_of_lt hlt, Nat.add_comm]

theorem resetRateLimitAmount_cases {ctx : Ctx} {amount : Word} (h : r.resetRateLimitAmount ctx amount = .ok r') :
    r'.limitInWei = amount ∧
    ((r'.currentPeriodEnd ≠ r.currentPeriodEnd ∧ r'.currentPeriodAmountInWei = 0) ∨
      (r'.currentPeriodEnd = r.currentPeriodEnd ∧
        r'.currentPeriodAmountInWei = if amount < r.currentPeriodAmountInWei then amount else
          r.currentPeriodAmountInWei)) := by
  rw [RateLimiter.resetRateLimitAmount] at h
  obtain ⟨-, -, h⟩ := bind_eq_ok.1 h
  split at h
  · rename_i hexpired
    obtain ⟨newEnd, hnew, h⟩ := bind_eq_ok.1 h
    cases h
    exact ⟨rfl, .inl ⟨ne_of_checkedAdd hexpired hnew, rfl⟩⟩
  · cases h
    exact ⟨rfl, .inr ⟨rfl, rfl⟩⟩

theorem resetAmountUsedInPeriod_eq {ctx : Ctx} (h : r.resetAmountUsedInPeriod ctx = .ok r') :
    r' = { r with currentPeriodAmountInWei := 0 } := by
  obtain ⟨-, -, h⟩ := bind_eq_ok.1 h
  exact (ok.inj h).symm

/-! ### The bound -/

theorem zero_le_word (w : Word) : 0 ≤ w := by
  rw [BitVec.le_def]
  exact Nat.zero_le _

/-- The amount used is below the limit, and is what was accepted without what was cut off. -/
structure Usage.Inv (u : Usage) : Prop where
  bound : u.limiter.currentPeriodAmountInWei ≤ u.limiter.limitInWei
  used : u.accepted.sum = u.limiter.currentPeriodAmountInWei.toNat + u.cuts.sum

theorem Usage.Inv.step {u : Usage} (h : u.Inv) (c : Ctx × Call) : (u.step c).Inv := by
  obtain ⟨ctx, call⟩ := c
  obtain ⟨hbound, hused⟩ := h
  rw [Usage.step]
  cases hrun : call.run ctx u.limiter with
  | error e => exact ⟨hbound, hused⟩
  | ok r =>
    dsimp only
    cases call with
    | addUsedAmount usedAmount =>
      rw [Usage.record]
      rcases addUsedAmount_cases hrun with ⟨rfl, rfl⟩ | ⟨hend, hlimit, hamount, hle⟩ | ⟨hend, hlimit, hle, hamount⟩
      · -- nothing is used, and no period is started
        rw [Usage.inPeriod, if_pos rfl]
        refine ⟨hbound, ?_⟩
        rw [sum_append, sum_singleton, hused]
        rfl
      · rw [Usage.inPeriod, if_neg hend]
        refine ⟨?_, ?_⟩
        · rw [hamount, hlimit]
          exact hle
        · rw [hamount]
          rfl
      · rw [Usage.inPeriod, if_pos hend]
        refine ⟨?_, ?_⟩
        · rw [hlimit]
          exact hle
        · rw [sum_append, sum_singleton, hused, hamount]
          exact Nat.add_right_comm _ _ _
    | resetRateLimitAmount amount =>
      rw [Usage.record]
      obtain ⟨hlimit, ⟨hend, hamount⟩ | ⟨hend, hamount⟩⟩ := resetRateLimitAmount_cases hrun
      · rw [Usage.inPeriod, if_neg hend]
        split
        · rename_i hcut
          exact absurd hcut BitVec.not_lt_zero
        · refine ⟨?_, ?_⟩
          · rw [hamount]
            exact zero_le_word _
          · rw [hamount]
            rfl
      · rw [Usage.inPeriod, if_pos hend]
        split
        · rename_i hcut
          rw [if_pos hcut] at hamount
          refine ⟨?_, ?_⟩
          · rw [hamount, hlimit, BitVec.le_def]
          · rw [BitVec.lt_def] at hcut
            rw [sum_append, sum_singleton, hused, hamount]
            omega
        · rename_i hcut
          rw [if_neg hcut] at hamount
          refine ⟨?_, ?_⟩
          · rw [hamount, hlimit]
            exact BitVec.not_lt.1 hcut
          · rw [hamount]
            exact hused
    | resetAmountUsedInPeriod =>
      cases resetAmountUsedInPeriod_eq hrun
      exact ⟨zero_le_word _, rfl⟩

theorem Usage.Inv.run {u : Usage} (h : u.Inv) (cs : List (Ctx × Call)) : (u.run cs).Inv := by
  induction cs generalizing u with
  | nil => exact h
  | cons c cs ih => exact ih (h.step c)

/-- In every state reached from initialization, the amount used is at most the limit, and what was accepted since the
last amount reset exceeds the limit by no more than what limit resets have cut off. -/
theorem used_le_limit {periodInSeconds limitInWei timestamp : Word} {r : RateLimiter}
    (hinit : rateLimiterInit periodInSeconds limitInWei timestamp = .ok r) (cs : List (Ctx × Call)) :
    let u := (Usage.start r).run cs
    u.limiter.currentPeriodAmountInWei ≤ u.limiter.limitInWei ∧
      u.accepted.sum ≤ u.limiter.limitInWei.toNat + u.cuts.sum ∧
      (u.cuts = [] → u.accepted.sum ≤ u.limiter.limitInWei.toNat) := by
  have hstart : (Usage.start r).Inv := by
    simp only [rateLimiterInit, bind_eq_ok, throw_eq_error, pure_eq_ok, error_bind, ite_error_eq_ok,
      ok.injEq] at hinit
    obtain ⟨-, -, currentPeriodEnd, -, rfl⟩ := hinit
    exact ⟨zero_le_word _, rfl⟩
  obtain ⟨hbound, hused⟩ := hstart.run cs
  have hle := BitVec.le_def.1 hbound
  refine ⟨hbound, by omega, fun hcuts => ?_⟩
  rw [hcuts, sum_nil] at hused
  omega

/-- A call at some time, by a sender with all roles. -/
def ctxAt (timestamp : Word) : Ctx where
  self := 0
  sender := 0
  value := 0
  timestamp := timestamp
  blockNumber := 0
  balance := 0
  paused _ := false
  hasRole _ := true
  gatewayHasRole _ := true
  isEOA _ := true
  deliveryFee := 0
  addressIsFiltered _ _ := false
  blobShnarfExists _ _ := 0
  getChainConfiguration _ := none
  verify _ _ _ := false
  blobhash _ := 0
  pointEvaluation _ := none
  memory _ := 0
  freeMemoryPointer := 128

def lowerAndRaise : List (Ctx × Call) :=
  [(ctxAt 1, .addUsedAmount 8), (ctxAt 2, .resetRateLimitAmount 3), (ctxAt 3, .resetRateLimitAmount 10),
    (ctxAt 4, .addUsedAmount 7)]

theorem used_le_limit_lowered :
    rateLimiterInit 100 10 0 = .ok ⟨100, 10, 100, 0⟩ ∧
      ((Usage.start ⟨100, 10, 100, 0⟩).run lowerAndRaise).limiter.currentPeriodAmountInWei ≤ 10 ∧
      ((Usage.start ⟨100, 10, 100, 0⟩).run lowerAndRaise).accepted.sum ≤ 10 + 5 :=
  have hinit : rateLimiterInit 100 10 0 = .ok ⟨100, 10, 100, 0⟩ := by decide
  ⟨hinit, (used_le_limit hinit lowerAndRaise).1, (used_le_limit hinit lowerAndRaise).2.1⟩

/-- In one period, and never under a limit above 10, amounts of 15 are accepted. -/
theorem accepted_exceeds_limit :
    rateLimiterInit 100 10 0 = .ok ⟨100, 10, 100, 0⟩ ∧
      (∀ n ≤ lowerAndRaise.length,
        ((Usage.start ⟨100, 10, 100, 0⟩).run (lowerAndRaise.take n)).limiter.limitInWei ≤ 10 ∧
        ((Usage.start ⟨100, 10, 100, 0⟩).run (lowerAndRaise.take n)).limiter.currentPeriodEnd = 100) ∧
      ((Usage.start ⟨100, 10, 100, 0⟩).run lowerAndRaise).accepted = [8, 7] := by
  decide

end Lineth.Rollup.RateLimiter
