import Lineth.Yield.YieldManager

/-!
# Refilling the withdrawal reserve

A call that succeeds moves what the target lacks, or all there is, conserves the funds of the system, and pauses
staking if the target is still not met. -/

namespace Lineth.Yield

open Function (update update_eq_self)
open Evm Except

/-- The hooks transfer what they are asked for to the manager and leave the rest of the ledger alone. -/
structure YieldProvider.Exact {σ : Type} (hooks : YieldProvider σ) : Prop where
  withdrawableValue : ∀ p w v w', hooks.withdrawableValue p w = .ok (v, w') → w'.toLedger = w.toLedger
  beforeWithdraw : ∀ p b w w', hooks.beforeWithdrawFromYieldProvider p b w = .ok w' → w'.toLedger = w.toLedger
  withdraw : ∀ p a w w', hooks.withdrawFromYieldProvider p a w = .ok w' → w'.toLedger = w.toLedger.receive a
  pauseStaking : ∀ p w w', hooks.pauseStaking p w = .ok w' → w'.toLedger = w.toLedger

@[simp] theorem checked_eq_ok {n m : Nat} : checked n = .ok m ↔ n < 2 ^ 256 ∧ n = m := by simp [checked]

@[simp] theorem checkedSub_eq_ok {a b m : Nat} : checkedSub a b = .ok m ↔ b ≤ a ∧ a - b = m := by simp [checkedSub]

namespace Ledger

variable {l l' : Ledger} {deficit moved : Nat}

theorem getTargetReserveDeficit_of_moved (htotal : l'.getTotalSystemBalance 0 = l.getTotalSystemBalance 0)
    (hbps : l'.targetWithdrawalReservePercentageBps = l.targetWithdrawalReservePercentageBps)
    (hamount : l'.targetWithdrawalReserveAmount = l.targetWithdrawalReserveAmount)
    (hmoved : l'.reserve = l.reserve + moved)
    (h : l.getTargetReserveDeficit 0 = .ok deficit) : l'.getTargetReserveDeficit 0 = .ok (deficit - moved) := by
  simp only [getTargetReserveDeficit, getEffectiveTargetWithdrawalReserve, effectiveReserve, bind_eq_ok] at h ⊢
  obtain ⟨target, htarget, h⟩ := h
  refine ⟨target, by rw [htotal, hbps, hamount]; exact htarget, ?_⟩
  cases h
  rw [hmoved, Nat.sub_add_eq]
  rfl

theorem exists_total (h : l.getTargetReserveDeficit 0 = .ok deficit) :
    ∃ total, l.getTotalSystemBalance 0 = .ok total := by
  simp only [getTargetReserveDeficit, getEffectiveTargetWithdrawalReserve, effectiveReserve, bind_eq_ok] at h
  obtain ⟨_, ⟨total, htotal, -⟩, -⟩ := h
  exact ⟨total, htotal⟩

/-- The balance of the manager and `value` of what a provider holds go towards a deficit. -/
def replenish (l : Ledger) (p : Address) (deficit value : Nat) : Ledger :=
  { l with
    reserve := l.reserve + min deficit (l.balance + value)
    balance := l.balance - deficit
    pendingPermissionlessUnstake := l.pendingPermissionlessUnstake - min value (deficit - l.balance)
    userFunds := update l.userFunds p (l.userFunds p - min value (deficit - l.balance))
    userFundsInYieldProvidersTotal := l.userFundsInYieldProvidersTotal - min value (deficit - l.balance)
    isStakingPaused := update l.isStakingPaused p (l.isStakingPaused p || decide (l.balance + value < deficit)) }

theorem getTotalSystemBalance_replenish {p : Address} {value total : Nat}
    (hle : min value (deficit - l.balance) ≤ l.userFundsInYieldProvidersTotal)
    (h : l.getTotalSystemBalance 0 = .ok total) :
    (l.replenish p deficit value).getTotalSystemBalance 0 = .ok total := by
  simp only [getTotalSystemBalance, replenish, bind_eq_ok, checked_eq_ok, checkedSub_eq_ok] at h ⊢
  obtain ⟨_, ⟨hliquid, rfl⟩, _, ⟨htotal, rfl⟩, -, rfl⟩ := h
  exact ⟨_, ⟨by omega, rfl⟩, _, ⟨by omega, rfl⟩, by omega, by omega⟩

end Ledger

namespace YieldProvider

variable {σ : Type} {hooks : YieldProvider σ} (hexact : hooks.Exact) {p : Address} {w w' : World σ}
include hexact

theorem withdrawable_ledger {v : Nat} (h : hooks.withdrawable p w = .ok (v, w')) : w'.toLedger = w.toLedger := by
  simp only [withdrawable, bind_eq_ok] at h
  obtain ⟨_, -, fetched, hfetched, h⟩ := h
  cases h
  exact hexact.withdrawableValue p w _ _ hfetched

theorem withdraw_ledger {amount : Nat} (h : hooks.delegatecallWithdrawFromYieldProvider p amount w = .ok w') :
    amount ≤ w.userFundsInYieldProvidersTotal ∧
      w'.toLedger = { w.toLedger.receive amount with
        userFunds := update w.userFunds p (w.userFunds p - amount)
        userFundsInYieldProvidersTotal := w.userFundsInYieldProvidersTotal - amount } := by
  rw [delegatecallWithdrawFromYieldProvider] at h
  split_ifs at h with hzero
  · cases h
    simp [hzero, Ledger.receive]
  · simp only [bind_eq_ok, checkedSub_eq_ok] at h
    obtain ⟨w₁, hw₁, _, ⟨-, rfl⟩, _, ⟨hle, rfl⟩, h⟩ := h
    cases h
    rw [hexact.withdraw p amount w w₁ hw₁] at hle ⊢
    exact ⟨hle, rfl⟩

theorem pauseStakingIfNotAlready_ledger (h : hooks.pauseStakingIfNotAlready p w = .ok w') :
    w'.toLedger = { w.toLedger with isStakingPaused := update w.isStakingPaused p true } := by
  rw [pauseStakingIfNotAlready] at h
  split_ifs at h with hpaused
  · cases h
    rw [← hpaused, update_eq_self]
  · obtain ⟨w₁, hw₁, h⟩ := bind_eq_ok.1 h
    cases h
    rw [hexact.pauseStaking p w w₁ hw₁]

end YieldProvider

theorem World.fundReserve_ledger {σ : Type} {w w' : World σ} {amount : Nat} (h : w.fundReserve amount = .ok w') :
    w'.toLedger = { w.toLedger with reserve := w.reserve + amount, balance := w.balance - amount } := by
  simp only [fundReserve, bind_eq_ok] at h
  obtain ⟨_, -, _, -, h⟩ := h
  cases h
  rfl

namespace YieldProvider

variable {σ : Type} {hooks : YieldProvider σ} {p : Address} {w w' : World σ}

/-- The value that the manager can withdraw from the provider, once it is about to. -/
def Offers (hooks : YieldProvider σ) (p : Address) (w : World σ) (value : Nat) : Prop :=
  ∃ w₁ w₂, hooks.beforeWithdrawFromYieldProvider p true w = .ok w₁ ∧ hooks.withdrawable p w₁ = .ok (value, w₂)

theorem replenishWithdrawalReserve_ledger (hexact : hooks.Exact) (h : hooks.replenishWithdrawalReserve p w = .ok w') :
    ∃ deficit value, w.getTargetReserveDeficit 0 = .ok deficit ∧ (w.balance < deficit → hooks.Offers p w value) ∧
      min value (deficit - w.balance) ≤ w.userFundsInYieldProvidersTotal ∧
      w'.toLedger = w.toLedger.replenish p deficit value := by
  simp only [replenishWithdrawalReserve, bind_eq_ok] at h
  obtain ⟨_, -, _, -, _, -, _, -, deficit, hdeficit, h⟩ := h
  split_ifs at h with hle
  · refine ⟨deficit, 0, hdeficit, fun hlt => absurd hle (Nat.not_le.2 hlt), by omega, ?_⟩
    rw [World.fundReserve_ledger h, Ledger.replenish]
    simp [hle]
  · simp only [bind_eq_ok, checked_eq_ok] at h
    obtain ⟨w₁, hbefore, ⟨value, w₂⟩, hvalue, _, -, w₃, hwithdraw, _, ⟨-, rfl⟩, w₄, hfund, h⟩ := h
    have hw₂ : w₂.toLedger = w.toLedger :=
      (withdrawable_ledger hexact hvalue).trans (hexact.beforeWithdraw p true w w₁ hbefore)
    obtain ⟨hwithdrawn, hw₃⟩ := withdraw_ledger hexact hwithdraw
    have hw₄ := World.fundReserve_ledger hfund
    rw [hw₃, hw₂] at hw₄
    rw [hw₂] at hwithdrawn
    refine ⟨deficit, value, hdeficit, fun _ => ⟨w₁, w₂, hbefore, hvalue⟩, hwithdrawn, ?_⟩
    have hw' : w'.toLedger = { w₄.toLedger with
        isStakingPaused :=
          update w₄.isStakingPaused p (w₄.isStakingPaused p || decide (w.balance + value < deficit)) } := by
      split_ifs at h with hshort
      · rw [pauseStakingIfNotAlready_ledger hexact h, decide_eq_true (by omega), Bool.or_true]
      · cases h
        rw [decide_eq_false (by omega), Bool.or_false, update_eq_self]
    rw [hw', hw₄]
    simp only [Ledger.replenish, Ledger.receive, Ledger.mk.injEq, and_true]
    omega

end YieldProvider

/-- A call that succeeds moves the smaller of the target deficit and what there is, with `value` only if the balance
of the manager does not do. The funds of the system stay what they are, and the call pauses staking exactly if the
target is still not reached. -/
theorem replenishWithdrawalReserve_exact {σ : Type} {hooks : YieldProvider σ} (hexact : hooks.Exact)
    {p : Address} {w w' : World σ} (h : hooks.replenishWithdrawalReserve p w = .ok w') :
    ∃ deficit value total remaining,
      w.getTargetReserveDeficit 0 = .ok deficit ∧ (w.balance < deficit → hooks.Offers p w value) ∧
      w'.reserve = w.reserve + min deficit (w.balance + value) ∧
      w.getTotalSystemBalance 0 = .ok total ∧ w'.getTotalSystemBalance 0 = .ok total ∧
      w'.getTargetReserveDeficit 0 = .ok remaining ∧
      w'.isStakingPaused = update w.isStakingPaused p (w.isStakingPaused p || decide (0 < remaining)) := by
  obtain ⟨deficit, value, hdeficit, hoffers, hle, hw'⟩ := YieldProvider.replenishWithdrawalReserve_ledger hexact h
  obtain ⟨total, htotal⟩ := Ledger.exists_total hdeficit
  have htotal' : w'.getTotalSystemBalance 0 = .ok total := by
    rw [hw']
    exact Ledger.getTotalSystemBalance_replenish hle htotal
  have hreserve : w'.reserve = w.reserve + min deficit (w.balance + value) := by rw [hw', Ledger.replenish]
  have hremaining : w'.getTargetReserveDeficit 0 = .ok (deficit - min deficit (w.balance + value)) :=
    Ledger.getTargetReserveDeficit_of_moved (htotal'.trans htotal.symm) (by rw [hw']; rfl)
      (by rw [hw']; rfl) hreserve hdeficit
  refine ⟨deficit, value, total, _, hdeficit, hoffers, hreserve, htotal, htotal', hremaining, ?_⟩
  have hshort : w.balance + value < deficit ↔ 0 < deficit - min deficit (w.balance + value) := by omega
  rw [hw', Ledger.replenish, decide_eq_decide.2 hshort]

def vault : YieldProvider Nat where
  withdrawableValue _ w := .ok (w.vendor, w)
  beforeWithdrawFromYieldProvider _ _ w := .ok w
  withdrawFromYieldProvider _ amount w :=
    if amount ≤ w.vendor then .ok ⟨w.toLedger.receive amount, w.vendor - amount⟩ else .error .delegateCallFailed
  pauseStaking _ w := .ok w

theorem vault_exact : vault.Exact where
  withdrawableValue p w v w' h := by
    cases h
    rfl
  beforeWithdraw p b w w' h := by
    cases h
    rfl
  withdraw p a w w' h := by
    simp only [vault, ite_else_error_eq_ok] at h
    obtain ⟨-, h⟩ := h
    cases h
    rfl
  pauseStaking p w w' h := by
    cases h
    rfl

def World.short : World Nat where
  reserve := 10
  balance := 90
  userFundsInYieldProvidersTotal := 900
  pendingPermissionlessUnstake := 0
  minimumWithdrawalReservePercentageBps := 2000
  minimumWithdrawalReserveAmount := 100
  targetWithdrawalReservePercentageBps := 4000
  targetWithdrawalReserveAmount := 200
  yieldProviderIndex := fun _ => 1
  userFunds := fun _ => 900
  isStakingPaused := fun _ => false
  permissionlessPaused := false
  vendor := 250

/-- All there is goes to the reserve, which is then still 50 short. -/
theorem replenishWithdrawalReserve_exact_short :
    ∃ w', vault.replenishWithdrawalReserve 7 World.short = .ok w' ∧ w'.reserve = 350 ∧
      w'.getTotalSystemBalance 0 = .ok 1000 ∧
      ∃ remaining, w'.getTargetReserveDeficit 0 = .ok remaining ∧
        w'.isStakingPaused = update (fun _ => false) 7 (decide (0 < remaining)) := by
  refine ⟨_, rfl, rfl, rfl, ?_⟩
  obtain ⟨_, _, _, remaining, -, -, -, -, -, hremaining, hpaused⟩ :=
    replenishWithdrawalReserve_exact vault_exact (p := 7) (w := World.short) rfl
  exact ⟨remaining, hremaining, hpaused⟩

end Lineth.Yield
