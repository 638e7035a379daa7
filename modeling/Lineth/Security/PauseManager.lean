import Lineth.Lib.Except
import Lineth.Lib.Memory

/-!
# Pausing

Types of functions can be paused. The pauses of the security council last until it lifts them; those of others expire.
The first pause of others opens a window in which further types can be paused, all of them until the same time. A
cooldown of the same length follows. -/

namespace Lineth.Security

open Function (update update_of_ne update_self)
open Evm Except

inductive PauseType where
  | unused
  | general
  | l1L2
  | l2L1
  | blobSubmission
  | calldataSubmission
  | finalization
  | initiateTokenBridging
  | completeTokenBridging
  | nativeYieldStaking
  | nativeYieldUnstaking
  | nativeYieldPermissionlessActions
  | nativeYieldReporting
  | stateDataSubmission
deriving DecidableEq, Repr

def PauseType.toNat : PauseType → Nat
  | unused => 0
  | general => 1
  | l1L2 => 2
  | l2L1 => 3
  | blobSubmission => 4
  | calldataSubmission => 5
  | finalization => 6
  | initiateTokenBridging => 7
  | completeTokenBridging => 8
  | nativeYieldStaking => 9
  | nativeYieldUnstaking => 10
  | nativeYieldPermissionlessActions => 11
  | nativeYieldReporting => 12
  | stateDataSubmission => 13

def PauseType.mask (t : PauseType) : Word := 1#256 <<< t.toNat

inductive PauseError where
  | pauseTypeNotUsed
  | accessControlUnauthorizedAccount (role : Word)
  | isPaused (pauseType : PauseType)
  | pauseUnavailableDueToCooldown (cooldownEnd : Word)
  | isNotPaused (pauseType : PauseType)
  | onlySecurityCouncilCanUnpauseIndefinitePause (pauseType : PauseType)
  | pauseNotExpired (expiry : Word)
  | rolesNotDifferent
deriving DecidableEq, Repr

structure Ctx where
  timestamp : BitVec 64
  hasRole : Word → Bool

def Ctx.now (ctx : Ctx) : Word := ctx.timestamp.setWidth 256

structure PauseManager where
  pauseTypeStatusesBitMap : Word
  pauseTypeRoles : PauseType → Word
  unPauseTypeRoles : PauseType → Word
  nonSecurityCouncilCooldownEnd : Word
  pauseTypeExpiryTimestamps : PauseType → Word

def onlyRole (ctx : Ctx) (role : Word) : Except PauseError Unit :=
  if ctx.hasRole role then .ok () else .error (.accessControlUnauthorizedAccount role)

def onlyUsedPausedTypes (pauseType : PauseType) : Except PauseError Unit :=
  if pauseType = .unused then .error .pauseTypeNotUsed else .ok ()

/-- 48 hours. -/
def pauseDuration : Word := 172800

/-- 48 hours. -/
def cooldownDuration : Word := 172800

def maxWord : Word := BitVec.allOnes 256

namespace PauseManager

def init (pauseTypeRoles unPauseTypeRoles : PauseType → Word) : PauseManager :=
  ⟨0, pauseTypeRoles, unPauseTypeRoles, 0, fun _ => 0⟩

variable (securityCouncilRole : Word)

section

variable (s : PauseManager) (pauseType : PauseType)

def isPaused : Bool := s.pauseTypeStatusesBitMap &&& pauseType.mask ≠ 0

def setPaused (expiry : Word) : PauseManager :=
  { s with
    pauseTypeExpiryTimestamps := update s.pauseTypeExpiryTimestamps pauseType expiry
    pauseTypeStatusesBitMap := s.pauseTypeStatusesBitMap ||| pauseType.mask }

def clearPaused : PauseManager :=
  { s with
    pauseTypeExpiryTimestamps := update s.pauseTypeExpiryTimestamps pauseType 0
    pauseTypeStatusesBitMap := s.pauseTypeStatusesBitMap &&& ~~~pauseType.mask }

end

def pauseByType (ctx : Ctx) (pauseType : PauseType) (s : PauseManager) : Except PauseError PauseManager := do
  onlyUsedPausedTypes pauseType
  onlyRole ctx (s.pauseTypeRoles pauseType)
  let senderHasSecurityCouncilRole := ctx.hasRole securityCouncilRole
  failIf ((s.isPaused pauseType ∧ ¬ senderHasSecurityCouncilRole) ∨ s.pauseTypeExpiryTimestamps pauseType = maxWord)
    (.isPaused pauseType)
  if senderHasSecurityCouncilRole then return s.setPaused pauseType maxWord
  else if ctx.now ≥ s.nonSecurityCouncilCooldownEnd then
    let expiryTimestamp := ctx.now + pauseDuration
    return { s.setPaused pauseType expiryTimestamp
      with nonSecurityCouncilCooldownEnd := expiryTimestamp + cooldownDuration }
  else do
    failIf (s.nonSecurityCouncilCooldownEnd - ctx.now ≤ cooldownDuration)
      (.pauseUnavailableDueToCooldown s.nonSecurityCouncilCooldownEnd)
    return s.setPaused pauseType (s.nonSecurityCouncilCooldownEnd - cooldownDuration)

def resetNonSecurityCouncilCooldownEnd (ctx : Ctx) (s : PauseManager) : Except PauseError PauseManager := do
  onlyRole ctx securityCouncilRole
  return { s with nonSecurityCouncilCooldownEnd := ctx.now }

section

variable (ctx : Ctx) (pauseType : PauseType)

def unPauseByType (s : PauseManager) : Except PauseError PauseManager := do
  onlyUsedPausedTypes pauseType
  onlyRole ctx (s.unPauseTypeRoles pauseType)
  failIf (¬ s.isPaused pauseType) (.isNotPaused pauseType)
  failIf (s.pauseTypeExpiryTimestamps pauseType = maxWord ∧ ¬ ctx.hasRole securityCouncilRole)
    (.onlySecurityCouncilCanUnpauseIndefinitePause pauseType)
  return s.clearPaused pauseType

def unPauseByExpiredType (s : PauseManager) : Except PauseError PauseManager := do
  onlyUsedPausedTypes pauseType
  failIf (¬ s.isPaused pauseType) (.isNotPaused pauseType)
  failIf (ctx.now < s.pauseTypeExpiryTimestamps pauseType) (.pauseNotExpired (s.pauseTypeExpiryTimestamps pauseType))
  return s.clearPaused pauseType

def updatePauseTypeRole (newRole : Word) (s : PauseManager) : Except PauseError PauseManager := do
  onlyUsedPausedTypes pauseType
  onlyRole ctx securityCouncilRole
  failIf (s.pauseTypeRoles pauseType = newRole) .rolesNotDifferent
  return { s with pauseTypeRoles := update s.pauseTypeRoles pauseType newRole }

def updateUnpauseTypeRole (newRole : Word) (s : PauseManager) : Except PauseError PauseManager := do
  onlyUsedPausedTypes pauseType
  onlyRole ctx securityCouncilRole
  failIf (s.unPauseTypeRoles pauseType = newRole) .rolesNotDifferent
  return { s with unPauseTypeRoles := update s.unPauseTypeRoles pauseType newRole }

end

end PauseManager

/-! ### Runs -/

inductive Entrypoint where
  | pauseByType (pauseType : PauseType)
  | unPauseByType (pauseType : PauseType)
  | unPauseByExpiredType (pauseType : PauseType)
  | resetNonSecurityCouncilCooldownEnd
  | updatePauseTypeRole (pauseType : PauseType) (newRole : Word)
  | updateUnpauseTypeRole (pauseType : PauseType) (newRole : Word)
deriving DecidableEq, Repr

structure Call where
  ctx : Ctx
  entrypoint : Entrypoint

section

variable (securityCouncilRole : Word)

def Call.exec (c : Call) (s : PauseManager) : Except PauseError PauseManager :=
  match c.entrypoint with
  | .pauseByType pauseType => s.pauseByType securityCouncilRole c.ctx pauseType
  | .unPauseByType pauseType => s.unPauseByType securityCouncilRole c.ctx pauseType
  | .unPauseByExpiredType pauseType => s.unPauseByExpiredType c.ctx pauseType
  | .resetNonSecurityCouncilCooldownEnd => s.resetNonSecurityCouncilCooldownEnd securityCouncilRole c.ctx
  | .updatePauseTypeRole pauseType newRole => s.updatePauseTypeRole securityCouncilRole c.ctx pauseType newRole
  | .updateUnpauseTypeRole pauseType newRole => s.updateUnpauseTypeRole securityCouncilRole c.ctx pauseType newRole

structure Pause where
  pauseType : PauseType
  time : Nat
  expiry : Nat
deriving DecidableEq, Repr

structure History where
  manager : PauseManager
  pauses : List Pause

/-- A call that reverts changes nothing. -/
def History.step (h : History) (c : Call) : History :=
  match c.exec securityCouncilRole h.manager with
  | .error _ => h
  | .ok s =>
    match c.entrypoint with
    | .pauseByType pauseType =>
      ⟨s, h.pauses ++ [⟨pauseType, c.ctx.timestamp.toNat, (s.pauseTypeExpiryTimestamps pauseType).toNat⟩]⟩
    | _ => ⟨s, h.pauses⟩

def History.run (h : History) (cs : List Call) : History := cs.foldl (History.step securityCouncilRole) h

end

/-! ### Statuses -/

variable {t t' : PauseType}

theorem PauseType.toNat_injective (h : t.toNat = t'.toNat) : t = t' := by
  cases t <;> cases t' <;> first | rfl | cases h

theorem PauseType.toNat_lt (t : PauseType) : t.toNat < 256 := by
  cases t <;> decide

theorem PauseType.getLsbD_mask (t : PauseType) (i : Nat) : t.mask.getLsbD i = decide (i = t.toNat) := by
  have hlt := t.toNat_lt
  by_cases hi : i = t.toNat
  · subst hi
    simp [mask, hlt]
  · simp [mask, hi]
    omega

section

variable (s : PauseManager)

theorem PauseManager.isPaused_eq (t : PauseType) : s.isPaused t = s.pauseTypeStatusesBitMap.getLsbD t.toNat := by
  have hbit (i : Nat) : (s.pauseTypeStatusesBitMap &&& t.mask).getLsbD i =
      (s.pauseTypeStatusesBitMap.getLsbD t.toNat && decide (i = t.toNat)) := by
    rw [BitVec.getLsbD_and, t.getLsbD_mask]
    by_cases hi : i = t.toNat
    · rw [hi]
    · simp [hi]
  rw [isPaused]
  by_cases hzero : s.pauseTypeStatusesBitMap &&& t.mask = 0
  · have := hbit t.toNat
    rw [hzero] at this
    simpa [hzero] using this
  · rw [decide_eq_true hzero]
    by_contra hne
    have hfalse : s.pauseTypeStatusesBitMap.getLsbD t.toNat = false := by simpa using hne
    refine hzero (BitVec.eq_of_getLsbD_eq fun i hi => ?_)
    rw [hbit i, hfalse, Bool.false_and]
    exact BitVec.getLsbD_zero.symm

@[simp] theorem PauseManager.isPaused_setPaused (t t' : PauseType) (expiry : Word) :
    (s.setPaused t expiry).isPaused t' = (s.isPaused t' || decide (t' = t)) := by
  rw [isPaused_eq, isPaused_eq, setPaused, BitVec.getLsbD_or, t.getLsbD_mask]
  congr 1
  exact decide_eq_decide.2 ⟨PauseType.toNat_injective, fun h => h ▸ rfl⟩

@[simp] theorem PauseManager.isPaused_clearPaused (t t' : PauseType) :
    (s.clearPaused t).isPaused t' = (s.isPaused t' && !decide (t' = t)) := by
  rw [isPaused_eq, isPaused_eq, clearPaused, BitVec.getLsbD_and, BitVec.getLsbD_not, t.getLsbD_mask,
    decide_eq_true t'.toNat_lt,
    Bool.true_and]
  congr 2
  exact decide_eq_decide.2 ⟨PauseType.toNat_injective, fun h => h ▸ rfl⟩

theorem PauseManager.expiry_setPaused (t : PauseType) (expiry : Word) :
    (s.setPaused t expiry).pauseTypeExpiryTimestamps t = expiry := update_self ..

theorem PauseManager.expiry_setPaused_of_ne (h : t' ≠ t) (expiry : Word) :
    (s.setPaused t expiry).pauseTypeExpiryTimestamps t' = s.pauseTypeExpiryTimestamps t' := update_of_ne h ..

theorem PauseManager.expiry_clearPaused_of_ne (h : t' ≠ t) :
    (s.clearPaused t).pauseTypeExpiryTimestamps t' = s.pauseTypeExpiryTimestamps t' := update_of_ne h ..

end

/-! ### What a call can do -/

section

variable {securityCouncilRole : Word} {c : Call} {s s' : PauseManager}

theorem onlyUsedPausedTypes_eq_ok {t : PauseType} : onlyUsedPausedTypes t = .ok () ↔ t ≠ .unused := by
  rw [onlyUsedPausedTypes, ite_error_eq_ok, and_iff_left rfl]

theorem onlyRole_eq_ok {ctx : Ctx} {role : Word} : onlyRole ctx role = .ok () ↔ ctx.hasRole role = true := by
  rw [onlyRole, ite_else_error_eq_ok, and_iff_left rfl]

theorem Ctx.toNat_now (ctx : Ctx) : ctx.now.toNat = ctx.timestamp.toNat := by
  rw [now, BitVec.toNat_setWidth, Nat.mod_eq_of_lt]
  exact Nat.lt_trans ctx.timestamp.isLt (by decide)

/-- The time of a block is far from the end of time. -/
theorem Ctx.now_lt_maxWord (ctx : Ctx) : ctx.now < maxWord := by
  rw [BitVec.lt_def, ctx.toNat_now]
  exact Nat.lt_trans ctx.timestamp.isLt (by decide)

structure PausedBy (ctx : Ctx) (t : PauseType) (s s' : PauseManager) : Prop where
  used : t ≠ .unused
  notPaused : s.isPaused t = false
  notIndefinite : s.pauseTypeExpiryTimestamps t ≠ maxWord
  window : (s.nonSecurityCouncilCooldownEnd ≤ ctx.now ∧
      s' = { s.setPaused t (ctx.now + pauseDuration) with
        nonSecurityCouncilCooldownEnd := ctx.now + pauseDuration + cooldownDuration }) ∨
    (ctx.now < s.nonSecurityCouncilCooldownEnd ∧ cooldownDuration < s.nonSecurityCouncilCooldownEnd - ctx.now ∧
      s' = s.setPaused t (s.nonSecurityCouncilCooldownEnd - cooldownDuration))

theorem Call.exec_cases (hcouncil : c.ctx.hasRole securityCouncilRole = false)
    (h : c.exec securityCouncilRole s = .ok s') :
    (∃ t, c.entrypoint = .pauseByType t ∧ PausedBy c.ctx t s s') ∨
    (∃ t, (∀ t', c.entrypoint ≠ .pauseByType t') ∧ s.pauseTypeExpiryTimestamps t ≠ maxWord ∧ s' = s.clearPaused t) := by
  obtain ⟨ctx, entrypoint⟩ := c
  have hrole : ¬ ctx.hasRole securityCouncilRole = true := fun h => absurd (hcouncil.symm.trans h) Bool.false_ne_true
  cases entrypoint with
  | pauseByType t =>
    obtain ⟨_, hused, h⟩ := bind_eq_ok.1 h
    obtain ⟨-, -, h⟩ := bind_eq_ok.1 h
    obtain ⟨_, hfail, h⟩ := bind_eq_ok.1 h
    rw [failIf_eq_ok, not_or, not_and_not_right] at hfail
    rw [if_neg hrole] at h
    refine .inl ⟨t, rfl, onlyUsedPausedTypes_eq_ok.1 hused, Bool.eq_false_iff.2 fun hp =>
      hrole (hfail.1 hp), hfail.2, ?_⟩
    split at h
    · rename_i hend
      exact .inl ⟨hend, (ok.inj h).symm⟩
    · rename_i hend
      obtain ⟨_, hcooldown, h⟩ := bind_eq_ok.1 h
      rw [failIf_eq_ok] at hcooldown
      exact .inr ⟨BitVec.not_le.1 hend, BitVec.not_le.1 hcooldown, (ok.inj h).symm⟩
  | unPauseByType t =>
    obtain ⟨-, -, h⟩ := bind_eq_ok.1 h
    obtain ⟨-, -, h⟩ := bind_eq_ok.1 h
    obtain ⟨-, -, h⟩ := bind_eq_ok.1 h
    obtain ⟨_, hindefinite, h⟩ := bind_eq_ok.1 h
    rw [failIf_eq_ok, not_and_not_right] at hindefinite
    exact .inr ⟨t, fun t' h => (by cases h), fun hmax => hrole (hindefinite hmax), (ok.inj h).symm⟩
  | unPauseByExpiredType t =>
    obtain ⟨-, -, h⟩ := bind_eq_ok.1 h
    obtain ⟨-, -, h⟩ := bind_eq_ok.1 h
    obtain ⟨_, hexpired, h⟩ := bind_eq_ok.1 h
    rw [failIf_eq_ok] at hexpired
    exact .inr ⟨t, fun t' h => (by cases h), fun hmax => hexpired (hmax ▸ ctx.now_lt_maxWord), (ok.inj h).symm⟩
  | resetNonSecurityCouncilCooldownEnd =>
    obtain ⟨_, hrole', -⟩ := bind_eq_ok.1 h
    exact absurd (onlyRole_eq_ok.1 hrole') hrole
  | updatePauseTypeRole t newRole =>
    obtain ⟨-, -, h⟩ := bind_eq_ok.1 h
    obtain ⟨_, hrole', -⟩ := bind_eq_ok.1 h
    exact absurd (onlyRole_eq_ok.1 hrole') hrole
  | updateUnpauseTypeRole t newRole =>
    obtain ⟨-, -, h⟩ := bind_eq_ok.1 h
    obtain ⟨_, hrole', -⟩ := bind_eq_ok.1 h
    exact absurd (onlyRole_eq_ok.1 hrole') hrole

end

end Lineth.Security
