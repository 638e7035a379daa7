import Lineth.Security.PauseManager

/-!
# The windows of pauses

Without the security council, all pauses of a window expire 48 hours after its start, and the next window starts 96
hours after it at the earliest. -/

namespace Lineth.Security

open Evm Except List BitVec

variable {securityCouncilRole : Word}

def hours48 : Nat := 172800

/-- The pause opened the window in which `p` was made: it expires 48 hours after it was made, with `p`. -/
structure Opens (o p : Pause) : Prop where
  expiry : o.expiry = o.time + hours48
  same : p.expiry = o.expiry
  start : o.time ≤ p.time
  inside : p.time < o.time + hours48

/-- What holds after calls without the security council, the last of them not after `now`. -/
structure History.Inv (h : History) (now : Nat) : Prop where
  past : ∀ p ∈ h.pauses, p.time ≤ now
  used : ∀ p ∈ h.pauses, p.pauseType ≠ .unused
  /-- Every pause was made in a window. -/
  opened : ∀ p ∈ h.pauses, ∃ o ∈ h.pauses, Opens o p
  /-- A later pause was made in the same window, or after the cooldown. -/
  windows : h.pauses.Pairwise fun p q => p.time ≤ q.time ∧ (q.expiry = p.expiry ∨ p.expiry + hours48 ≤ q.time)
  /-- The cooldown of the last window. -/
  cooldown : (h.pauses = [] ∧ h.manager.nonSecurityCouncilCooldownEnd = 0) ∨
    ∃ o ∈ h.pauses, Opens o o ∧ h.manager.nonSecurityCouncilCooldownEnd.toNat = o.expiry + hours48
  /-- The pauses of earlier windows. -/
  earlier : ∀ p ∈ h.pauses, p.expiry + hours48 = h.manager.nonSecurityCouncilCooldownEnd.toNat ∨
    p.expiry + hours48 + 2 * hours48 ≤ h.manager.nonSecurityCouncilCooldownEnd.toNat
  paused : ∀ t, h.manager.isPaused t = true →
    ∃ p ∈ h.pauses, p.pauseType = t ∧ p.expiry = (h.manager.pauseTypeExpiryTimestamps t).toNat

theorem toNat_pauseDuration : pauseDuration.toNat = hours48 := rfl

theorem toNat_cooldownDuration : cooldownDuration.toNat = hours48 := rfl

theorem Ctx.timestamp_add_lt (ctx : Ctx) : ctx.timestamp.toNat + 3 * hours48 < 2 ^ 256 := by
  have h := ctx.timestamp.isLt
  have h' : 2 ^ 64 + 3 * hours48 < 2 ^ 256 := by decide
  omega

theorem toNat_windowEnd (ctx : Ctx) :
    (ctx.now + pauseDuration).toNat = ctx.timestamp.toNat + hours48 ∧
      (ctx.now + pauseDuration + cooldownDuration).toNat = ctx.timestamp.toNat + hours48 + hours48 := by
  have hlt := ctx.timestamp_add_lt
  have h1 : (ctx.now + pauseDuration).toNat = ctx.timestamp.toNat + hours48 := by
    rw [toNat_add, ctx.toNat_now, toNat_pauseDuration, Nat.mod_eq_of_lt (by omega)]
  refine ⟨h1, ?_⟩
  rw [toNat_add, h1, toNat_cooldownDuration, Nat.mod_eq_of_lt (by omega)]

namespace History.Inv

variable {h : History} {now : Nat}

theorem init (pauseTypeRoles unPauseTypeRoles : PauseType → Word) :
    History.Inv ⟨.init pauseTypeRoles unPauseTypeRoles, []⟩ 0 where
  past _ hp := absurd hp not_mem_nil
  used _ hp := absurd hp not_mem_nil
  opened _ hp := absurd hp not_mem_nil
  windows := .nil
  cooldown := .inl ⟨rfl, rfl⟩
  earlier _ hp := absurd hp not_mem_nil
  paused t ht := by
    rw [PauseManager.isPaused_eq] at ht
    exact absurd ht (by simp [PauseManager.init])

section

variable (hinv : h.Inv now)

include hinv

theorem mono {now' : Nat} (hle : now ≤ now') : h.Inv now' :=
  { hinv with past := fun p hp => (hinv.past p hp).trans hle }

theorem clear (t : PauseType) : History.Inv ⟨h.manager.clearPaused t, h.pauses⟩ now :=
  { hinv with
    paused := fun t' ht' => by
      rw [PauseManager.isPaused_clearPaused, Bool.and_eq_true, Bool.not_eq_true', decide_eq_false_iff_not] at ht'
      obtain ⟨p, hp, hpt, hpe⟩ := hinv.paused t' ht'.1
      exact ⟨p, hp, hpt, hpe.trans (congrArg BitVec.toNat (h.manager.expiry_clearPaused_of_ne ht'.2).symm)⟩ }

theorem addPause {q : Pause} (hnow : now ≤ q.time) (hused : q.pauseType ≠ .unused)
    (hopened : ∃ o ∈ h.pauses ++ [q], Opens o q) (hwindow : ∀ p ∈ h.pauses, q.expiry = p.expiry ∨
      p.expiry + hours48 ≤ q.time)
    {expiry cooldownEnd : Word} (hexpiry : expiry.toNat = q.expiry)
    (hcooldown : ∃ o ∈ h.pauses ++ [q], Opens o o ∧ cooldownEnd.toNat = o.expiry + hours48)
    (hearlier : ∀ p ∈ h.pauses ++ [q], p.expiry + hours48 = cooldownEnd.toNat ∨
      p.expiry + hours48 + 2 * hours48 ≤ cooldownEnd.toNat) :
    History.Inv ⟨{ h.manager.setPaused q.pauseType expiry with nonSecurityCouncilCooldownEnd := cooldownEnd },
      h.pauses ++ [q]⟩
      q.time where
  past p hp := by
    rcases mem_append.1 hp with hp | hp
    · exact (hinv.past p hp).trans hnow
    · rw [mem_singleton.1 hp]
  used p hp := by
    rcases mem_append.1 hp with hp | hp
    · exact hinv.used p hp
    · rwa [mem_singleton.1 hp]
  opened p hp := by
    rcases mem_append.1 hp with hp | hp
    · obtain ⟨o, ho, hop⟩ := hinv.opened p hp
      exact ⟨o, mem_append_left _ ho, hop⟩
    · rwa [mem_singleton.1 hp]
  windows := by
    refine pairwise_append.2 ⟨hinv.windows, pairwise_singleton _ _, fun p hp q' hq' => ?_⟩
    rw [mem_singleton.1 hq']
    exact ⟨(hinv.past p hp).trans hnow, hwindow p hp⟩
  cooldown := .inr hcooldown
  earlier := hearlier
  paused t ht := by
    change (h.manager.setPaused q.pauseType expiry).isPaused t = true at ht
    by_cases htq : t = q.pauseType
    · subst htq
      exact ⟨q, mem_append_right _ (mem_singleton_self q), rfl,
        hexpiry.symm.trans (congrArg BitVec.toNat (h.manager.expiry_setPaused _ expiry).symm)⟩
    · rw [PauseManager.isPaused_setPaused, decide_eq_false htq, Bool.or_false] at ht
      obtain ⟨p, hp, hpt, hpe⟩ := hinv.paused t ht
      exact ⟨p, mem_append_left _ hp, hpt, hpe.trans
        (congrArg BitVec.toNat (h.manager.expiry_setPaused_of_ne htq expiry).symm)⟩

theorem openWindow {ctx : Ctx} (hnow : now ≤ ctx.timestamp.toNat) {t : PauseType} (ht : t ≠ .unused)
    (hend : h.manager.nonSecurityCouncilCooldownEnd ≤ ctx.now) :
    History.Inv ⟨{ h.manager.setPaused t (ctx.now + pauseDuration) with
      nonSecurityCouncilCooldownEnd := ctx.now + pauseDuration + cooldownDuration },
      h.pauses ++ [⟨t, ctx.timestamp.toNat, (ctx.now + pauseDuration).toNat⟩]⟩ ctx.timestamp.toNat := by
  obtain ⟨hexpiry, hcooldown⟩ := toNat_windowEnd ctx
  rw [le_def, ctx.toNat_now] at hend
  have hpos : 0 < hours48 := by decide
  have hself : Opens ⟨t, ctx.timestamp.toNat, (ctx.now + pauseDuration).toNat⟩
    ⟨t, ctx.timestamp.toNat, (ctx.now + pauseDuration).toNat⟩ :=
    ⟨hexpiry, rfl, le_rfl, Nat.lt_add_of_pos_right hpos⟩
  have hmem {q : Pause} : q ∈ h.pauses ++ [q] := mem_append_right _ (mem_singleton_self q)
  refine hinv.addPause (q := ⟨t, ctx.timestamp.toNat, (ctx.now + pauseDuration).toNat⟩) hnow ht ⟨_, hmem,
    hself⟩ (fun p hp => ?_) rfl
    ⟨_, hmem, hself, by rw [hcooldown, hexpiry]⟩ fun p hp => ?_
  · rcases hinv.earlier p hp with h' | h'
    · exact .inr (by dsimp only; omega)
    · exact .inr (by dsimp only; omega)
  · rw [hcooldown]
    rcases mem_append.1 hp with hp | hp
    · rcases hinv.earlier p hp with h' | h'
      · exact .inr (by omega)
      · exact .inr (by omega)
    · rw [mem_singleton.1 hp]
      exact .inl (by dsimp only; omega)

theorem inWindow {ctx : Ctx} (hnow : now ≤ ctx.timestamp.toNat) {t : PauseType} (ht : t ≠ .unused)
    (hend : ctx.now < h.manager.nonSecurityCouncilCooldownEnd)
    (hcooldown : cooldownDuration < h.manager.nonSecurityCouncilCooldownEnd - ctx.now) :
    History.Inv ⟨h.manager.setPaused t (h.manager.nonSecurityCouncilCooldownEnd - cooldownDuration),
      h.pauses ++ [⟨t, ctx.timestamp.toNat, (h.manager.nonSecurityCouncilCooldownEnd - cooldownDuration).toNat⟩]⟩
      ctx.timestamp.toNat := by
  -- there is a window, or the end of the cooldown would be zero
  obtain ⟨-, hzero⟩ | ⟨o, ho, hself, hcool⟩ := hinv.cooldown
  · rw [hzero] at hend
    exact absurd hend not_lt_zero
  have hsub : (h.manager.nonSecurityCouncilCooldownEnd - ctx.now).toNat =
      h.manager.nonSecurityCouncilCooldownEnd.toNat - ctx.timestamp.toNat := by
    rw [BitVec.toNat_sub_of_le (BitVec.le_of_lt hend), ctx.toNat_now]
  rw [BitVec.lt_def, hsub, toNat_cooldownDuration] at hcooldown
  have hexpiry : (h.manager.nonSecurityCouncilCooldownEnd - cooldownDuration).toNat = o.expiry := by
    rw [BitVec.toNat_sub_of_le (le_def.2 (by rw [toNat_cooldownDuration]; omega)), toNat_cooldownDuration]
    omega
  have hpast := hinv.past o ho
  have hoexpiry := hself.expiry
  have hopens : Opens o ⟨t, ctx.timestamp.toNat, (h.manager.nonSecurityCouncilCooldownEnd - cooldownDuration).toNat⟩ :=
    ⟨hoexpiry, hexpiry, hpast.trans hnow, by dsimp only; omega⟩
  refine hinv.addPause (q := ⟨t, ctx.timestamp.toNat,
    (h.manager.nonSecurityCouncilCooldownEnd - cooldownDuration).toNat⟩) hnow ht
    ⟨o, mem_append_left _ ho, hopens⟩ (fun p hp => ?_) rfl ⟨o, mem_append_left _ ho, hself, hcool⟩ fun p hp => ?_
  · rcases hinv.earlier p hp with h' | h'
    · exact .inl (by dsimp only; omega)
    · exact .inr (by dsimp only; omega)
  · rcases mem_append.1 hp with hp | hp
    · exact hinv.earlier p hp
    · rw [mem_singleton.1 hp]
      exact .inl (by dsimp only; omega)

theorem step {c : Call} (hnow : now ≤ c.ctx.timestamp.toNat) (hcouncil : c.ctx.hasRole securityCouncilRole = false) :
    (h.step securityCouncilRole c).Inv c.ctx.timestamp.toNat := by
  rw [History.step]
  cases hexec : c.exec securityCouncilRole h.manager with
  | error e => exact hinv.mono hnow
  | ok s =>
    dsimp only
    rcases Call.exec_cases hcouncil hexec with ⟨t, hentry, hpaused⟩ | ⟨t, hentry, -, rfl⟩
    · rw [hentry]
      dsimp only
      rcases hpaused.window with ⟨hend, rfl⟩ | ⟨hend, hcooldown, rfl⟩
      · rw [h.manager.expiry_setPaused t (c.ctx.now + pauseDuration)]
        exact hinv.openWindow hnow hpaused.used hend
      · rw [h.manager.expiry_setPaused t (h.manager.nonSecurityCouncilCooldownEnd - cooldownDuration)]
        exact hinv.inWindow hnow hpaused.used hend hcooldown
    · split
      · rename_i t' hentry'
        exact absurd hentry' (hentry t')
      · exact (hinv.clear t).mono hnow

theorem run {cs : List Call} (hsorted : cs.Pairwise fun c d => c.ctx.timestamp ≤ d.ctx.timestamp)
    (hnow : ∀ c ∈ cs, now ≤ c.ctx.timestamp.toNat) (hcouncil : ∀ c ∈ cs, c.ctx.hasRole securityCouncilRole = false) :
    ∃ now', (h.run securityCouncilRole cs).Inv now' := by
  induction cs generalizing h now with
  | nil => exact ⟨now, hinv⟩
  | cons c cs ih =>
    obtain ⟨hle, hsorted⟩ := pairwise_cons.1 hsorted
    obtain ⟨hc, hcs⟩ := forall_mem_cons.1 hcouncil
    exact ih (hinv.step (hnow c mem_cons_self) hc) hsorted (fun d hd => le_def.1 (hle d hd)) hcs

theorem opens_of_expiry {o p q : Pause} (hop : Opens o p) (hq : q ∈ h.pauses) (htime : p.time ≤ q.time)
    (hexpiry : q.expiry = p.expiry) : Opens o q := by
  obtain ⟨o', -, hoq⟩ := hinv.opened q hq
  have h1 := hop.expiry
  have h2 := hop.same
  have h3 := hoq.expiry
  have h4 := hoq.same
  have h5 := hoq.inside
  exact ⟨h1, hexpiry.trans h2, hop.start.trans htime, by omega⟩

end

end History.Inv

theorem PauseManager.unPauseByExpiredType_eq_ok {s : PauseManager} {ctx : Ctx} {t : PauseType} (ht : t ≠ .unused)
    (hpaused : s.isPaused t = true) (hexpired : s.pauseTypeExpiryTimestamps t ≤ ctx.now) :
    s.unPauseByExpiredType ctx t = .ok (s.clearPaused t) := by
  rw [unPauseByExpiredType, onlyUsedPausedTypes_eq_ok.2 ht, ok_bind, failIf_of_not (not_not_intro hpaused), ok_bind,
    failIf_of_not (BitVec.not_lt.2 hexpired), ok_bind]
  rfl

theorem History.indefinite_run {h : History} {t : PauseType} (hpaused : h.manager.isPaused t = true)
    (hmax : h.manager.pauseTypeExpiryTimestamps t = maxWord) {cs : List Call}
    (hcouncil : ∀ c ∈ cs, c.ctx.hasRole securityCouncilRole = false) :
    (h.run securityCouncilRole cs).manager.isPaused t = true ∧
      (h.run securityCouncilRole cs).manager.pauseTypeExpiryTimestamps t = maxWord := by
  induction cs generalizing h with
  | nil => exact ⟨hpaused, hmax⟩
  | cons c cs ih =>
    obtain ⟨hc, hcs⟩ := forall_mem_cons.1 hcouncil
    have hstep : (h.step securityCouncilRole c).manager.isPaused t = true ∧
        (h.step securityCouncilRole c).manager.pauseTypeExpiryTimestamps t = maxWord := by
      rw [History.step]
      cases hexec : c.exec securityCouncilRole h.manager with
      | error e => exact ⟨hpaused, hmax⟩
      | ok s =>
        -- the type of the call is another one
        have hkeep : s.isPaused t = true ∧ s.pauseTypeExpiryTimestamps t = maxWord := by
          rcases Call.exec_cases hc hexec with ⟨t', -, hby⟩ | ⟨t', -, hne, rfl⟩
          · have htt' : t ≠ t' := fun heq => hby.notIndefinite (heq ▸ hmax)
            have hset (expiry cooldownEnd : Word) :
                PauseManager.isPaused { h.manager.setPaused t' expiry
                  with nonSecurityCouncilCooldownEnd := cooldownEnd } t = true ∧
                (h.manager.setPaused t' expiry).pauseTypeExpiryTimestamps t = maxWord :=
              ⟨(h.manager.isPaused_setPaused t' t expiry).trans (by rw [hpaused, Bool.true_or]),
                (h.manager.expiry_setPaused_of_ne htt' _).trans hmax⟩
            rcases hby.window with ⟨-, rfl⟩ | ⟨-, -, rfl⟩
            · exact hset (c.ctx.now + pauseDuration) (c.ctx.now + pauseDuration + cooldownDuration)
            · exact hset (h.manager.nonSecurityCouncilCooldownEnd - cooldownDuration)
                h.manager.nonSecurityCouncilCooldownEnd
          · have htt' : t ≠ t' := fun heq => hne (heq ▸ hmax)
            exact ⟨(h.manager.isPaused_clearPaused t' t).trans (by rw [hpaused, decide_eq_false htt']; rfl),
              (h.manager.expiry_clearPaused_of_ne htt').trans hmax⟩
        dsimp only
        split <;> exact hkeep
    exact ih hstep.1 hstep.2 hcs

/-- In every run without the security council, each pause expires 48 hours after the pause that opened its window; a
later pause is in that window or at least 96 hours after its start; and anyone can lift a pause from 48 hours on. A
pause of the security council is only lifted by it. -/
theorem pauses_bounded (securityCouncilRole : Word) (pauseTypeRoles unPauseTypeRoles : PauseType → Word)
    (cs : List Call) (hsorted : cs.Pairwise fun c d => c.ctx.timestamp ≤ d.ctx.timestamp)
    (hcouncil : ∀ c ∈ cs, c.ctx.hasRole securityCouncilRole = false) :
    let h := History.run securityCouncilRole ⟨.init pauseTypeRoles unPauseTypeRoles, []⟩ cs
    (∀ p ∈ h.pauses, ∃ o ∈ h.pauses, Opens o p) ∧
    (h.pauses.Pairwise fun p q => ∀ o, Opens o p → (Opens o q ∧ q.expiry = p.expiry) ∨ o.time + 2 * hours48 ≤ q.time) ∧
    (∀ t, h.manager.isPaused t = true → ∃ o ∈ h.pauses, ∃ p ∈ h.pauses, p.pauseType = t ∧ Opens o p ∧
      (h.manager.pauseTypeExpiryTimestamps t).toNat = o.time + hours48 ∧
      ∀ ctx : Ctx, o.time + hours48 ≤ ctx.timestamp.toNat →
        ∃ s, h.manager.unPauseByExpiredType ctx t = .ok s ∧ s.isPaused t = false) ∧
    ∀ (s : PauseManager) (t : PauseType), s.isPaused t = true → s.pauseTypeExpiryTimestamps t = maxWord →
      ∀ cs' : List Call, (∀ c ∈ cs', c.ctx.hasRole securityCouncilRole = false) →
        (History.run securityCouncilRole ⟨s, []⟩ cs').manager.isPaused t = true ∧
          (History.run securityCouncilRole ⟨s, []⟩ cs').manager.pauseTypeExpiryTimestamps t = maxWord := by
  obtain ⟨now, hinv⟩ := (History.Inv.init pauseTypeRoles unPauseTypeRoles).run hsorted
    (fun _ _ => Nat.zero_le _) hcouncil
  refine ⟨hinv.opened, ?_, fun t ht => ?_, fun s t hpaused hmax cs' hcs' => History.indefinite_run hpaused hmax hcs'⟩
  · refine hinv.windows.imp_of_mem fun {p q} _ hq hpq o hop => ?_
    rcases hpq.2 with hsame | hlater
    · exact .inl ⟨hinv.opens_of_expiry hop hq hpq.1 hsame, hsame⟩
    · have h1 := hop.expiry
      have h2 := hop.same
      exact .inr (by omega)
  · obtain ⟨p, hp, rfl, hexpiry⟩ := hinv.paused t ht
    obtain ⟨o, ho, hop⟩ := hinv.opened p hp
    have h1 := hop.expiry
    have h2 := hop.same
    refine ⟨o, ho, p, hp, rfl, hop, by omega, fun ctx hctx => ?_⟩
    have hexpired : p.expiry ≤ ctx.now.toNat := by
      rw [ctx.toNat_now]
      omega
    refine ⟨_, PauseManager.unPauseByExpiredType_eq_ok (hinv.used p hp) ht (le_def.2 (hexpiry ▸ hexpired)), ?_⟩
    rw [PauseManager.isPaused_clearPaused, decide_eq_true rfl, Bool.not_true, Bool.and_false]

/-- Two types are paused within an hour, by a sender who is not on the council. -/
def twoPauses : List Call :=
  [⟨⟨1000, fun role => role ≠ 7⟩, .pauseByType .general⟩, ⟨⟨4600, fun role => role ≠ 7⟩, .pauseByType .l1L2⟩]

theorem pauses_bounded_two :
    (History.run 7 ⟨.init (fun _ => 1) fun _ => 2, []⟩ twoPauses).pauses =
      [⟨.general, 1000, 1000 + hours48⟩, ⟨.l1L2, 4600, 1000 + hours48⟩] ∧
    ∃ o ∈ (History.run 7 ⟨.init (fun _ => 1) fun _ => 2, []⟩ twoPauses).pauses,
      Opens o ⟨.l1L2, 4600, 1000 + hours48⟩ := by
  have hpauses : (History.run 7 ⟨.init (fun _ => 1) fun _ => 2, []⟩ twoPauses).pauses =
      [⟨.general, 1000, 1000 + hours48⟩, ⟨.l1L2, 4600, 1000 + hours48⟩] := by decide
  refine ⟨hpauses, (pauses_bounded 7 (fun _ => 1) (fun _ => 2) twoPauses ?_ ?_).1 _ ?_⟩
  · decide
  · intro c hc
    rcases mem_pair.1 hc with rfl | rfl <;> rfl
  · rw [hpauses]
    exact mem_cons_of_mem _ mem_cons_self

end Lineth.Security
