import Lineth.Lib.RollingHash
import Lineth.Messaging.L2
import Mathlib.Data.Finset.Card

/-!
# The inbox of the L2 message service over whole runs

`InboxInv` ties the counter, the rolling hash and the statuses of the L2 message service to the `distinct` hashes of
all anchoring calls that succeeded (`anchoredHashes`); `InboxRel` adds how statuses move and how often a message is
claimed. Both hold of every run, re-entrant calls included (`l2Code_rel`). -/

namespace Lineth.Messaging

open Function (update update_of_ne update_self)
open Evm Contract Rollup Except List Prog

/-! ### First occurrences -/

section Distinct

variable {α : Type*} [DecidableEq α]

def insertNew (acc : List α) (x : α) : List α := if x ∈ acc then acc else acc ++ [x]

def distinct (xs : List α) : List α := xs.foldl insertNew []

theorem mem_foldl_insertNew {x : α} {acc xs : List α} : x ∈ xs.foldl insertNew acc ↔ x ∈ acc ∨ x ∈ xs := by
  induction xs generalizing acc with
  | nil => simp
  | cons y xs ih =>
    rw [foldl_cons, ih, insertNew, mem_cons]
    split
    · constructor
      · rintro (h | h)
        · exact .inl h
        · exact .inr (.inr h)
      · rintro (h | rfl | h)
        · exact .inl h
        · exact .inl ‹_›
        · exact .inr h
    · simp [or_assoc]

theorem nodup_foldl_insertNew {acc xs : List α} (h : acc.Nodup) : (xs.foldl insertNew acc).Nodup := by
  induction xs generalizing acc with
  | nil => exact h
  | cons y xs ih =>
    rw [foldl_cons]
    apply ih
    unfold insertNew
    split
    · exact h
    · rw [nodup_append]
      refine ⟨h, nodup_singleton y, fun a ha b hb => ?_⟩
      rw [mem_singleton.1 hb]
      exact fun e => ‹y ∉ acc› (e ▸ ha)

theorem prefix_foldl_insertNew (acc xs : List α) : acc <+: xs.foldl insertNew acc := by
  induction xs generalizing acc with
  | nil => exact prefix_refl acc
  | cons y xs ih =>
    refine List.IsPrefix.trans ?_ (ih (insertNew acc y))
    unfold insertNew
    split
    · exact prefix_refl acc
    · exact prefix_append _ _

@[simp] theorem mem_distinct {x : α} {xs : List α} : x ∈ distinct xs ↔ x ∈ xs := by
  rw [distinct, mem_foldl_insertNew]; simp

theorem distinct_append (xs ys : List α) : distinct (xs ++ ys) = ys.foldl insertNew (distinct xs) :=
  foldl_append

theorem length_distinct (xs : List α) : (distinct xs).length = xs.toFinset.card := by
  have hnodup : (distinct xs).Nodup := nodup_foldl_insertNew nodup_nil
  rw [← toFinset_card_of_nodup hnodup]
  congr 1
  ext x
  simp

end Distinct

/-! ### What a run anchored and claimed -/

/-- The arrays of the anchoring calls that succeeded, one after the other. -/
def anchoredHashes (t : List (Entry L2Action L2Log)) : List Word :=
  t.flatMap fun e => match e with
    | .returned ⟨_, .anchorL1L2MessageHashes hashes _ _ _⟩ => hashes
    | _ => []

/-- Whether a trace entry is a successful claim of the message with this hash. -/
def isClaimOf (keccak : List Byte → Word) (messageHash : Word) : Entry L2Action L2Log → Bool
  | .returned ⟨_, .claimMessage m _⟩ => hashMessage keccak m = messageHash
  | _ => false

def claimCount (keccak : List Byte → Word) (messageHash : Word) (t : List (Entry L2Action L2Log)) : Nat :=
  t.countP (isClaimOf keccak messageHash)

variable (t u : List (Entry L2Action L2Log))

@[simp] theorem anchoredHashes_append :
    anchoredHashes (t ++ u) = anchoredHashes t ++ anchoredHashes u := flatMap_append

@[simp] theorem anchoredHashes_events (l : List L2Log) : anchoredHashes (l.map .event) = [] := by
  simp [anchoredHashes]

variable {keccak : List Byte → Word} {messageHash : Word}

@[simp] theorem claimCount_append :
    claimCount keccak messageHash (t ++ u) = claimCount keccak messageHash t + claimCount keccak messageHash u :=
  countP_append

@[simp] theorem claimCount_events (l : List L2Log) : claimCount keccak messageHash (l.map .event) = 0 := by
  rw [claimCount, countP_eq_zero]
  intro e he
  obtain ⟨_, _, rfl⟩ := mem_map.1 he
  simp [isClaimOf]

theorem claimCount_claim (ctx : Ctx) (m : Message) (feeRecipient : Address) :
    claimCount keccak messageHash [.returned ⟨ctx, .claimMessage m feeRecipient⟩] =
      if hashMessage keccak m = messageHash then 1 else 0 := by
  simp [claimCount, isClaimOf, countP_cons]

/-! ### The inbox -/

def InboxStatus.value : InboxStatus → Nat
  | .unknown => 0
  | .received => 1
  | .claimed => 2

/-- The moves a status makes: none, to RECEIVED from UNKNOWN, to CLAIMED from RECEIVED. -/
inductive StatusMove : InboxStatus → InboxStatus → Prop where
  | stay (x : InboxStatus) : StatusMove x x
  | receive : StatusMove .unknown .received
  | claim : StatusMove .received .claimed

theorem StatusMove.value_le {x y : InboxStatus} (h : StatusMove x y) : x.value ≤ y.value := by
  cases h <;> simp [InboxStatus.value]

theorem InboxStatus.eq_claimed_of_value_le {x : InboxStatus} (h : InboxStatus.claimed.value ≤ x.value) :
    x = .claimed := by
  cases x <;> simp [InboxStatus.value] at h ⊢

/-- The contract's inbox is the list of distinct hashes anchored in the trace. -/
structure InboxInv (keccak : List Byte → Word) (s : L2) (t : List (Entry L2Action L2Log)) : Prop where
  number : s.lastAnchoredL1MessageNumber.toNat = (distinct (anchoredHashes t)).length
  rollingHash : s.l1RollingHashes s.lastAnchoredL1MessageNumber =
    (distinct (anchoredHashes t)).foldl (efficientKeccak keccak) 0
  rollingHash_ne : s.lastAnchoredL1MessageNumber ≠ 0 → s.l1RollingHashes s.lastAnchoredL1MessageNumber ≠ 0
  unknown : ∀ h, s.inboxL1L2MessageStatus h = .unknown ↔ h ∉ anchoredHashes t

/-- The loop's variables stand for the distinct hashes `A`. -/
structure LoopInv (keccak : List Byte → Word) (a : AnchorLoop) (A : List Word) : Prop where
  number : a.currentL1MessageNumber.toNat = A.length
  rollingHash : a.rollingHash = A.foldl (efficientKeccak keccak) 0
  unknown : ∀ h, a.inboxL1L2MessageStatus h = .unknown ↔ h ∉ A

def Receives (x y : InboxStatus) : Prop := y = x ∨ (x = .unknown ∧ y = .received)

theorem Receives.trans {x y z : InboxStatus} (h : Receives x y) (h' : Receives y z) : Receives x z := by
  rcases h with rfl | ⟨rfl, rfl⟩
  · exact h'
  · rcases h' with rfl | ⟨h', -⟩
    · exact .inr ⟨rfl, rfl⟩
    · cases h'

theorem Receives.move {x y : InboxStatus} (h : Receives x y) : StatusMove x y := by
  rcases h with rfl | ⟨rfl, rfl⟩
  · exact .stay _
  · exact .receive

variable {a a' : AnchorLoop}

theorem anchorHash_eq_ok {h : Word} (hok : anchorHash keccak a h = .ok a') :
    (a.inboxL1L2MessageStatus h = .unknown ∧ a.currentL1MessageNumber.toNat + (1 : Word).toNat < 2 ^ 256 ∧
      a' = ⟨update a.inboxL1L2MessageStatus h .received, efficientKeccak keccak a.rollingHash h,
        a.currentL1MessageNumber + 1⟩) ∨ (a.inboxL1L2MessageStatus h ≠ .unknown ∧ a' = a) := by
  unfold anchorHash at hok
  split at hok
  · simp only [bind_eq_ok, checkedAdd_eq_ok, pure_eq_ok, ok.injEq] at hok
    obtain ⟨_, ⟨hlt, rfl⟩, rfl⟩ := hok
    exact .inl ⟨‹_›, hlt, rfl⟩
  · cases hok
    exact .inr ⟨‹_›, rfl⟩

theorem anchorHash_spec {A : List Word} {h : Word} (ha : LoopInv keccak a A)
    (hok : anchorHash keccak a h = .ok a') : LoopInv keccak a' (insertNew A h) := by
  rcases anchorHash_eq_ok hok with ⟨hunknown, hlt, rfl⟩ | ⟨hknown, rfl⟩
  · rw [insertNew, if_neg ((ha.unknown h).1 hunknown)]
    refine ⟨?_, ?_, fun x => ?_⟩
    · rw [toNat_add_one hlt, ha.number, length_append, length_singleton]
    · rw [foldl_concat, ha.rollingHash]
    · by_cases hx : x = h
      · simp [hx]
      · simp [ha.unknown, hx]
  · have hmem : h ∈ A := by
      by_contra hn
      exact hknown ((ha.unknown h).2 hn)
    rwa [insertNew, if_pos hmem]

theorem anchorLoop_spec {hashes A : List Word} (ha : LoopInv keccak a A)
    (hok : hashes.foldlM (anchorHash keccak) a = .ok a') : LoopInv keccak a' (hashes.foldl insertNew A) := by
  induction hashes generalizing a A with
  | nil => cases hok; exact ha
  | cons h hashes ih =>
    rw [foldlM_cons, bind_eq_ok] at hok
    obtain ⟨b, hb, hok⟩ := hok
    exact ih (anchorHash_spec ha hb) hok

variable {hashes : List Word}

theorem anchorLoop_receives
    (hok : hashes.foldlM (anchorHash keccak) a = .ok a') (x : Word) :
    Receives (a.inboxL1L2MessageStatus x) (a'.inboxL1L2MessageStatus x) := by
  induction hashes generalizing a with
  | nil => cases hok; exact .inl rfl
  | cons h hashes ih =>
    rw [foldlM_cons, bind_eq_ok] at hok
    obtain ⟨b, hb, hok⟩ := hok
    refine Receives.trans ?_ (ih hok)
    rcases anchorHash_eq_ok hb with ⟨hunknown, -, rfl⟩ | ⟨-, rfl⟩
    · by_cases hx : x = h
      · exact .inr ⟨hx ▸ hunknown, by simp [hx]⟩
      · exact .inl (update_of_ne hx _ _)
    · exact .inl rfl

/-! ### One anchoring call -/

/-- What a successful anchoring call did. -/
structure Anchors (keccak : List Byte → Word) (hashes : List Word) (s s' : L2) : Prop where
  loop : ∃ a, hashes.foldlM (anchorHash keccak) ⟨s.inboxL1L2MessageStatus,
      s.l1RollingHashes s.lastAnchoredL1MessageNumber, s.lastAnchoredL1MessageNumber⟩ = .ok a ∧ a.rollingHash ≠ 0 ∧
    (a.currentL1MessageNumber ≠ s.lastAnchoredL1MessageNumber →
      s' = { s with
        inboxL1L2MessageStatus := a.inboxL1L2MessageStatus
        lastAnchoredL1MessageNumber := a.currentL1MessageNumber
        l1RollingHashes := update s.l1RollingHashes a.currentL1MessageNumber a.rollingHash }) ∧
    (a.currentL1MessageNumber = s.lastAnchoredL1MessageNumber →
      s' = { s with inboxL1L2MessageStatus := a.inboxL1L2MessageStatus })

variable {s s' : L2}

theorem anchorL1L2MessageHashes_anchors {ctx : Ctx} {start final rollingHash : Word}
    {l : List L2Log} (h : anchorL1L2MessageHashes keccak ctx hashes start final rollingHash s = .ok (s', l)) :
    Anchors keccak hashes s s' := by
  simp only [anchorL1L2MessageHashes, bind_eq_ok, throw_eq_error, error_bind, pure_eq_ok,
    ite_error_eq_ok] at h
  obtain ⟨-, _, -, -, -, hne, -, -, a, ha, -, hroll, h⟩ := h
  refine ⟨a, ha, fun h0 => hne ?_, fun hnew => ?_, fun hold => ?_⟩
  · rw [not_not.1 hroll, h0]
  · rw [if_pos hnew] at h
    cases h
    rfl
  · rw [if_neg (not_not.2 hold)] at h
    cases h
    rfl

theorem Anchors.receives (h : Anchors keccak hashes s s') (x : Word) :
    Receives (s.inboxL1L2MessageStatus x) (s'.inboxL1L2MessageStatus x) := by
  obtain ⟨a, ha, -, hnew, hold⟩ := h
  have hx := anchorLoop_receives ha x
  by_cases hn : a.currentL1MessageNumber = s.lastAnchoredL1MessageNumber
  · rw [hold hn]; exact hx
  · rw [hnew hn]; exact hx

variable {t : List (Entry L2Action L2Log)}

theorem Anchors.inv {ctx : Ctx} {start final rollingHash : Word} {l : List L2Log} (h : Anchors keccak hashes s s')
    (hs : InboxInv keccak s t) :
    InboxInv keccak s'
      (t ++ (l.map .event ++ [.returned ⟨ctx, .anchorL1L2MessageHashes hashes start final rollingHash⟩])) := by
  obtain ⟨a, ha, hne, hnew, hold⟩ := h
  have htrace : anchoredHashes (t ++ (l.map .event ++
      [.returned ⟨ctx, .anchorL1L2MessageHashes hashes start final rollingHash⟩])) = anchoredHashes t ++ hashes := by
    rw [anchoredHashes_append, anchoredHashes_append, anchoredHashes_events]
    simp [anchoredHashes]
  have hloop : LoopInv keccak a (distinct (anchoredHashes t ++ hashes)) := by
    rw [distinct_append]
    exact anchorLoop_spec ⟨hs.number, hs.rollingHash, fun h => by rw [hs.unknown, mem_distinct]⟩ ha
  have hunknown : ∀ h, a.inboxL1L2MessageStatus h = .unknown ↔ h ∉ anchoredHashes t ++ hashes := fun h => by
    rw [hloop.unknown, mem_distinct]
  by_cases hn : a.currentL1MessageNumber = s.lastAnchoredL1MessageNumber
  · -- nothing new: the longer list has the same length, so it is the same list
    have hsame : distinct (anchoredHashes t ++ hashes) = distinct (anchoredHashes t) := by
      rw [distinct_append]
      refine ((prefix_foldl_insertNew _ _).eq_of_length ?_).symm
      rw [← distinct_append, ← hloop.number, hn, hs.number]
    rw [hold hn]
    refine ⟨?_, ?_, hs.rollingHash_ne, fun h => by rw [htrace]; exact hunknown h⟩
    · rw [htrace, hsame]; exact hs.number
    · rw [htrace, hsame]; exact hs.rollingHash
  · rw [hnew hn]
    refine ⟨?_, ?_, fun _ => ?_, fun h => by rw [htrace]; exact hunknown h⟩
    · rw [htrace]; exact hloop.number
    · rw [htrace, ← hloop.rollingHash]; exact update_self ..
    · show update _ _ _ _ ≠ _
      rwa [update_self]

/-! ### Every run -/

/-- How a run with trace `t` takes the inbox from `s` to `s'`. -/
structure InboxRel (keccak : List Byte → Word) (s : L2) (t : List (Entry L2Action L2Log)) (s' : L2) : Prop where
  inv : ∀ t₀, InboxInv keccak s t₀ → InboxInv keccak s' (t₀ ++ t)
  value_le : ∀ h, (s.inboxL1L2MessageStatus h).value ≤ (s'.inboxL1L2MessageStatus h).value
  claims : ∀ h, claimCount keccak h t ≤ 1 ∧ (claimCount keccak h t = 1 →
    s.inboxL1L2MessageStatus h ≠ .claimed ∧ s'.inboxL1L2MessageStatus h = .claimed)

structure SameInbox (s s' : L2) : Prop where
  number : s'.lastAnchoredL1MessageNumber = s.lastAnchoredL1MessageNumber
  rollingHashes : s'.l1RollingHashes = s.l1RollingHashes
  status : s'.inboxL1L2MessageStatus = s.inboxL1L2MessageStatus

theorem InboxInv.congr {t u : List (Entry L2Action L2Log)} (h : InboxInv keccak s t) (hs : SameInbox s s')
    (hu : anchoredHashes u = []) : InboxInv keccak s' (t ++ u) := by
  obtain ⟨hnumber, hrolling, hne, hunknown⟩ := h
  rw [← hs.number, ← hs.rollingHashes] at hne hrolling
  refine ⟨?_, ?_, hne, fun h => ?_⟩ <;> rw [anchoredHashes_append, hu, append_nil]
  · rw [hs.number]; exact hnumber
  · exact hrolling
  · rw [hs.status]; exact hunknown h

theorem InboxRel.quiet (hs : SameInbox s s')
    (hanchors : anchoredHashes t = []) (hclaims : ∀ h, claimCount keccak h t = 0) : InboxRel keccak s t s' where
  inv t₀ h := h.congr hs hanchors
  value_le h := by rw [hs.status]
  claims h := by simp [hclaims h]

theorem inboxRel_compositional : Compositional (InboxRel keccak) where
  refl s := .quiet ⟨rfl, rfl, rfl⟩ rfl fun _ => rfl
  trans {s t s' u s''} h h' := by
    refine ⟨fun t₀ h₀ => ?_, fun x => (h.value_le x).trans (h'.value_le x), fun x => ?_⟩
    · rw [← append_assoc]; exact h'.inv _ (h.inv _ h₀)
    · -- after a claim in `t` the status is CLAIMED, so `u` has none
      obtain ⟨ht, htc⟩ := h.claims x
      obtain ⟨hu, huc⟩ := h'.claims x
      rw [claimCount_append]
      rcases Nat.le_one_iff_eq_zero_or_eq_one.1 ht with h0 | h1
      · rw [h0, Nat.zero_add]
        refine ⟨hu, fun h1 => ⟨fun hc => (huc h1).1 ?_, (huc h1).2⟩⟩
        exact InboxStatus.eq_claimed_of_value_le (hc ▸ h.value_le x)
      · obtain ⟨hn, hc⟩ := htc h1
        have hu0 : claimCount keccak x u = 0 := by
          rcases Nat.le_one_iff_eq_zero_or_eq_one.1 hu with h0 | h1'
          · exact h0
          · exact absurd hc (huc h1').1
        refine ⟨by omega, fun _ => ⟨hn, ?_⟩⟩
        exact InboxStatus.eq_claimed_of_value_le (hc ▸ h'.value_le x)

/-- A claim: RECEIVED becomes CLAIMED before control is handed over, and meanwhile nobody claims the message. -/
theorem InboxRel.claim {ctx : Ctx} {m : Message} {feeRecipient : Address} {s s₁ s₂ s₃ : L2}
    (hreceived : s.inboxL1L2MessageStatus (hashMessage keccak m) = .received)
    (hs₁ : SameInbox (s.setClaimed (hashMessage keccak m)) s₁)
    (hrun : InboxRel keccak s₁ t s₂) (hs₃ : SameInbox s₂ s₃) :
    InboxRel keccak s (t ++ [.returned ⟨ctx, .claimMessage m feeRecipient⟩]) s₃ := by
  set h := hashMessage keccak m with hh
  have hself : s₁.inboxL1L2MessageStatus h = .claimed := by rw [hs₁.status]; exact update_self ..
  have hother : ∀ x, x ≠ h → s₁.inboxL1L2MessageStatus x = s.inboxL1L2MessageStatus x := fun x hx => by
    rw [hs₁.status]; exact update_of_ne hx _ _
  have hsecond : s₂.inboxL1L2MessageStatus h = .claimed :=
    InboxStatus.eq_claimed_of_value_le (hself ▸ hrun.value_le h)
  refine ⟨fun t₀ h₀ => ?_, fun x => ?_, fun x => ?_⟩
  · have h₁ : InboxInv keccak s₁ t₀ := by
      have hclaimed : InboxInv keccak (s.setClaimed h) t₀ := by
        refine ⟨h₀.number, h₀.rollingHash, h₀.rollingHash_ne, fun x => ?_⟩
        rw [← h₀.unknown]
        by_cases hx : x = h
        · simp [L2.setClaimed, hx, hreceived]
        · simp [L2.setClaimed, hx]
      have := hclaimed.congr (u := []) hs₁ rfl
      rwa [append_nil] at this
    rw [← append_assoc]
    exact (hrun.inv t₀ h₁).congr hs₃ rfl
  · rw [hs₃.status]
    refine le_trans ?_ (hrun.value_le x)
    by_cases hx : x = h
    · rw [hx, hreceived, hself]; decide
    · rw [hother x hx]
  · rw [claimCount_append, hs₃.status]
    obtain ⟨hle, hclaimed⟩ := hrun.claims x
    by_cases hx : x = h
    · subst hx
      have h0 : claimCount keccak h t = 0 := by
        rcases Nat.le_one_iff_eq_zero_or_eq_one.1 hle with h0 | h1
        · exact h0
        · exact absurd hself (hclaimed h1).1
      rw [h0, claimCount_claim, if_pos hh.symm, hreceived]
      exact ⟨le_rfl, fun _ => ⟨by simp, hsecond⟩⟩
    · rw [claimCount_claim, if_neg (Ne.symm hx), Nat.add_zero, ← hother x hx]
      exact ⟨hle, hclaimed⟩

theorem InboxRel.events (hs : SameInbox s s') (l : List L2Log) :
    InboxRel keccak s (l.map .event) s' :=
  .quiet hs (anchoredHashes_events l) fun _ => claimCount_events l

theorem claimMessage_rel (ctx : Ctx) (m : Message) (feeRecipient : Address) (s : L2) :
    (L2.claimMessage keccak ctx m feeRecipient s).Sat (InboxRel keccak) ⟨ctx, .claimMessage m feeRecipient⟩ s [] := by
  refine attempt_sat fun s₁ h₁ => ?_
  simp only [updateL1L2MessageStatusToClaimed, bind_eq_ok, throw_eq_error, error_bind,
    ite_error_eq_ok, ne_eq, not_not, ok.injEq] at h₁
  obtain ⟨-, _, -, hreceived, rfl⟩ := h₁
  refine ⟨fun u s' hu => ?_, trivial⟩
  show Prog.Sat _ _ _ _ (distributeFees L2.leaveNonReentrant _ _ _ _ _ _ _)
  refine distributeFees_sat inboxRel_compositional fun v s'' hv => ?_
  have hevent : InboxRel keccak s' ([L2Log.messageClaimed (hashMessage keccak m)].map .event)
      { s' with messageSender := 0 } := .events (by exact ⟨rfl, rfl, rfl⟩) _
  have hrun := inboxRel_compositional.trans (inboxRel_compositional.trans hu hevent) hv
  have hclaim : InboxRel keccak s (u ++ [L2Log.messageClaimed (hashMessage keccak m)].map .event ++ v ++
      [.returned ⟨ctx, .claimMessage m feeRecipient⟩]) s''.leaveNonReentrant :=
    .claim hreceived (by exact ⟨rfl, rfl, rfl⟩) hrun (by exact ⟨rfl, rfl, rfl⟩)
  simpa using hclaim

theorem quiet_returned {s : L2} {a : L2Action} (hanchor : ∀ h m n r, a.entrypoint ≠ .anchorL1L2MessageHashes h m n r)
    (hclaim : ∀ m f, a.entrypoint ≠ .claimMessage m f) : InboxRel keccak s [.returned a] s := by
  obtain ⟨ctx, e⟩ := a
  refine .quiet ⟨rfl, rfl, rfl⟩ ?_ fun h => ?_
  · cases e with
    | anchorL1L2MessageHashes => exact absurd rfl (hanchor _ _ _ _)
    | _ => rfl
  · cases e with
    | claimMessage => exact absurd rfl (hclaim _ _)
    | _ => rfl

theorem sendMessage_rel (ctx : Ctx) (coinbase to_ : Address) (fee : Word) (calldata : List Byte) (s : L2) :
    (L2.sendMessage keccak ctx coinbase to_ fee calldata s).Sat (InboxRel keccak)
      ⟨ctx, .sendMessage coinbase to_ fee calldata⟩ s [] := by
  refine attempt_sat fun r hr => ?_
  have hs₁ : SameInbox s r.1 := by
    simp only [bind_eq_ok, throw_eq_error, error_bind, pure_eq_ok, ite_error_eq_ok,
      ok.injEq] at hr
    obtain ⟨_, -, -, -, -, _, -, _, -, _, -, rfl⟩ := hr
    exact ⟨rfl, rfl, rfl⟩
  refine ⟨fun u s' hu => ?_, trivial⟩
  have hrun := inboxRel_compositional.trans (inboxRel_compositional.trans (.events hs₁ r.2) hu)
    (quiet_returned (a := ⟨ctx, .sendMessage coinbase to_ fee calldata⟩) (by simp) (by simp))
  simpa [Prog.Sat] using hrun

theorem atomic_rel {a : L2Action} {x : Except Error (L2 × List L2Log)} {s : L2}
    (hanchor : ∀ h m n r, a.entrypoint ≠ .anchorL1L2MessageHashes h m n r)
    (hclaim : ∀ m f, a.entrypoint ≠ .claimMessage m f) (hx : ∀ r, x = .ok r → SameInbox s r.1) :
    (atomic x).Sat (InboxRel keccak) a s [] := by
  refine attempt_sat fun r hr => ?_
  have hevents : InboxRel keccak s (r.2.map .event) r.1 := .events (hx r hr) r.2
  have hrun := inboxRel_compositional.trans hevents (quiet_returned hanchor hclaim)
  simpa [Prog.Sat] using hrun

theorem l2Code_rel (a : L2Action) (s : L2) : (l2Code keccak a s).Sat (InboxRel keccak) a s [] := by
  obtain ⟨ctx, e⟩ := a
  cases e with
  | anchorL1L2MessageHashes hashes start final rollingHash =>
    refine attempt_sat fun ⟨s', l⟩ hr => ?_
    have hanchors := anchorL1L2MessageHashes_anchors hr
    show InboxRel keccak s (l.map .event ++ [.returned _]) s'
    refine ⟨fun t₀ h₀ => hanchors.inv h₀, fun h => (hanchors.receives h).move.value_le, fun h => ?_⟩
    rw [claimCount_append, claimCount_events]
    simp [claimCount, isClaimOf]
  | claimMessage m feeRecipient => exact claimMessage_rel ctx m feeRecipient s
  | sendMessage coinbase to_ fee calldata => exact sendMessage_rel ctx coinbase to_ fee calldata s
  | setMinimumFee fee =>
    refine atomic_rel (by simp) (by simp) fun r hr => ?_
    simp only [setMinimumFee, bind_eq_ok, pure_eq_ok, ok.injEq] at hr
    obtain ⟨_, -, rfl⟩ := hr
    exact ⟨rfl, rfl, rfl⟩
  | resetRateLimitAmount amount =>
    refine atomic_rel (by simp) (by simp) fun r hr => ?_
    simp only [L2.resetRateLimitAmount, bind_eq_ok, pure_eq_ok, ok.injEq] at hr
    obtain ⟨_, -, rfl⟩ := hr
    exact ⟨rfl, rfl, rfl⟩
  | resetAmountUsedInPeriod =>
    refine atomic_rel (by simp) (by simp) fun r hr => ?_
    simp only [L2.resetAmountUsedInPeriod, bind_eq_ok, pure_eq_ok, ok.injEq] at hr
    obtain ⟨_, -, rfl⟩ := hr
    exact ⟨rfl, rfl, rfl⟩

theorem l2Code_moves (a : L2Action) (s : L2) : (l2Code keccak a s).Segments
    (fun s _ s' => ∀ h, StatusMove (s.inboxL1L2MessageStatus h) (s'.inboxL1L2MessageStatus h)) s := by
  obtain ⟨ctx, e⟩ := a
  cases e with
  | anchorL1L2MessageHashes =>
    exact atomic_segments fun s' l h x => ((anchorL1L2MessageHashes_anchors h).receives x).move
  | claimMessage m feeRecipient =>
    refine attempt_segments fun s₁ h₁ => ?_
    simp only [updateL1L2MessageStatusToClaimed, bind_eq_ok, throw_eq_error, error_bind,
      ite_error_eq_ok, ne_eq, not_not, ok.injEq] at h₁
    obtain ⟨-, _, -, hreceived, rfl⟩ := h₁
    refine ⟨fun x => ?_, fun _ s => ite_segments (fun _ => ?_) fun _ => trivial⟩
    · by_cases hx : x = hashMessage keccak m
      · rw [hx, hreceived]
        simp [L2.setClaimed, StatusMove.claim]
      · simp [L2.setClaimed, hx, StatusMove.stay]
    · exact distributeFees_segments (fun _ => .stay _) (fun _ => .stay _) (fun _ _ => .stay _) fun _ _ => .stay _
  | sendMessage =>
    refine attempt_segments fun r hr => ?_
    simp only [bind_eq_ok, throw_eq_error, error_bind, pure_eq_ok, ite_error_eq_ok,
      ok.injEq] at hr
    obtain ⟨_, -, -, -, -, _, -, _, -, _, -, rfl⟩ := hr
    exact ⟨fun _ => .stay _, fun _ _ => ite_segments (fun _ _ => .stay _) fun _ => trivial⟩
  | setMinimumFee =>
    refine atomic_segments fun s' l h x => ?_
    simp only [setMinimumFee, bind_eq_ok, pure_eq_ok, ok.injEq, Prod.mk.injEq] at h
    obtain ⟨_, -, rfl, -⟩ := h
    exact .stay _
  | resetRateLimitAmount =>
    refine atomic_segments fun s' l h x => ?_
    simp only [L2.resetRateLimitAmount, bind_eq_ok, pure_eq_ok, ok.injEq, Prod.mk.injEq] at h
    obtain ⟨_, -, rfl, -⟩ := h
    exact .stay _
  | resetAmountUsedInPeriod =>
    refine atomic_segments fun s' l h x => ?_
    simp only [L2.resetAmountUsedInPeriod, bind_eq_ok, pure_eq_ok, ok.injEq, Prod.mk.injEq] at h
    obtain ⟨_, -, rfl, -⟩ := h
    exact .stay _

end Lineth.Messaging
