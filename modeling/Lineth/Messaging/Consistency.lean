import Lineth.Messaging.Anchoring
import Lineth.Rollup.Contract

/-!
# L1 to L2 messaging

Each step of the world is a run of calls on L1 or on L2. On L1 the rolling hash of message `n` folds the hashes of the
first `n` messages (`OutboxInv`); on L2 the inbox is `InboxInv`. Finalization compares the two rolling hashes under
the number that L2 reached, and then both chains have seen the same messages in the same order. -/

namespace Lineth.Messaging

open Evm Contract Rollup Except List

/-! ### Messages sent from L1 -/

/-- The hashes of the messages sent, in order: every caller of `_addRollingHash` emits `RollingHashUpdated`. -/
def sentHashes (l : List Log) : List Word :=
  l.filterMap fun x => match x with
    | .rollingHashUpdated _ _ messageHash => some messageHash
    | _ => none

@[simp] theorem sentHashes_append (l l' : List Log) : sentHashes (l ++ l') = sentHashes l ++ sentHashes l' :=
  filterMap_append

/-- The contract's rolling hashes are the folds over the messages sent. -/
structure OutboxInv (keccak : List Byte → Word) (s : L1) (l : List Log) : Prop where
  next : s.nextMessageNumber.toNat = (sentHashes l).length + 1
  rollingHash : ∀ n : Word, n.toNat ≤ (sentHashes l).length →
    s.rollingHashes n = ((sentHashes l).take n.toNat).foldl (efficientKeccak keccak) 0
  unset : ∀ n : Word, (sentHashes l).length < n.toNat → s.rollingHashes n = 0

variable {P : Primitives} {G : GatewayConfig} {direct : Prop} {s s' : L1} {l t : List Log}

theorem step_outbox (h : Step P G direct s l s') : (∃ hash, Sends P.keccak hash s l s') ∨
    (s'.nextMessageNumber = s.nextMessageNumber ∧ s'.rollingHashes = s.rollingHashes ∧ sentHashes l = []) := by
  cases h with
  | send hash h => exact .inl ⟨hash, h⟩
  | consume n _ hcore => exact .inr ⟨congrArg Core.nextMessageNumber hcore, congrArg Core.rollingHashes hcore, rfl⟩
  | finalize f h =>
    obtain ⟨blocks, rfl⟩ := h.logs
    rw [h.state]
    exact .inr ⟨rfl, rfl, by simp [sentHashes, filterMap_map]⟩
  | register d r _ h =>
    obtain ⟨_, rfl⟩ := h.state
    obtain ⟨_, _, rfl⟩ := h.logs
    exact .inr ⟨rfl, rfl, rfl⟩
  | submit e h =>
    obtain ⟨_, _, _, -, ⟨-, -, ⟨_, rfl⟩, ⟨_, _, rfl⟩⟩, rfl⟩ := h.registers
    exact .inr ⟨rfl, rfl, rfl⟩
  | other hcore hlogs =>
    refine .inr ⟨congrArg Core.nextMessageNumber hcore, congrArg Core.rollingHashes hcore, ?_⟩
    refine filterMap_eq_nil_iff.2 fun x hx => ?_
    have := hlogs x hx
    cases x <;> simp [Log.Unrelated] at this ⊢

theorem OutboxInv.send {hash : Word} (hs : OutboxInv P.keccak s t) (h : Sends P.keccak hash s l s') :
    OutboxInv P.keccak s' (t ++ l) := by
  obtain ⟨hlt, rfl, _, rfl⟩ := h
  have hsent : sentHashes (t ++ [Log.rollingHashUpdated s.nextMessageNumber
      (efficientKeccak P.keccak (s.rollingHashes (s.nextMessageNumber - 1)) hash) hash, .messageSent ‹Message› hash]) =
      sentHashes t ++ [hash] := by
    rw [sentHashes_append]; rfl
  have hlast : s.rollingHashes (s.nextMessageNumber - 1) = (sentHashes t).foldl (efficientKeccak P.keccak) 0 := by
    have hprev : (s.nextMessageNumber - 1).toNat = (sentHashes t).length := by
      have := hs.next
      have h1 : (1 : Word).toNat = 1 := rfl
      bv_omega
    rw [hs.rollingHash _ hprev.le, hprev, take_length]
  refine ⟨?_, fun n hn => ?_, fun n hn => ?_⟩ <;> rw [hsent] at *
  · rw [toNat_add_one hlt, hs.next, length_append, length_singleton]
  · rw [length_append, length_singleton] at hn
    rcases Nat.lt_or_ge (sentHashes t).length n.toNat with hgt | hle
    · -- the message just sent
      have hnext : n = s.nextMessageNumber := BitVec.eq_of_toNat_eq (by rw [hs.next]; omega)
      rw [hnext, hs.next, ← length_singleton (a := hash), ← length_append, take_length, foldl_concat,
        ← hlast]
      exact Function.update_self ..
    · have hne : n ≠ s.nextMessageNumber := fun e => by rw [e, hs.next] at hle; omega
      rw [take_append_of_le_length hle, ← hs.rollingHash n hle]
      exact Function.update_of_ne hne _ _
  · rw [length_append, length_singleton] at hn
    have hne : n ≠ s.nextMessageNumber := fun e => by rw [e, hs.next] at hn; omega
    rw [← hs.unset n (by omega)]
    exact Function.update_of_ne hne _ _

theorem OutboxInv.step (hs : OutboxInv P.keccak s t) (h : Step P G direct s l s') : OutboxInv P.keccak s' (t ++ l) := by
  rcases step_outbox h with ⟨_, hsend⟩ | ⟨hnext, hrolling, hlogs⟩
  · exact hs.send hsend
  · obtain ⟨h1, h2, h3⟩ := hs
    refine ⟨?_, ?_, ?_⟩ <;> rw [sentHashes_append, hlogs, append_nil]
    · rw [hnext]; exact h1
    · rw [hrolling]; exact h2
    · rw [hrolling]; exact h3

theorem OutboxInv.init {ctx : Ctx} {d : InitializationData} (h : linethRollupInit P.keccak ctx d = .ok s) :
    OutboxInv P.keccak s [] := by
  obtain ⟨_, rfl⟩ := linethRollupInit_eq_ok h
  exact ⟨rfl, fun n _ => by simp [sentHashes, L1.initial], fun n _ => rfl⟩

/-! ### Both chains -/

structure World where
  l1 : L1
  l1Trace : List (Entry Action Log)
  l2 : L2
  l2Trace : List (Entry L2Action L2Log)

inductive ChainStep where
  | l1 (calls : Calls Action)
  | l2 (calls : Calls L2Action)

variable (P G)

def World.step (w : World) : ChainStep → World
  | .l1 calls =>
    let r := calls.exec (code P G) w.l1
    { w with l1 := r.1, l1Trace := w.l1Trace ++ r.2 }
  | .l2 calls =>
    let r := calls.exec (l2Code P.keccak) w.l2
    { w with l2 := r.1, l2Trace := w.l2Trace ++ r.2 }

def World.run (w : World) (steps : List ChainStep) : World := steps.foldl (World.step P G) w

/-- The world after both services were initialized. -/
structure World.Fresh (w : World) : Prop where
  l1 : ∃ ctx d, linethRollupInit P.keccak ctx d = .ok w.l1
  l2 : ∃ period amount timestamp, l2MessageServiceInit period amount timestamp = .ok w.l2
  l1Trace : w.l1Trace = []
  l2Trace : w.l2Trace = []

variable {P G} {w : World}

theorem World.run_outbox (steps : List ChainStep) (hw : OutboxInv P.keccak w.l1 (events w.l1Trace)) :
    OutboxInv P.keccak (w.run P G steps).l1 (events (w.run P G steps).l1Trace) := by
  induction steps generalizing w with
  | nil => exact hw
  | cons step steps ih =>
    refine ih ?_
    cases step with
    | l1 calls =>
      rw [World.step, events_append]
      exact Steps.invariant OutboxInv.step (run_steps calls w.l1) hw
    | l2 calls => exact hw

theorem World.run_inbox (steps : List ChainStep) :
    ∃ t, (w.run P G steps).l2Trace = w.l2Trace ++ t ∧ InboxRel P.keccak w.l2 t (w.run P G steps).l2 := by
  induction steps generalizing w with
  | nil => exact ⟨[], (append_nil _).symm, inboxRel_compositional.refl _⟩
  | cons step steps ih =>
    obtain ⟨t, ht, hrel⟩ := ih (w := w.step P G step)
    cases step with
    | l1 calls => exact ⟨t, ht, hrel⟩
    | l2 calls =>
      refine ⟨_ ++ t, by rw [← append_assoc]; exact ht, ?_⟩
      exact inboxRel_compositional.trans (calls.exec_rel inboxRel_compositional l2Code_rel w.l2) hrel

theorem InboxInv.init {l2 : L2} {period amount timestamp : Word}
    (h : l2MessageServiceInit period amount timestamp = .ok l2) : InboxInv P.keccak l2 [] := by
  simp only [l2MessageServiceInit, bind_eq_ok, throw_eq_error, pure_eq_ok, error_bind,
    ite_error_eq_ok, ok.injEq] at h
  obtain ⟨-, -, _, -, rfl⟩ := h
  exact ⟨rfl, rfl, fun h => absurd rfl h, fun h => by simp [anchoredHashes, L2.initial]⟩

/-- The strings hashed for the rolling hashes over these message hashes. -/
def rollingPreimages (keccak : List Byte → Word) (hashes : List Word) : Set (List Byte) :=
  {x | ∃ p ∈ RollingHash.inputs (efficientKeccak keccak) 0 hashes, words [p.1, p.2] = x}

/-- Rolling hashes of the same number of messages agree only for the same messages. -/
theorem eq_of_rollingHash_eq {keccak : List Byte → Word} {us vs : List Word}
    (hinj : Set.InjOn keccak (rollingPreimages keccak us ∪ rollingPreimages keccak vs)) (hlen : us.length = vs.length)
    (h : us.foldl (efficientKeccak keccak) 0 = vs.foldl (efficientKeccak keccak) 0) : us = vs := by
  refine (RollingHash.foldl_injOn_start
    (Q := {p | words [p.1, p.2] ∈ rollingPreimages keccak us ∪ rollingPreimages keccak vs}) ?_
    (fun p hp => .inl ⟨p, hp, rfl⟩) (fun p hp => .inr ⟨p, hp, rfl⟩) hlen h).2
  intro p hp q hq heq
  exact efficientKeccak_input_injective (hinj hp hq heq)

theorem rollingPreimages_take (keccak : List Byte → Word) (hashes : List Word) (n : Nat) :
    rollingPreimages keccak (hashes.take n) ⊆ rollingPreimages keccak hashes := by
  rintro x ⟨p, hp, rfl⟩
  refine ⟨p, ?_, rfl⟩
  rw [← take_append_drop n hashes, RollingHash.inputs_append]
  exact mem_append_left _ hp

/-- When L2's last rolling hash is the one L1 has under the same number, L2 anchored the first messages of L1. -/
theorem anchored_eq_sent {s : L1} {l : List Log} {s₂ : L2} {t : List (Entry L2Action L2Log)}
    (hout : OutboxInv P.keccak s l) (hin : InboxInv P.keccak s₂ t)
    (hinj : Set.InjOn P.keccak
      (rollingPreimages P.keccak (distinct (anchoredHashes t)) ∪ rollingPreimages P.keccak (sentHashes l)))
    (h : s₂.l1RollingHashes s₂.lastAnchoredL1MessageNumber = s.rollingHashes s₂.lastAnchoredL1MessageNumber) :
    distinct (anchoredHashes t) = (sentHashes l).take s₂.lastAnchoredL1MessageNumber.toNat := by
  set n := s₂.lastAnchoredL1MessageNumber with hn
  have hle : n.toNat ≤ (sentHashes l).length := by
    -- L1's slot above the last message sent is zero, L2's is not
    by_contra hgt
    have hne : n ≠ 0 := by
      rintro h0
      rw [h0] at hgt
      exact hgt (Nat.zero_le _)
    exact hin.rollingHash_ne hne (h.trans (hout.unset n (by omega)))
  rw [hin.rollingHash, hout.rollingHash n hle] at h
  refine eq_of_rollingHash_eq (hinj.mono ?_) ?_ h
  · exact Set.union_subset_union_right _ (rollingPreimages_take ..)
  · rw [← hin.number, length_take, Nat.min_eq_left hle]

/-- For every run of calls on both chains: the inbox counts the distinct hashes anchored and its rolling hash folds
them; where that is L1's rolling hash, the hashes anchored are the first ones L1 sent; and each message is claimed at
most once. -/
theorem l1L2_messaging_consistent (hw : w.Fresh P) (steps : List ChainStep) :
    let w' := w.run P G steps
    let sent := sentHashes (events w'.l1Trace)
    let anchored := distinct (anchoredHashes w'.l2Trace)
    let n := w'.l2.lastAnchoredL1MessageNumber
    n.toNat = (anchoredHashes w'.l2Trace).toFinset.card ∧
    w'.l2.l1RollingHashes n = anchored.foldl (efficientKeccak P.keccak) 0 ∧
    (Set.InjOn P.keccak (rollingPreimages P.keccak anchored ∪ rollingPreimages P.keccak sent) →
      w'.l2.l1RollingHashes n = w'.l1.rollingHashes n → anchored = sent.take n.toNat) ∧
    (∀ h, w'.l2.inboxL1L2MessageStatus h = .unknown ↔ h ∉ anchored) ∧
    (∀ more h, (w'.l2.inboxL1L2MessageStatus h).value ≤ ((w'.run P G more).l2.inboxL1L2MessageStatus h).value) ∧
    (∀ a s, (l2Code P.keccak a s).Segments (fun s _ s' => ∀ h,
      StatusMove (s.inboxL1L2MessageStatus h) (s'.inboxL1L2MessageStatus h)) s) ∧
    ∀ h, claimCount P.keccak h w'.l2Trace ≤ 1 ∧
      (claimCount P.keccak h w'.l2Trace = 1 → w'.l2.inboxL1L2MessageStatus h = .claimed) := by
  intro w' sent anchored n
  obtain ⟨⟨_, _, h1⟩, ⟨_, _, _, h2⟩, h1t, h2t⟩ := hw
  have hout : OutboxInv P.keccak w'.l1 (events w'.l1Trace) :=
    World.run_outbox steps (by rw [h1t]; exact .init h1)
  obtain ⟨t, ht, hrel⟩ := World.run_inbox (P := P) (G := G) (w := w) steps
  rw [h2t, nil_append] at ht
  have hin : InboxInv P.keccak w'.l2 w'.l2Trace := by
    rw [show w'.l2Trace = [] ++ t from ht]
    exact hrel.inv [] (.init h2)
  refine ⟨?_, hin.rollingHash, anchored_eq_sent hout hin, fun h => ?_, fun more h => ?_, l2Code_moves, fun h => ?_⟩
  · rw [← length_distinct]; exact hin.number
  · rw [hin.unknown, mem_distinct]
  · obtain ⟨_, -, hmore⟩ := World.run_inbox (P := P) (G := G) (w := w') more
    exact hmore.value_le h
  · rw [show w'.l2Trace = t from ht]
    exact ⟨(hrel.claims h).1, fun h1 => ((hrel.claims h).2 h1).2⟩

def World.sample : World := ⟨.initial sampleKeccak 100 .sample 1100, [], .initial 1 1 2, []⟩

def sampleMessage : Message := ⟨1, 2, 0, 0, 1, []⟩

def sampleSteps : List ChainStep :=
  let h := hashMessage sampleKeccak sampleMessage
  [.l1 (.cons (.mk ⟨.sample, .sendMessage 2 0 []⟩ .nil) .nil),
    .l2 (.cons (.mk ⟨.sample, .anchorL1L2MessageHashes [h, h] 1 1 (efficientKeccak sampleKeccak 0 h)⟩ .nil) .nil),
    .l2 (.cons (.mk ⟨.sample, .claimMessage sampleMessage 0⟩ (.cons .nil true .nil)) .nil)]

theorem l1L2_messaging_consistent_sample :
    let w := World.run .sample .sample .sample sampleSteps
    claimCount sampleKeccak (hashMessage sampleKeccak sampleMessage) w.l2Trace = 1 ∧
    distinct (anchoredHashes w.l2Trace) =
      (sentHashes (events w.l1Trace)).take w.l2.lastAnchoredL1MessageNumber.toNat := by
  have hw : World.sample.Fresh .sample := ⟨⟨.sample, .sample, rfl⟩, ⟨1, 1, 1, rfl⟩, rfl, rfl⟩
  obtain ⟨-, -, hkey, -⟩ := l1L2_messaging_consistent (G := .sample) hw sampleSteps
  refine ⟨by decide +kernel, hkey ?_ (by decide +kernel)⟩
  have hsent : sentHashes (events (World.run .sample .sample .sample sampleSteps).l1Trace) =
    [hashMessage sampleKeccak sampleMessage] := by decide +kernel
  have hanchored : distinct (anchoredHashes (World.run .sample .sample .sample sampleSteps).l2Trace) =
    [hashMessage sampleKeccak sampleMessage] := by decide +kernel
  rw [hsent, hanchored, Set.union_self]
  rintro x ⟨p, hp, rfl⟩ y ⟨q, hq, rfl⟩ -
  rw [mem_singleton.1 hp, mem_singleton.1 hq]

end Lineth.Messaging
