import Lineth.Rollup.Contract
import Mathlib.Data.List.Nodup

/-!
# Claiming L2 messages on L1

Over every run of the L1 contracts, with recipients calling back as they like: a message number is consumed by one
claim (`ClaimRel`), a claim that returns has proved its message to be a leaf of an anchored tree (`Proves`), and the
depth of an anchored root stays. -/

namespace Lineth.Rollup

open Evm Messaging Contract Except List

/-! ### What a run claimed and anchored -/

def claims (t : List (Entry Action Log)) : List ClaimMessageWithProofParams :=
  t.filterMap fun e => match e with
    | .returned ⟨_, .claimMessageWithProof p⟩ => some p
    | .returned ⟨_, .claimMessageWithProofAndWithdrawLST p⟩ => some p
    | _ => none

/-- The roots anchored, with the depths they were anchored with. -/
def addedRoots (l : List Log) : List (Word × Word) :=
  l.filterMap fun x => match x with
    | .l2MerkleRootAdded root depth => some (root, depth)
    | _ => none

@[simp] theorem claims_append (t u : List (Entry Action Log)) : claims (t ++ u) = claims t ++ claims u :=
  filterMap_append

@[simp] theorem claims_events (l : List Log) : claims (l.map .event) = [] := by
  simp [claims, filterMap_map]

@[simp] theorem addedRoots_append (l l' : List Log) : addedRoots (l ++ l') = addedRoots l ++ addedRoots l' :=
  filterMap_append

/-! ### Proofs -/

/-- `p` leads from its message, at an index in range, to a root anchored in `s` with the depth of the proof. -/
structure Proves (keccak : List Byte → Word) (p : ClaimMessageWithProofParams) (s : L1) : Prop where
  anchored : s.l2MerkleRootsDepths p.merkleRoot ≠ 0
  depth : (s.l2MerkleRootsDepths p.merkleRoot).toNat = p.proof.length
  leafIndex_lt : p.leafIndex.toNat < 2 ^ p.proof.length
  climb : Merkle.climb (efficientKeccak keccak) p.leafIndex.toNat (hashMessage keccak p.message) p.proof = p.merkleRoot

/-- The strings hashed on the way up from a leaf. -/
def pathPreimages (keccak : List Byte → Word) (i : Nat) (leaf : Word) (proof : List Word) : Set (List Byte) :=
  {x | ∃ q ∈ Merkle.climbPairs (efficientKeccak keccak) i leaf proof, words [q.1, q.2] = x}

/-- The message of `p` is the leaf at its index in every tree of the proof's depth with the claimed root, and no
other message is; the strings hashed on the two paths and for the two messages must not collide. -/
def LeafOf (keccak : List Byte → Word) (p : ClaimMessageWithProofParams) : Prop :=
  ∀ leaf : Nat → Word, Merkle.nodeAt (efficientKeccak keccak) leaf p.proof.length 0 = p.merkleRoot →
    let i := p.leafIndex.toNat
    Set.InjOn keccak (pathPreimages keccak i (hashMessage keccak p.message) p.proof ∪ pathPreimages keccak i (leaf i)
      (Merkle.siblings (efficientKeccak keccak) leaf 0 p.proof.length i)) →
    leaf i = hashMessage keccak p.message ∧ ∀ m : Message, leaf i = hashMessage keccak m →
      Set.InjOn keccak {m.encode, p.message.encode} → m = p.message

variable {keccak : List Byte → Word} {p : ClaimMessageWithProofParams} {s s' s'' : L1}

theorem leaf_eq_of_climb_eq {Q : Set (List Byte)} (hQ : Set.InjOn keccak Q) {i : Nat} {x y : Word} {ss ts : List Word}
    (hlen : ss.length = ts.length) (hs : pathPreimages keccak i x ss ⊆ Q) (ht : pathPreimages keccak i y ts ⊆ Q)
    (h : Merkle.climb (efficientKeccak keccak) i x ss = Merkle.climb (efficientKeccak keccak) i y ts) : x = y := by
  refine (Merkle.climb_injOn (Q := {q | words [q.1, q.2] ∈ Q}) ?_ hlen (fun q hq => hs ⟨q, hq, rfl⟩)
    (fun q hq => ht ⟨q, hq, rfl⟩) h).1
  exact fun q hq r hr hqr => efficientKeccak_input_injective (hQ hq hr hqr)

theorem Proves.leafOf (h : Proves keccak p s) : LeafOf keccak p := by
  intro leaf hroot i hinj
  have htop := Merkle.climb_siblings (efficientKeccak keccak) leaf 0 p.proof.length i
  rw [Nat.div_eq_of_lt h.leafIndex_lt, Nat.zero_add, hroot, ← h.climb] at htop
  have hleaf : leaf i = hashMessage keccak p.message :=
    leaf_eq_of_climb_eq hinj (Merkle.siblings_length ..) Set.subset_union_right Set.subset_union_left htop
  refine ⟨hleaf, fun m hm hcollision => ?_⟩
  rw [hleaf] at hm
  exact Message.encode_injective (hcollision (by simp) (by simp) hm.symm)

/-! ### Every run -/

/-- How a run with trace `t` claims and anchors. -/
structure ClaimRel (keccak : List Byte → Word) (s : L1) (t : List (Entry Action Log)) (s' : L1) : Prop where
  claimed : ∀ n, s.messageClaimedBitMap n = true → s'.messageClaimedBitMap n = true
  depths : ∀ r, s'.l2MerkleRootsDepths r = s.l2MerkleRootsDepths r ∨
    s.l2MerkleRootsDepths r = 0 ∧ (r, s'.l2MerkleRootsDepths r) ∈ addedRoots (events t)
  added : ∀ x ∈ addedRoots (events t), x.2 ≠ 0 → s'.l2MerkleRootsDepths x.1 = x.2
  claims : ∀ p ∈ claims t, s.messageClaimedBitMap p.messageNumber = false ∧
    s'.messageClaimedBitMap p.messageNumber = true ∧ Proves keccak p s'
  nodup : ((Rollup.claims t).map (·.messageNumber)).Nodup

variable {t : List (Entry Action Log)}

theorem ClaimRel.depth_eq (h : ClaimRel keccak s t s') {r : Word}
    (hr : s.l2MerkleRootsDepths r ≠ 0) : s'.l2MerkleRootsDepths r = s.l2MerkleRootsDepths r := by
  rcases h.depths r with heq | ⟨h0, -⟩
  · exact heq
  · exact absurd h0 hr

theorem ClaimRel.proves (h : ClaimRel keccak s t s') (hp : Proves keccak p s) :
    Proves keccak p s' := by
  have hdepth := h.depth_eq hp.anchored
  exact ⟨hdepth ▸ hp.anchored, hdepth ▸ hp.depth, hp.leafIndex_lt, hp.climb⟩

theorem ClaimRel.quiet (hclaimed : ∀ n, s.messageClaimedBitMap n = true →
    s'.messageClaimedBitMap n = true) (hdepths : s'.l2MerkleRootsDepths = s.l2MerkleRootsDepths)
    (hclaims : Rollup.claims t = []) (hroots : addedRoots (events t) = []) : ClaimRel keccak s t s' where
  claimed := hclaimed
  depths r := .inl (by rw [hdepths])
  added x hx := by simp [hroots] at hx
  claims p hp := by simp [hclaims] at hp
  nodup := by simp [hclaims]

theorem ClaimRel.of_core (h : s'.core = s.core) : ClaimRel keccak s [] s' :=
  .quiet (fun n hn => by rw [← hn]; exact congrFun (congrArg Core.messageClaimedBitMap h) n)
    (congrArg Core.l2MerkleRootsDepths h) rfl rfl

theorem claimRel_compositional : Compositional (ClaimRel keccak) where
  refl s := .of_core rfl
  trans {s t s' u s''} h h' := by
    refine ⟨fun n hn => h'.claimed n (h.claimed n hn), fun r => ?_, fun x hx hne => ?_, fun p hp => ?_, ?_⟩
    · rw [events_append, addedRoots_append, mem_append]
      rcases h.depths r with heq | ⟨h0, hin⟩ <;> rcases h'.depths r with heq' | ⟨h0', hin'⟩
      · exact .inl (heq'.trans heq)
      · exact .inr ⟨heq ▸ h0', .inr hin'⟩
      · exact .inr ⟨h0, .inl (heq' ▸ hin)⟩
      · exact .inr ⟨h0, .inr hin'⟩
    · rw [events_append, addedRoots_append, mem_append] at hx
      rcases hx with hx | hx
      · have hdepth := h.added x hx hne
        rw [h'.depth_eq (by rw [hdepth]; exact hne), hdepth]
      · exact h'.added x hx hne
    · rw [claims_append, mem_append] at hp
      rcases hp with hp | hp
      · obtain ⟨hfalse, htrue, hproves⟩ := h.claims p hp
        exact ⟨hfalse, h'.claimed _ htrue, h'.proves hproves⟩
      · obtain ⟨hfalse, htrue, hproves⟩ := h'.claims p hp
        refine ⟨Bool.eq_false_iff.2 fun hn => ?_, htrue, hproves⟩
        exact Bool.false_ne_true (hfalse.symm.trans (h.claimed _ hn))
    · -- what `t` claimed is set in between, what `u` claims is not
      rw [claims_append, map_append, nodup_append]
      refine ⟨h.nodup, h'.nodup, fun a ha b hb hab => ?_⟩
      obtain ⟨p, hp, rfl⟩ := mem_map.1 ha
      obtain ⟨q, hq, rfl⟩ := mem_map.1 hb
      have hset := (h.claims p hp).2.1
      rw [hab, (h'.claims q hq).1] at hset
      exact Bool.false_ne_true hset

variable {P : Primitives} {G : GatewayConfig} {direct : Prop} {l : List Log}

theorem Finalizes.claimRel {f : Finalization} (h : Finalizes keccak f s l s') :
    ClaimRel keccak s (l.map .event) s' := by
  obtain ⟨blocks, hl⟩ := h.logs
  have hroots : addedRoots l = f.l2MerkleRoots.map fun r => (r, f.data.l2MerkleTreesDepth) := by
    rw [hl]
    simp [addedRoots, filterMap_map]
  have hnew := h.newRoots
  rw [h.state]
  refine ⟨fun n hn => hn, fun r => ?_, fun x hx _ => ?_, by simp, by simp⟩
  · rw [events_map, hroots]
    by_cases hr : r ∈ f.l2MerkleRoots
    · exact .inr ⟨hnew r hr, by simp [hr]⟩
    · exact .inl (if_neg hr)
  · rw [events_map, hroots] at hx
    obtain ⟨r, hr, rfl⟩ := mem_map.1 hx
    exact if_pos hr

theorem Step.claimRel (h : Step P G direct s l s') : ClaimRel P.keccak s (l.map .event) s' := by
  cases h with
  | send _ h =>
    obtain ⟨-, rfl, _, rfl⟩ := h
    exact .quiet (fun n hn => hn) rfl (claims_events _) (by rw [events_map]; rfl)
  | consume n _ hcore =>
    refine .quiet (fun m hm => ?_) (congrArg Core.l2MerkleRootsDepths hcore) rfl rfl
    have hset : s'.messageClaimedBitMap = _ := congrArg Core.messageClaimedBitMap hcore
    rw [hset]
    by_cases hmn : m = n
    · simp [hmn]
    · simpa [hmn] using hm
  | finalize f h => exact h.claimRel
  | register _ _ _ h =>
    obtain ⟨-, -, ⟨_, rfl⟩, ⟨_, _, rfl⟩⟩ := h
    exact .quiet (fun n hn => hn) rfl (claims_events _) (by rw [events_map]; rfl)
  | submit _ h =>
    obtain ⟨-, _, _, _, -, ⟨-, -, ⟨_, rfl⟩, ⟨_, _, rfl⟩⟩, rfl⟩ := h
    exact .quiet (fun n hn => hn) rfl (claims_events _) (by rw [events_map]; rfl)
  | other hcore hlogs =>
    have hrel : ClaimRel P.keccak s [] s' := .of_core hcore
    refine .quiet hrel.claimed (congrArg Core.l2MerkleRootsDepths hcore) (claims_events _) ?_
    rw [events_map]
    refine filterMap_eq_nil_iff.2 fun x hx => ?_
    have := hlogs x hx
    cases x <;> simp [Log.Unrelated] at this ⊢

/-- A claim: the number is consumed before control is handed over, so no call made meanwhile can claim it. -/
theorem ClaimRel.claim {a : Action} {s₁ s₂ s₃ : L1} {leaf : Word}
    (ha : Rollup.claims [.returned a] = [p]) (hc : Consumes keccak p { s with reentrancyGuardEntered := true } s₁ leaf)
    (hs₁ : s₂.core = s₁.core) (hrun : ClaimRel keccak s₂ t s₃) : ClaimRel keccak s (t ++ [.returned a]) s₃ := by
  obtain ⟨_, rfl⟩ := hc.state
  have hbitmap : s₂.messageClaimedBitMap = Function.update s.messageClaimedBitMap p.messageNumber true :=
    congrArg Core.messageClaimedBitMap hs₁
  have hdepths : s₂.l2MerkleRootsDepths = s.l2MerkleRootsDepths := congrArg Core.l2MerkleRootsDepths hs₁
  have hset : s₂.messageClaimedBitMap p.messageNumber = true := by rw [hbitmap]; exact Function.update_self ..
  have hproves : Proves keccak p s₂ :=
    ⟨hdepths ▸ hc.depth_ne, hdepths ▸ hc.depth, hc.leafIndex_lt, hc.climb⟩
  have hevents : events (t ++ [.returned a]) = events t := by rw [events_append, events_returned, append_nil]
  have hunset : ∀ n, s₂.messageClaimedBitMap n = false → n ≠ p.messageNumber ∧ s.messageClaimedBitMap n = false := by
    intro n hn
    have hne : n ≠ p.messageNumber := fun e => Bool.false_ne_true (hn.symm.trans (e ▸ hset))
    rw [hbitmap, Function.update_of_ne hne] at hn
    exact ⟨hne, hn⟩
  refine ⟨fun n hn => hrun.claimed n (Bool.not_eq_false _ ▸ fun h => ?_), ?_, ?_, fun q hq => ?_, ?_⟩
  · exact Bool.false_ne_true ((hunset n h).2.symm.trans hn)
  · rw [hevents, ← hdepths]; exact hrun.depths
  · rw [hevents]; exact hrun.added
  · rw [claims_append, ha, mem_append, mem_singleton] at hq
    rcases hq with hq | rfl
    · obtain ⟨hfalse, hrest⟩ := hrun.claims q hq
      exact ⟨(hunset _ hfalse).2, hrest⟩
    · exact ⟨hc.unclaimed, hrun.claimed _ hset, hrun.proves hproves⟩
  · rw [claims_append, ha, map_append, nodup_append]
    refine ⟨hrun.nodup, nodup_singleton _, fun x hx y hy hxy => ?_⟩
    obtain ⟨q, hq, rfl⟩ := mem_map.1 hx
    rw [map_singleton, mem_singleton] at hy
    exact (hunset _ (hrun.claims q hq).1).1 (hxy.trans hy)

theorem claimMessageWithProof_rel (ctx : Ctx) (p : ClaimMessageWithProofParams) (s : L1) :
    (claimMessageWithProof keccak ctx p s).Sat (ClaimRel keccak) ⟨ctx, .claimMessageWithProof p⟩ s [] := by
  refine Prog.attempt_sat fun s₁ h₁ => Prog.attempt_sat fun ⟨s₂, leaf⟩ h₂ => ?_
  obtain ⟨-, rfl⟩ := enterNonReentrant_eq_ok h₁
  have hc := validateAndConsumeMessageProof_consumes h₂
  refine ⟨fun u s' hu => ?_, trivial⟩
  refine distributeFees_sat claimRel_compositional fun v s'' hv => ?_
  have hevent : ClaimRel keccak s' ([Log.messageClaimed leaf].map .event) { s' with messageSender := 0 } :=
    .quiet (fun n hn => hn) rfl rfl rfl
  have hleave : ClaimRel keccak s'' [] (leaveNonReentrant s'') := .of_core rfl
  have hrun := claimRel_compositional.trans (claimRel_compositional.trans (claimRel_compositional.trans hu hevent) hv)
    hleave
  have hclaim := ClaimRel.claim (a := ⟨ctx, .claimMessageWithProof p⟩) rfl hc (by exact rfl) hrun
  simpa using hclaim

theorem claimMessageWithProofAndWithdrawLST_rel (ctx : Ctx) (p : ClaimMessageWithProofParams) (s : L1) :
    (claimMessageWithProofAndWithdrawLST keccak ctx p s).Sat (ClaimRel keccak)
      ⟨ctx, .claimMessageWithProofAndWithdrawLST p⟩ s [] := by
  refine Prog.attempt_sat fun s₁ h₁ => Prog.attempt_sat fun ⟨s₂, leaf⟩ h₂ => ?_
  obtain ⟨-, rfl⟩ := enterNonReentrant_eq_ok h₁
  simp only [throw_eq_error, error_bind, ite_error_eq_ok] at h₂
  have hc := validateAndConsumeMessageProof_consumes h₂.2.2
  refine ⟨fun u s' hu => ?_, trivial⟩
  have hevent : ClaimRel keccak s' ([Log.messageClaimed leaf].map .event)
      (leaveNonReentrant { s' with isWithdrawLSTAllowed := false }) := .quiet (fun n hn => hn) rfl rfl rfl
  have hclaim := ClaimRel.claim (a := ⟨ctx, .claimMessageWithProofAndWithdrawLST p⟩) rfl hc (by exact rfl)
    (claimRel_compositional.trans hu hevent)
  simpa [Prog.Sat] using hclaim

theorem code_claimRel (a : Action) (s : L1) : (code P G a s).Sat (ClaimRel P.keccak) a s [] := by
  have hquiet : Rollup.claims [.returned a] = [] → (code P G a s).Sat (ClaimRel P.keccak) a s [] := fun ha =>
    (code_segments a s).sat claimRel_compositional Step.claimRel (fun s => .quiet (fun n hn => hn) rfl ha rfl)
      (claimRel_compositional.refl s)
  obtain ⟨ctx, e⟩ := a
  cases e with
  | claimMessageWithProof p => exact claimMessageWithProof_rel ctx p s
  | claimMessageWithProofAndWithdrawLST p => exact claimMessageWithProofAndWithdrawLST_rel ctx p s
  | _ => exact hquiet rfl

/-- Whatever is called meanwhile, a claim returns only if its number was not consumed and its proof is right in the
state it was called in. -/
theorem claim_returns {a : Action} (ha : Rollup.claims [.returned a] = [p]) {replies : Replies Action}
    {r : L1 × List (Entry Action Log)} (h : replies.exec (code P G) (code P G a s) = some r) :
    s.messageClaimedBitMap p.messageNumber = false ∧ Proves P.keccak p s := by
  obtain ⟨ctx, e⟩ := a
  have hconsumes : ∃ s' leaf, Consumes P.keccak p { s with reentrancyGuardEntered := true } s' leaf := by
    cases e with
    | claimMessageWithProof q =>
      obtain rfl : q = p := by simpa [Rollup.claims] using ha
      obtain ⟨s₁, h₁, h⟩ := Replies.exec_attempt h
      obtain ⟨⟨s₂, leaf⟩, h₂, -⟩ := Replies.exec_attempt h
      obtain ⟨-, rfl⟩ := enterNonReentrant_eq_ok h₁
      exact ⟨s₂, leaf, validateAndConsumeMessageProof_consumes h₂⟩
    | claimMessageWithProofAndWithdrawLST q =>
      obtain rfl : q = p := by simpa [Rollup.claims] using ha
      obtain ⟨s₁, h₁, h⟩ := Replies.exec_attempt h
      obtain ⟨⟨s₂, leaf⟩, h₂, -⟩ := Replies.exec_attempt h
      obtain ⟨-, rfl⟩ := enterNonReentrant_eq_ok h₁
      simp only [throw_eq_error, error_bind, ite_error_eq_ok] at h₂
      exact ⟨s₂, leaf, validateAndConsumeMessageProof_consumes h₂.2.2⟩
    | _ => cases ha
  obtain ⟨_, _, hc⟩ := hconsumes
  exact ⟨hc.unclaimed, hc.depth_ne, hc.depth, hc.leafIndex_lt, hc.climb⟩

/-- In every run from initialization, each message number is consumed by at most one claim that returns; such a claim
proves its message to be a leaf under a root anchored with the depth of the proof; and a root anchored with a non-zero
depth keeps it. -/
theorem l2L1_claims_once_and_authentic {ctx : Ctx} {d : InitializationData}
    (hinit : linethRollupInit P.keccak ctx d = .ok s) (calls : Calls Action) :
    let r := calls.exec (code P G) s
    ((claims r.2).map (·.messageNumber)).Nodup ∧
    (∀ p ∈ claims r.2, Proves P.keccak p r.1 ∧ LeafOf P.keccak p ∧
      (p.merkleRoot, r.1.l2MerkleRootsDepths p.merkleRoot) ∈ addedRoots (events r.2)) ∧
    (∀ a p (replies : Replies Action) s s' t, claims [.returned a] = [p] →
      replies.exec (code P G) (code P G a s) = some (s', t) →
      s.messageClaimedBitMap p.messageNumber = false ∧ Proves P.keccak p s) ∧
    (∀ x ∈ addedRoots (events r.2), x.2 ≠ 0 → r.1.l2MerkleRootsDepths x.1 = x.2) ∧
    ∀ (more : Calls Action) (root : Word), r.1.l2MerkleRootsDepths root ≠ 0 →
      (more.exec (code P G) r.1).1.l2MerkleRootsDepths root = r.1.l2MerkleRootsDepths root := by
  intro r
  have hrel : ClaimRel P.keccak s r.2 r.1 := calls.exec_rel claimRel_compositional code_claimRel s
  obtain ⟨_, rfl⟩ := linethRollupInit_eq_ok hinit
  refine ⟨hrel.nodup, fun p hp => ?_, fun a p replies s s' t ha h => claim_returns ha h, hrel.added,
    fun more root hroot => ?_⟩
  · obtain ⟨-, -, hproves⟩ := hrel.claims p hp
    refine ⟨hproves, hproves.leafOf, ?_⟩
    rcases hrel.depths p.merkleRoot with h0 | ⟨-, hin⟩
    · exact absurd h0 hproves.anchored
    · exact hin
  · exact (more.exec_rel claimRel_compositional code_claimRel r.1).depth_eq hroot

def sampleClaim : ClaimMessageWithProofParams where
  proof := [0]
  messageNumber := 3
  leafIndex := 0
  from_ := 1
  to_ := 2
  fee := 0
  value := 0
  feeRecipient := 0
  merkleRoot := efficientKeccak sampleKeccak (hashMessage sampleKeccak ⟨1, 2, 0, 0, 3, []⟩) 0
  data := []

/-- The tree is finalized and the message claimed; its recipient and then its sender try to claim it again. -/
def sampleClaimCalls : Calls Action :=
  let claim : Action := ⟨.sample, .claimMessageWithProof sampleClaim⟩
  .cons (.mk ⟨.sample, .finalizeBlocks (FinalizationData.sample.calldata (some sampleClaim.merkleRoot))⟩
      (.cons .nil true .nil))
    (.cons (.mk claim (.cons (.cons (.mk claim (.cons .nil true .nil)) .nil) true .nil))
      (.cons (.mk claim (.cons .nil true .nil)) .nil))

theorem l2L1_claims_once_and_authentic_sample :
    let r := sampleClaimCalls.exec (code .sample .sample) (.initial sampleKeccak 100 .sample 1100)
    claims r.2 = [sampleClaim] ∧ Proves sampleKeccak sampleClaim r.1 ∧ LeafOf sampleKeccak sampleClaim := by
  have hinit : linethRollupInit sampleKeccak .sample .sample = .ok (.initial sampleKeccak 100 .sample 1100) := rfl
  have hclaims : claims (sampleClaimCalls.exec (code .sample .sample) (.initial sampleKeccak 100 .sample 1100)).2 =
    [sampleClaim] := by decide +kernel
  obtain ⟨-, hauthentic, -⟩ := l2L1_claims_once_and_authentic (P := .sample) (G := .sample) hinit sampleClaimCalls
  obtain ⟨hproves, hleaf, -⟩ := hauthentic sampleClaim (by rw [hclaims]; exact mem_singleton.2 rfl)
  exact ⟨hclaims, hproves, hleaf⟩

end Lineth.Rollup
