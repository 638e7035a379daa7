import Lineth.Rollup.Contract
import Mathlib.Tactic.IntervalCases

/-!
# Finalizations chain

Every finalization takes over where the one before it stopped. Shnarf, block number and state root are in storage; the
other values come from the caller and are pinned by the stored hash of the finalized state. `ChainInv` relates the
storage to the last finalization of a run. -/

namespace Lineth.Rollup

open Evm Messaging Contract List

/-- What one finalization leaves to the next. -/
@[ext] structure Tip where
  shnarf : Word
  blockNumber : Word
  stateRootHash : Word
  finalizedState : FinalizedState

def InitializationData.genesisTip (keccak : List Byte → Word) (d : InitializationData) : Tip :=
  ⟨genesisShnarf keccak d, d.initialL2BlockNumber, d.initialStateRootHash, genesisFinalizedState d⟩

namespace Finalization

def first (f : Finalization) : Tip :=
  ⟨f.lastFinalizedShnarf, f.lastFinalizedBlockNumber, f.data.parentStateRootHash, f.data.last⟩

def final (f : Finalization) : Tip :=
  ⟨f.finalShnarf, f.data.endBlockNumber, f.data.finalStateRootHash, f.data.final f.finalForcedTransactionRollingHash⟩

end Finalization

def finalizations (l : List Log) : List Finalization :=
  l.filterMap fun x => match x with
    | .proofVerification f => some f
    | _ => none

@[simp] theorem finalizations_append (l l' : List Log) :
    finalizations (l ++ l') = finalizations l ++ finalizations l' :=
  filterMap_append

/-- Where a list of finalizations that started from `tip` stands. -/
def lastTip (tip : Tip) (fs : List Finalization) : Tip := fs.foldl (fun _ f => f.final) tip

def Chained : Tip → List Finalization → Prop
  | _, [] => True
  | tip, f :: fs => f.first = tip ∧ Chained f.final fs

theorem chained_append {tip : Tip} {fs gs : List Finalization} :
    Chained tip (fs ++ gs) ↔ Chained tip fs ∧ Chained (lastTip tip fs) gs := by
  induction fs generalizing tip with
  | nil => simp [Chained, lastTip]
  | cons f fs ih => simp [Chained, lastTip, ih, and_assoc]

/-- The strings hashed for finalized states in a run with these finalizations. -/
def statePreimages (d : InitializationData) (fs : List Finalization) : List (List Byte) :=
  (genesisFinalizedState d).encode ::
    fs.flatMap fun f => [f.data.last.encode, f.data.last.encodeLegacy, f.final.finalizedState.encode]

theorem FinalizedState.encode_injective : Function.Injective FinalizedState.encode := by
  rintro ⟨⟩ ⟨⟩ h
  have := words_injective h
  simp_all

theorem FinalizedState.encode_ne_encodeLegacy (a b : FinalizedState) : a.encode ≠ b.encodeLegacy := by
  intro h
  have := congrArg length h
  simp [encode, encodeLegacy] at this

variable {P : Primitives} {G : GatewayConfig} {direct : Prop} {d : InitializationData} {s s' : L1} {t l : List Log}

theorem mem_statePreimages {fs : List Finalization} {x : List Byte} : x ∈ statePreimages d fs ↔
    x = (genesisFinalizedState d).encode ∨
      ∃ f ∈ fs, x = f.data.last.encode ∨ x = f.data.last.encodeLegacy ∨ x = f.final.finalizedState.encode := by
  simp [statePreimages]

variable (keccak : List Byte → Word)

theorem lastTip_mem (fs : List Finalization) :
    (lastTip (d.genesisTip keccak) fs).finalizedState.encode ∈ statePreimages d fs := by
  rw [mem_statePreimages]
  induction fs using reverseRecOn with
  | nil => exact .inl rfl
  | append_singleton fs f _ =>
    rw [lastTip, foldl_concat]
    exact .inr ⟨f, by simp, .inr (.inr rfl)⟩

theorem statePreimages_append (fs gs : List Finalization) : statePreimages d fs ⊆ statePreimages d (fs ++ gs) := by
  intro x
  rw [mem_statePreimages, mem_statePreimages]
  rintro (hx | ⟨f, hf, hx⟩)
  · exact .inl hx
  · exact .inr ⟨f, mem_append_left gs hf, hx⟩

/-- The storage stands where the finalizations of the run ended. -/
structure ChainInv (keccak : List Byte → Word) (d : InitializationData) (s : L1) (l : List Log) : Prop where
  tip : let tip := lastTip (d.genesisTip keccak) (finalizations l)
    s.currentFinalizedShnarf = tip.shnarf ∧ s.currentL2BlockNumber = tip.blockNumber ∧
      s.stateRootHashes s.currentL2BlockNumber = tip.stateRootHash ∧
      s.currentFinalizedState = computeLastFinalizedState keccak tip.finalizedState
  chained : Set.InjOn keccak {x | x ∈ statePreimages d (finalizations l)} →
    Chained (d.genesisTip keccak) (finalizations l)
  images : ∀ f ∈ finalizations l, f.image = words (f.publicInputs keccak)

theorem ChainInv.finalize {f : Finalization} (hs : ChainInv P.keccak d s t) (h : Finalizes P.keccak f s l s') :
    ChainInv P.keccak d s' (t ++ l) := by
  obtain ⟨blocks, hlogs⟩ := h.logs
  have hfs : finalizations l = [f] := by
    rw [hlogs]
    simp [finalizations, filterMap_map]
  obtain ⟨hshnarf, hblock, hroot, hstate⟩ := hs.tip
  refine ⟨?_, fun hinj => ?_, fun g hg => ?_⟩ <;> rw [finalizations_append, hfs] at *
  · rw [h.state, lastTip, foldl_concat]
    exact ⟨rfl, rfl, Function.update_self .., rfl⟩
  · refine chained_append.2 ⟨hs.chained (hinj.mono (statePreimages_append _ _)), ?_, trivial⟩
    -- the stored hash has a preimage from the finalization before and one from the caller
    have hlast := statePreimages_append (finalizations t) [f] (lastTip_mem (d := d) P.keccak (finalizations t))
    have hfinalized : f.data.last = (lastTip (d.genesisTip P.keccak) (finalizations t)).finalizedState := by
      rcases h.finalizedState with heq | heq <;> rw [hstate] at heq
      · have hmem : f.data.last.encode ∈ statePreimages d (finalizations t ++ [f]) :=
          mem_statePreimages.2 (.inr ⟨f, by simp, .inl rfl⟩)
        exact (FinalizedState.encode_injective (hinj hlast hmem heq)).symm
      · have hmem : f.data.last.encodeLegacy ∈ statePreimages d (finalizations t ++ [f]) :=
          mem_statePreimages.2 (.inr ⟨f, by simp, .inr (.inl rfl)⟩)
        exact absurd (hinj hlast hmem heq) (FinalizedState.encode_ne_encodeLegacy _ _)
    refine Tip.ext ?_ ?_ ?_ hfinalized
    · rw [← hshnarf]; exact h.lastFinalizedShnarf
    · rw [← hblock]; exact h.lastFinalizedBlockNumber
    · rw [← hroot]; exact h.parentStateRootHash
  · rcases mem_append.1 hg with hg | hg
    · exact hs.images g hg
    · rw [mem_singleton.1 hg]; exact h.image

structure SameFinalized (s s' : L1) : Prop where
  shnarf : s'.currentFinalizedShnarf = s.currentFinalizedShnarf
  blockNumber : s'.currentL2BlockNumber = s.currentL2BlockNumber
  stateRootHashes : s'.stateRootHashes = s.stateRootHashes
  finalizedState : s'.currentFinalizedState = s.currentFinalizedState

theorem step_finalizes (h : Step P G direct s l s') :
    (∃ f, Finalizes P.keccak f s l s') ∨ (SameFinalized s s' ∧ finalizations l = []) := by
  cases h with
  | send _ h =>
    obtain ⟨-, rfl, _, rfl⟩ := h
    exact .inr ⟨⟨rfl, rfl, rfl, rfl⟩, rfl⟩
  | consume n _ hc =>
    exact .inr ⟨⟨congrArg Core.currentFinalizedShnarf hc, congrArg Core.currentL2BlockNumber hc,
      congrArg Core.stateRootHashes hc, congrArg Core.currentFinalizedState hc⟩, rfl⟩
  | finalize f h => exact .inl ⟨f, h⟩
  | register _ _ _ h =>
    obtain ⟨-, -, ⟨_, rfl⟩, ⟨_, _, rfl⟩⟩ := h
    exact .inr ⟨⟨rfl, rfl, rfl, rfl⟩, rfl⟩
  | submit _ h =>
    obtain ⟨-, _, _, _, -, ⟨-, -, ⟨_, rfl⟩, ⟨_, _, rfl⟩⟩, rfl⟩ := h
    exact .inr ⟨⟨rfl, rfl, rfl, rfl⟩, rfl⟩
  | other hc hlogs =>
    refine .inr ⟨⟨congrArg Core.currentFinalizedShnarf hc, congrArg Core.currentL2BlockNumber hc,
      congrArg Core.stateRootHashes hc, congrArg Core.currentFinalizedState hc⟩, ?_⟩
    refine filterMap_eq_nil_iff.2 fun x hx => ?_
    have := hlogs x hx
    cases x <;> simp [Log.Unrelated] at this ⊢

theorem ChainInv.step (hs : ChainInv P.keccak d s t) (h : Step P G direct s l s') :
    ChainInv P.keccak d s' (t ++ l) := by
  rcases step_finalizes h with ⟨f, hf⟩ | ⟨hsame, hl⟩
  · exact hs.finalize hf
  · obtain ⟨htip, hchained, himages⟩ := hs
    refine ⟨?_, ?_, ?_⟩ <;> rw [finalizations_append, hl, append_nil]
    · rw [hsame.shnarf, hsame.blockNumber, hsame.stateRootHashes, hsame.finalizedState]; exact htip
    · exact hchained
    · exact himages

theorem ChainInv.init {ctx : Ctx} (h : linethRollupInit P.keccak ctx d = .ok s) : ChainInv P.keccak d s [] := by
  obtain ⟨_, rfl⟩ := linethRollupInit_eq_ok h
  refine ⟨⟨rfl, rfl, ?_, rfl⟩, fun _ => trivial, fun f hf => by simp [finalizations] at hf⟩
  simp [L1.initial, finalizations, lastTip, InitializationData.genesisTip]

theorem ChainInv.run {ctx : Ctx} (h : linethRollupInit P.keccak ctx d = .ok s) (calls : Calls Action) :
    ChainInv P.keccak d (calls.exec (code P G) s).1 (events (calls.exec (code P G) s).2) := by
  have := Steps.invariant ChainInv.step (run_steps (G := G) calls s) (ChainInv.init h)
  rwa [nil_append] at this

/-! ### The chain in terms of the public inputs -/

theorem Chained.get {tip : Tip} {fs : List Finalization} (h : Chained tip fs) :
    (∀ f, fs[0]? = some f → f.first = tip) ∧
      ∀ k f g, fs[k]? = some f → fs[k + 1]? = some g → g.first = f.final := by
  induction fs generalizing tip with
  | nil => simp
  | cons f fs ih =>
    obtain ⟨hfirst, hrest⟩ := h
    refine ⟨fun g hg => ?_, fun k g g' hg hg' => ?_⟩
    · obtain rfl : f = g := by simpa using hg
      exact hfirst
    · cases k with
      | zero =>
        obtain rfl : f = g := by simpa using hg
        exact (ih hrest).1 g' (by simpa using hg')
      | succ k => exact (ih hrest).2 k g g' (by simpa using hg) (by simpa using hg')

/-- The values a finalization takes over, in the order of its public inputs. -/
def Tip.inputs (tip : Tip) : List Word :=
  [tip.shnarf, tip.finalizedState.timestamp, tip.blockNumber, tip.finalizedState.messageRollingHash,
    tip.finalizedState.messageNumber, tip.finalizedState.forcedTransactionRollingHash,
    tip.finalizedState.forcedTransactionNumber]

theorem Finalization.publicInputs_first (f : Finalization) {k : Nat} (hk : k < 7) :
    (f.publicInputs keccak)[2 * k]? = f.first.inputs[k]? := by
  interval_cases k <;> rfl

theorem Finalization.publicInputs_final (f : Finalization) {k : Nat} (hk : k < 7) :
    (f.publicInputs keccak)[2 * k + 1]? = f.final.inputs[k]? := by
  interval_cases k <;> rfl

/-- Each finalization's public input hashes eighteen words, and consecutive finalizations chain: words 0, 2, ..., 12
of the later one are words 1, 3, ..., 13 of the earlier one, those of the first one the genesis values, and its parent
state root is the final state root. -/
theorem finalizations_chain {ctx : Ctx} (hinit : linethRollupInit P.keccak ctx d = .ok s) (calls : Calls Action)
    (hinj : Set.InjOn P.keccak
      {x | x ∈ statePreimages d (finalizations (events (calls.exec (code P G) s).2))}) :
    let fs := finalizations (events (calls.exec (code P G) s).2)
    (∀ f ∈ fs, f.image = words (f.publicInputs P.keccak)) ∧
    (∀ f, fs[0]? = some f → f.data.parentStateRootHash = d.initialStateRootHash ∧
      ∀ k < 7, (f.publicInputs P.keccak)[2 * k]? =
        [genesisShnarf P.keccak d, d.genesisTimestamp, d.initialL2BlockNumber, 0, 0, 0, 0][k]?) ∧
    (∀ i f g, fs[i]? = some f → fs[i + 1]? = some g → g.data.parentStateRootHash = f.data.finalStateRootHash ∧
      ∀ k < 7, (g.publicInputs P.keccak)[2 * k]? = (f.publicInputs P.keccak)[2 * k + 1]?) ∧
    ∀ (cd : Calldata) (fd : Word) (roots : List Word) (m : Memory) (mPtr : Nat) (f : Finalization),
      fd.toNat + 0x280 < 2 ^ 256 → l2MerkleRoots cd fd = .ok roots → f.data = FinalizationData.decode cd fd →
      f.l2MerkleRoots = roots →
      publicInputImage P.keccak cd fd m mPtr f.lastFinalizedShnarf f.finalShnarf f.lastFinalizedBlockNumber
        f.finalForcedTransactionRollingHash f.verifierChainConfiguration
        (P.keccak (encodePackedAddresses f.filteredAddresses)) = words (f.publicInputs P.keccak) := by
  intro fs
  have hinv : ChainInv P.keccak d _ _ := ChainInv.run (G := G) hinit calls
  obtain ⟨hgenesis, hnext⟩ := (hinv.chained hinj).get
  refine ⟨hinv.images, fun f hf => ?_, fun i f g hf hg => ?_, fun cd fd roots m mPtr f hfd hroots hdata hf =>
    publicInputImage_eq P.keccak hfd hroots m mPtr f hdata hf⟩
  · have hfirst := hgenesis f hf
    refine ⟨congrArg Tip.stateRootHash hfirst, fun k hk => ?_⟩
    rw [f.publicInputs_first P.keccak hk, hfirst]
    rfl
  · have hfirst := hnext i f g hf hg
    refine ⟨congrArg Tip.stateRootHash hfirst, fun k hk => ?_⟩
    rw [g.publicInputs_first P.keccak hk, f.publicInputs_final P.keccak hk, hfirst]

def sampleFinalizeCalls : Calls Action :=
  let second := { FinalizationData.sample with
    parentStateRootHash := 2, endBlockNumber := 9, finalStateRootHash := 3
    lastFinalizedTimestamp := 200, finalTimestamp := 300 }
  .cons (.mk ⟨.sample, .finalizeBlocks (FinalizationData.sample.calldata none)⟩ (.cons .nil true .nil))
    (.cons (.mk ⟨.sample, .finalizeBlocks (second.calldata none)⟩ (.cons .nil true .nil)) .nil)

theorem finalizations_chain_sample :
    let fs := finalizations
      (events (sampleFinalizeCalls.exec (code .sample .sample) (.initial sampleKeccak 100 .sample 1100)).2)
    fs.length = 2 ∧ ∀ f g, fs[0]? = some f → fs[1]? = some g →
      g.data.parentStateRootHash = f.data.finalStateRootHash ∧
        ∀ k < 7, (g.publicInputs sampleKeccak)[2 * k]? = (f.publicInputs sampleKeccak)[2 * k + 1]? := by
  have hinit : linethRollupInit sampleKeccak .sample .sample = .ok (.initial sampleKeccak 100 .sample 1100) := rfl
  have hinj : ∀ x ∈ statePreimages .sample (finalizations (events
      (sampleFinalizeCalls.exec (code .sample .sample) (.initial sampleKeccak 100 .sample 1100)).2)),
    ∀ y ∈ statePreimages .sample (finalizations (events
      (sampleFinalizeCalls.exec (code .sample .sample) (.initial sampleKeccak 100 .sample 1100)).2)),
    sampleKeccak x = sampleKeccak y → x = y := by decide +kernel
  refine ⟨by decide +kernel, fun f g hf hg => ?_⟩
  exact (finalizations_chain (P := .sample) (G := .sample) hinit sampleFinalizeCalls
    fun x hx y hy h => hinj x hx y hy h).2.2.1 0 f g hf hg

end Lineth.Rollup
