import Lineth.Conflation.BlobRun

/-!
# Blobs partition the conflations

A run mixes blocks, deadline callbacks and processed forced transactions in any order. The deadline callback, which
catches what the calculator throws, is taken to fire whenever it likes: the conditions it checks only restrict the
runs. -/

namespace Lineth.Conflation

open Exec Intervals Calculators List GlobalBlockConflationCalculator

variable {κ M : Type}

inductive BlobCall (M : Type)
  | newBlock (blockCounters : BlockCounters M)
  | deadlineReached
  | forcedTransactionProcessed (blockNumber : UInt64)

structure BlobRun (κ M : Type) where
  state : BlockState (BlobState κ M) M
  received : List (BlockCounters M)
  errors : List Error

namespace GlobalBlobAwareConflationCalculator

def mapCalculators (f : Calculators κ M → Calculators κ M) (s : BlockState (BlobState κ M) M) :
    BlockState (BlobState κ M) M :=
  { s with env := { s.env with calculators := f s.env.calculators } }

/-- The deadline calculator forgets the start of the conflation, whether or not it could be closed. -/
def resetDeadline : BlockState (BlobState κ M) M → BlockState (BlobState κ M) M :=
  mapCalculators byTimeDeadline.reset

/-- The listener of the sequencer queues a forced transaction that was executed in a block. -/
def queueForcedTransaction (blockNumber : UInt64) (k : Calculators κ M) : Calculators κ M :=
  { k with processedFtxQueue := k.processedFtxQueue ++ [blockNumber] }

variable [Fintype M] (a : GlobalBlobAwareConflationCalculator κ M)

def initial (lastBlockNumber : UInt64) (calculators : Calculators κ M) : BlobRun κ M :=
  ⟨a.conflationCalculator.initial lastBlockNumber (.initial calculators), [], []⟩

def step (w : BlobRun κ M) : BlobCall M → BlobRun κ M
  | .newBlock b =>
    match a.newBlock b w.state with
    | .ok _ s => ⟨s, w.received ++ [b], w.errors⟩
    | .error e s => ⟨s, w.received, w.errors ++ [e]⟩
  | .deadlineReached =>
    match a.conflationCalculator.handleConflationTrigger .timeLimit w.state with
    | .ok _ s => ⟨resetDeadline s, w.received, w.errors⟩
    | .error e s => ⟨resetDeadline s, w.received, w.errors ++ [e]⟩
  | .forcedTransactionProcessed n => { w with state := mapCalculators (queueForcedTransaction n) w.state }

def run (w : BlobRun κ M) (calls : List (BlobCall M)) : BlobRun κ M := calls.foldl a.step w

end GlobalBlobAwareConflationCalculator

open GlobalBlobAwareConflationCalculator

variable {a : GlobalBlobAwareConflationCalculator κ M} {batches : κ → Batches}
  {Decodes : List UInt8 → List (List (List UInt8)) → Prop} {B : Set (BlockCounters M)} {init : UInt64}
  {s : BlockState (BlobState κ M) M} {received : List (BlockCounters M)}

/-- Changes that no calculator reads when it takes a block. -/
theorem BlobRunInv.mapCalculators (h : BlobRunInv a batches Decodes B init s received)
    {f : Calculators κ M → Calculators κ M} (hdata : ∀ k, (f k).data = k.data)
    (hfresh : ∀ k id, Fresh k id → Fresh (f k) id) :
    BlobRunInv a batches Decodes B init (GlobalBlobAwareConflationCalculator.mapCalculators f s) received where
  run := ⟨h.run.partition.of_same ⟨rfl, rfl, rfl⟩, h.run.init_le, h.run.received⟩
  mem := h.mem
  conflations := h.conflations
  assembly := by
    have ha := h.assembly
    refine ⟨ha.toBatched.setCalculators _, ha.lt_limit, ?_, fun hd => ha.drained ?_⟩
    · show batches (f s.env.calculators).data.blobCompressor = _
      rw [hdata]
      exact ha.contents
    · rw [← hdata]
      exact hd
  idle := fun hnone => ⟨(h.idle hnone).1, fun id hid => hfresh _ id ((h.idle hnone).2 id hid)⟩
  started := h.started

theorem fresh_of_same {k k' : Calculators κ M} (ht : k'.inprogressTracesCounters = k.inprogressTracesCounters)
    (hb : k'.blockCount = k.blockCount) (hc : k'.currentBatchCoinbase = k.currentBatchCoinbase) (id : CalculatorId)
    (h : Fresh k id) : Fresh k' id := by
  cases id <;> simp only [Fresh, ht, hb, hc] at h ⊢ <;> exact h

theorem BlobRunInv.resetDeadline (h : BlobRunInv a batches Decodes B init s received) :
    BlobRunInv a batches Decodes B init (GlobalBlobAwareConflationCalculator.resetDeadline s) received :=
  h.mapCalculators (fun _ => rfl) (fun _ id hf => fresh_of_same rfl rfl rfl id hf)

variable [Fintype M]

theorem handleTimeLimit_blobRun (hC : a.compressor.Lawful batches Decodes) (hlim : LimitsOk a)
    (hB : BlockSource a.compressor batches B) (h : BlobRunInv a batches Decodes B init s received) :
    wp (a.conflationCalculator.handleConflationTrigger .timeLimit)
      (fun _ s' => BlobRunInv a batches Decodes B init s' received)
      (fun e s' => BlobRunInv a batches Decodes B init s' received ∧ e.isInternalCheck = false) s := by
  have hrun := handleConflationTrigger_runInv (g := a.conflationCalculator) .timeLimit
    h.run
  unfold handleConflationTrigger at hrun ⊢
  rw [wp_bind, wp_get] at hrun ⊢
  cases hstart : s.inflightConflation.startBlockNumber with
  | some n =>
    refine wp_mono (wp_and hrun (fire_closed hC hlim hB h hstart (.inl (by decide)))) (fun _ s' h' => ?_)
      (fun _ _ h => h.2.elim)
    obtain ⟨hrun', h'⟩ := h'
    refine ⟨hrun', h.mem, h'.conflations, ?_, fun _ => ⟨h'.cutOff (by decide), h'.fresh⟩, fun m hm => ?_⟩
    · rw [inflightRlps, h'.start]
      exact h'.assembly
    · rw [h'.start] at hm
      simp at hm
  | none =>
    unfold fireConflationAndResetState
    rw [wp_bind]
    refine wp_mono (copyCounters_env s _) ?_
    rintro _ s₁ ⟨h₁, henv⟩
    have hk : Differ s s.env.calculators s₁ := ⟨h₁, henv⟩
    have hnone : s₁.inflightConflation.startBlockNumber = none := h₁.start.trans hstart
    rw [wp_bind, wp_get, wp_bind]
    unfold InflightConflation.toConflationResult
    rw [hnone]
    exact ⟨h.of_checked (b := ⟨0, 0, TracesCounters.emptyTracesCounters, [], ""⟩) hk .refl, rfl⟩

variable (a batches Decodes B) in
/-- The invariant of a run: no exception so far came from a `require` or a `checkNotNull`. -/
structure RunOk (init : UInt64)
    (w : BlobRun κ M) : Prop where
  inv : BlobRunInv a batches Decodes B init w.state w.received
  errors : ∀ e ∈ w.errors, e.isInternalCheck = false

variable {w : BlobRun κ M}

omit [Fintype M] in
theorem RunOk.throw (h : RunOk a batches Decodes B init w) {s : BlockState (BlobState κ M) M} {e : Error}
    (hs : BlobRunInv a batches Decodes B init s w.received) (he : e.isInternalCheck = false) :
    RunOk a batches Decodes B init ⟨s, w.received, w.errors ++ [e]⟩ := by
  refine ⟨hs, fun e' he' => ?_⟩
  rcases mem_append.mp he' with he' | he'
  · exact h.errors e' he'
  · rw [mem_singleton.mp he']
    exact he

section

variable (hC : a.compressor.Lawful batches Decodes) (hlim : LimitsOk a) (hB : BlockSource a.compressor batches B)

include hC hlim hB

theorem RunOk.step {call : BlobCall M}
    (hcall : ∀ b, call = .newBlock b → b ∈ B) (h : RunOk a batches Decodes B init w) :
    RunOk a batches Decodes B init (a.step w call) := by
  cases call with
  | newBlock b =>
    have hspec := newBlock_blobRun hC hlim hB h.inv (hcall b rfl)
    simp only [GlobalBlobAwareConflationCalculator.step]
    split
    · exact ⟨hspec.ok ‹_›, h.errors⟩
    · obtain ⟨hs, he⟩ := hspec.error ‹_›
      exact h.throw hs he
  | deadlineReached =>
    have hspec := handleTimeLimit_blobRun hC hlim hB h.inv
    simp only [GlobalBlobAwareConflationCalculator.step]
    split
    · exact ⟨(hspec.ok ‹_›).resetDeadline, h.errors⟩
    · obtain ⟨hs, he⟩ := hspec.error ‹_›
      exact h.throw hs.resetDeadline he
  | forcedTransactionProcessed n =>
    exact ⟨h.inv.mapCalculators (f := queueForcedTransaction n) (fun _ => rfl)
      (fun _ id hf => fresh_of_same rfl rfl rfl id hf), h.errors⟩

theorem RunOk.run {calls : List (BlobCall M)}
    (hcalls : ∀ b, .newBlock b ∈ calls → b ∈ B) (h : RunOk a batches Decodes B init w) :
    RunOk a batches Decodes B init (a.run w calls) := by
  induction calls generalizing w with
  | nil => exact h
  | cons call calls ih =>
    exact ih (fun b hb => hcalls b (by simp [hb])) (h.step hC hlim hB fun b hb => hcalls b (by simp [hb]))

end

theorem runOk_initial (hlim : LimitsOk a) (B : Set (BlockCounters M)) (init : UInt64) {compressor : κ}
    (hempty : batches compressor = .empty) (targets : List UInt64) (initialTimestamp : Int) :
    RunOk a batches Decodes B init (a.initial init (.initial compressor targets initialTimestamp)) := by
  refine ⟨⟨runInv_initial init _, nofun, rfl, ?_, fun _ => ⟨rfl, fun id _ => ?_⟩,
    nofun⟩, nofun⟩
  · exact ⟨⟨rfl, nofun, rfl, nofun, nofun⟩, UInt32.lt_iff_toNat_lt.mp hlim.batches, hempty, nofun⟩
  · cases id <;> first | rfl | trivial

/-- The blobs emitted, in order, and the batches of the open blob are the conflations emitted. Each blob has at most
`batchesLimit` conflations and data that are decoded to the received blocks of them, one batch each; the compressor
holds the batches of the open blob and the blocks in flight and nothing else; and no `require` or `checkNotNull`
fails. -/
theorem blobs_partition_conflations (a : GlobalBlobAwareConflationCalculator κ M) (batches : κ → Batches)
    (Decodes : List UInt8 → List (List (List UInt8)) → Prop) (hC : a.compressor.Lawful batches Decodes)
    (hlim : LimitsOk a) (calls : List (BlobCall M)) (hB : BlockSource a.compressor batches {b | .newBlock b ∈ calls})
    (compressor : κ) (hempty : batches compressor = .empty) (lastBlockNumber : UInt64) (targets : List UInt64)
    (initialTimestamp : Int) :
    let w := a.run (a.initial lastBlockNumber (.initial compressor targets initialTimestamp)) calls
    let env := w.state.env
    w.received.map (·.blockNumber.toNat) = range' (lastBlockNumber.toNat + 1) w.received.length ∧
    env.blobs.flatMap (·.conflations) ++ env.blobBatches = env.conflations ∧
    (∀ blob ∈ env.blobs, BlobOk a.batchesLimit Decodes w.received blob) ∧
    batches env.calculators.data.blobCompressor =
      ⟨env.blobBatches.map fun c => rlps w.received c.toBlockInterval, inflightRlps w.state w.received⟩ ∧
    ∀ e ∈ w.errors, e.isInternalCheck = false := by
  intro w env
  have hw : RunOk a batches Decodes {b | .newBlock b ∈ calls} lastBlockNumber w :=
    (runOk_initial hlim _ lastBlockNumber hempty targets initialTimestamp).run hC hlim hB (fun b hb => hb)
  have ha := hw.inv.assembly
  refine ⟨?_, ha.partition, ha.blobs, ha.contents, hw.errors⟩
  have hrec := hw.inv.run.received
  have hlen := congrArg length hrec
  rw [length_map, length_range'] at hlen
  rw [hrec, hlen]

/-! ### Sample runs -/

theorem BlobCompressor.unbounded_lawful :
    BlobCompressor.unbounded.Lawful id (fun data batches => data = batches.flatten.flatten) where
  check _ _ := rfl
  check_again _ _ _ := rfl
  append := fun _ _ _ => ⟨_, _, rfl, rfl, rfl⟩
  startNewBatch := fun _ => rfl
  reset := fun _ => rfl
  data := fun _ _ => rfl
  reads := fun _ _ _ _ => nofun

/-- All but the coinbase calculator, at most two blocks in a conflation and two conflations in a blob. -/
def GlobalBlobAwareConflationCalculator.sample : GlobalBlobAwareConflationCalculator Batches Unit where
  config := .sample
  compressor := .unbounded
  ids := [.targetBlockNumber, .tracesLimit, .dataLimit, .blocksLimit, .timestampHardFork,
    .forcedTransaction, .timeLimit]
  batchesLimit := 2
  ids_nodup := by decide
  dataLimit_mem := by decide

theorem limitsOk_sample : LimitsOk GlobalBlobAwareConflationCalculator.sample := ⟨by decide, by decide⟩

def sampleBlobCalls : List (BlobCall Unit) :=
  [.newBlock (.sample 1 10), .newBlock (.sample 2 20), .newBlock (.sample 3 30), .deadlineReached,
    .newBlock (.sample 4 40), .forcedTransactionProcessed 5, .newBlock (.sample 5 60)]

theorem sampleBlobCalls_eq {b : BlockCounters Unit} (hb : .newBlock b ∈ sampleBlobCalls) :
    b = .sample 1 10 ∨ b = .sample 2 20 ∨ b = .sample 3 30 ∨ b = .sample 4 40 ∨ b = .sample 5 60 := by
  simpa [sampleBlobCalls] using hb

theorem blockSource_sample : BlockSource BlobCompressor.unbounded id {b | .newBlock b ∈ sampleBlobCalls} where
  pos := by
    intro b hb
    rcases sampleBlobCalls_eq hb with rfl | rfl | rfl | rfl | rfl <;> decide
  unique := by
    intro b hb b' hb' hn
    rcases sampleBlobCalls_eq hb with rfl | rfl | rfl | rfl | rfl <;>
      rcases sampleBlobCalls_eq hb' with rfl | rfl | rfl | rfl | rfl <;>
        first | rfl | exact absurd hn (by decide)
  times := by
    intro b hb b' hb' hn
    rcases sampleBlobCalls_eq hb with rfl | rfl | rfl | rfl | rfl <;>
      rcases sampleBlobCalls_eq hb' with rfl | rfl | rfl | rfl | rfl <;> revert hn <;> decide
  fits := by
    intro b hb c hc
    simp [BlobCompressor.unbounded]

theorem blobs_partition_conflations_sample :
    let a := GlobalBlobAwareConflationCalculator.sample
    let w := a.run (a.initial 0 (.initial .empty [] 0)) sampleBlobCalls
    (∀ blob ∈ w.state.env.blobs, BlobOk 2 (fun data batches => data = batches.flatten.flatten) w.received blob) ∧
    ∀ e ∈ w.errors, e.isInternalCheck = false := by
  have h := blobs_partition_conflations .sample id (fun data batches => data = batches.flatten.flatten)
    BlobCompressor.unbounded_lawful limitsOk_sample sampleBlobCalls blockSource_sample .empty rfl 0 [] 0
  exact ⟨h.2.2.1, h.2.2.2.2⟩

def timeReversedCalls : List (BlobCall Unit) :=
  [.newBlock (.sample 1 10), .newBlock (.sample 2 5), .deadlineReached]

/-- Blocks 1 and 2 in order, but the second has an earlier timestamp: the `require` of `Blob` fails. -/
theorem time_reversed_blocks_fail_require :
    let a := GlobalBlobAwareConflationCalculator.sample
    (a.run (a.initial 0 (.initial .empty [] 0)) timeReversedCalls).errors = [.endTimePredatesStart 10 5] ∧
    (Error.endTimePredatesStart 10 5).isInternalCheck = true := by
  decide +kernel

end Lineth.Conflation
