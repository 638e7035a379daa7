import Lineth.Conflation.Calculators

/-!
# Conflations partition the blocks

Runs of the block conflation calculator: any mix of `newBlock` calls and triggers of deferred calculators, some of
which may throw. A block counts as received when its call returns. -/

namespace Lineth.Conflation

open Exec Intervals List

variable {σ M : Type}

inductive ConflationCall (M : Type)
  | newBlock (blockCounters : BlockCounters M)
  | conflationTrigger (trigger : ConflationTrigger)

structure BlockRun (σ M : Type) where
  state : BlockState σ M
  received : List (BlockCounters M)

def BlockState.inflightBlocks (s : BlockState σ M) : List Nat :=
  match s.inflightConflation.startBlockNumber with
  | none => []
  | some n => range' n.toNat (s.lastBlockNumber.toNat + 1 - n.toNat)

namespace GlobalBlockConflationCalculator

open BlockState

variable (g : GlobalBlockConflationCalculator σ M)

def step (w : BlockRun σ M) : ConflationCall M → BlockRun σ M
  | .newBlock b =>
    match g.newBlock b w.state with
    | .ok _ s => ⟨s, w.received ++ [b]⟩
    | .error _ s => ⟨s, w.received⟩
  | .conflationTrigger t =>
    match g.handleConflationTrigger t w.state with
    | .ok _ s => ⟨s, w.received⟩
    | .error _ s => ⟨s, w.received⟩

def run (w : BlockRun σ M) (calls : List (ConflationCall M)) : BlockRun σ M := calls.foldl g.step w

/-- The blocks received are numbered consecutively after `init`, up to the last block. -/
structure RunInv (init : UInt64) (w : BlockRun σ M) : Prop where
  partition : Partition init w.state
  init_le : init.toNat ≤ w.state.lastBlockNumber.toNat
  received : w.received.map (·.blockNumber.toNat) =
    range' (init.toNat + 1) (w.state.lastBlockNumber.toNat - init.toNat)

variable {g} {init : UInt64} {w : BlockRun σ M}

theorem runInv_initial (init : UInt64) (env : σ) : RunInv init ⟨g.initial init env, []⟩ := by
  refine ⟨⟨init.toNat, rfl, fun n => ⟨fun _ => rfl, nofun⟩⟩, le_rfl, ?_⟩
  show [] = range' _ (init.toNat - init.toNat)
  simp

theorem RunInv.of_last {s : BlockState σ M} (h : RunInv init w)
    (hs : Partition init s ∧ s.lastBlockNumber = w.state.lastBlockNumber) : RunInv init ⟨s, w.received⟩ := by
  obtain ⟨hs, hlast⟩ := hs
  exact ⟨hs, by rw [hlast]; exact h.init_le, by rw [hlast]; exact h.received⟩

theorem newBlock_runInv {b : BlockCounters M} (hb : b.blockNumber ≠ 0) (h : RunInv init w) :
    wp (g.newBlock b) (fun _ s => RunInv init ⟨s, w.received ++ [b]⟩) (fun _ s => RunInv init ⟨s, w.received⟩)
      w.state := by
  refine wp_mono (newBlock_partition b hb h.partition) (fun _ s hs => ?_) (fun _ s hs => h.of_last hs)
  obtain ⟨hs, hlast, hnum⟩ := hs
  have hle := h.init_le
  refine ⟨hs, by show _ ≤ UInt64.toNat _; rw [hlast, hnum]; omega, ?_⟩
  rw [map_append, map_singleton, h.received, hlast, hnum, Nat.succ_sub hle, range'_concat]
  congr 2
  omega

theorem handleConflationTrigger_runInv (t : ConflationTrigger) (h : RunInv init w) :
    wp (g.handleConflationTrigger t) (fun _ s => RunInv init ⟨s, w.received⟩) (fun _ s => RunInv init ⟨s, w.received⟩)
      w.state := by
  unfold GlobalBlockConflationCalculator.handleConflationTrigger
  rw [wp_bind, wp_get]
  exact wp_mono (fire_partition t h.partition) (fun _ _ hs => h.of_last hs)
    (fun _ _ hs => h.of_last ⟨h.partition.of_same hs, hs.last⟩)

theorem RunInv.step {call : ConflationCall M} (hpos : ∀ b, call = .newBlock b → b.blockNumber ≠ 0)
    (h : RunInv init w) : RunInv init (g.step w call) := by
  cases call with
  | conflationTrigger t =>
    have hspec := handleConflationTrigger_runInv (g := g) t h
    simp only [GlobalBlockConflationCalculator.step]
    split
    · exact hspec.ok ‹_›
    · exact hspec.error ‹_›
  | newBlock b =>
    have hspec := newBlock_runInv (g := g) (hpos b rfl) h
    simp only [GlobalBlockConflationCalculator.step]
    split
    · exact hspec.ok ‹_›
    · exact hspec.error ‹_›

theorem RunInv.run {calls : List (ConflationCall M)} (hpos : ∀ b, .newBlock b ∈ calls → b.blockNumber ≠ 0)
    (h : RunInv init w) : RunInv init (g.run w calls) := by
  induction calls generalizing w with
  | nil => exact h
  | cons call calls ih =>
    refine ih (fun b hb => hpos b (by simp [hb])) (h.step fun b hb => hpos b (by simp [hb]))

theorem RunInv.blocks (h : RunInv init w) :
    w.received.map (·.blockNumber.toNat) = w.state.emitted.flatMap (·.blocks) ++ w.state.inflightBlocks := by
  obtain ⟨e, ht, he⟩ := h.partition.tiles
  have hle := ht.le
  have hpts : w.state.emitted.flatMap (·.blocks) = range' (init.toNat + 1) (e - init.toNat) := by
    rw [← ht.flatMap_points, flatMap_map]
    rfl
  rw [h.received, hpts]
  unfold inflightBlocks
  cases hs : w.state.inflightConflation.startBlockNumber with
  | none => rw [(he 0).1 hs, append_nil]
  | some n =>
    obtain ⟨hn, hlast⟩ := (he n).2 hs
    show _ = _ ++ range' n.toNat (w.state.lastBlockNumber.toNat + 1 - n.toNat)
    rw [hn, show w.state.lastBlockNumber.toNat - init.toNat =
        (e - init.toNat) + (w.state.lastBlockNumber.toNat + 1 - (e + 1)) by omega, ← range'_append_1]
    congr 2
    omega

/-- For any calculators and any consumer, the emitted conflations are consecutive non-empty intervals from the initial
last block on; their blocks followed by those in flight are the blocks received, each once. Block 0 is not in order
after any block. -/
theorem conflations_partition_blocks (g : GlobalBlockConflationCalculator σ M) (lastBlockNumber : UInt64) (env : σ)
    (calls : List (ConflationCall M)) (hpos : ∀ b, .newBlock b ∈ calls → b.blockNumber ≠ 0) :
    let w := g.run ⟨g.initial lastBlockNumber env, []⟩ calls
    (∃ e, Tiles (·.lo) (·.hi) lastBlockNumber.toNat (w.state.emitted.map (·.toBlockInterval)) e) ∧
    w.received.map (·.blockNumber.toNat) = w.state.emitted.flatMap (·.blocks) ++ w.state.inflightBlocks ∧
    w.received.map (·.blockNumber.toNat) = range' (lastBlockNumber.toNat + 1) w.received.length := by
  intro w
  have hw : RunInv lastBlockNumber w := (runInv_initial lastBlockNumber env).run hpos
  refine ⟨?_, hw.blocks, ?_⟩
  · obtain ⟨e, ht, -⟩ := hw.partition.tiles
    exact ⟨e, ht⟩
  · have hlen := congrArg length hw.received
    rw [length_map, length_range'] at hlen
    rw [hw.received, hlen]

end GlobalBlockConflationCalculator

/-! ### A run with a block limit -/

/-- A compressor that never fills up, holding what was written to it. -/
def BlobCompressor.unbounded : BlobCompressor Batches where
  canAppendBlock s _ := (some true, s)
  appendBlock s block := (some ⟨true, 0, 0⟩, s.append block)
  startNewBatch s := s.startNewBatch
  getCompressedData s := s.all.flatten.flatten
  reset _ := .empty

def BlockCounters.sample (n : UInt64) (time : Int) : BlockCounters Unit :=
  ⟨n, time, fun _ => 1, [n.toUInt8], "0x00"⟩

def CalculatorsConfig.sample : CalculatorsConfig Unit := ⟨fun _ => 100, 2, [50]⟩

def GlobalBlockConflationCalculator.sample : GlobalBlockConflationCalculator (Calculators Batches Unit) Unit where
  calculators := [CalculatorId.blocksLimit, .timestampHardFork, .timeLimit].map
    (Calculators.calculator .sample .unbounded)
  emptyTracesCounters := TracesCounters.emptyTracesCounters
  conflationConsumer _ := pure ()

def sampleConflationCalls : List (ConflationCall Unit) :=
  [.newBlock (.sample 8 10), .newBlock (.sample 9 20), .newBlock (.sample 10 30), .conflationTrigger .timeLimit,
    .newBlock (.sample 11 60)]

theorem conflations_partition_blocks_sample :
    (∀ b, .newBlock b ∈ sampleConflationCalls → b.blockNumber ≠ 0) ∧
    let g := GlobalBlockConflationCalculator.sample
    let w := g.run ⟨g.initial 7 (.initial .empty [] 0), []⟩ sampleConflationCalls
    w.received.map (·.blockNumber.toNat) = w.state.emitted.flatMap (·.blocks) ++ w.state.inflightBlocks := by
  have hpos : ∀ b, .newBlock b ∈ sampleConflationCalls → b.blockNumber ≠ 0 := by
    intro b hb
    simp only [sampleConflationCalls, mem_cons, ConflationCall.newBlock.injEq, not_mem_nil, or_false,
      reduceCtorEq, false_or] at hb
    rcases hb with rfl | rfl | rfl | rfl <;> decide
  exact ⟨hpos,
    (GlobalBlockConflationCalculator.conflations_partition_blocks .sample 7 _ sampleConflationCalls hpos).2.1⟩

end Lineth.Conflation
