import Lineth.Conflation.GlobalBlock

/-!
# The trigger calculators

The eight calculators the coordinator ships, as programs on one record that holds the fields of each of them. A
calculator accepts a block in `appendBlock` when its own check raised nothing or when it was just reset; this is
`Ready`. The compressor behind the data limit is an interface with the behaviour its documentation gives
(`BlobCompressor.Lawful`). -/

namespace Lineth.Conflation

open Exec

/-! ### The compressor -/

structure AppendResult where
  blockAppended : Bool
  compressedSizeBefore : Int32
  compressedSizeAfter : Int32
  deriving DecidableEq

/-- `none` stands for a `BlobCompressionException`, documented for invalid blocks; the compressor backed by Go returns
`false` on them. A check may compress the blocks anew, so it returns a new state. -/
structure BlobCompressor (κ : Type) where
  canAppendBlock : κ → List UInt8 → Option Bool × κ
  appendBlock : κ → List UInt8 → Option AppendResult × κ
  startNewBatch : κ → κ
  getCompressedData : κ → List UInt8
  reset : κ → κ

/-- What a compressor holds: the batches sealed so far and the blocks of the open one. -/
structure Batches where
  closed : List (List (List UInt8))
  current : List (List UInt8)
  deriving DecidableEq

namespace Batches

def empty : Batches := ⟨[], []⟩

def append (s : Batches) (block : List UInt8) : Batches := ⟨s.closed, s.current ++ [block]⟩

def startNewBatch (s : Batches) : Batches := if s.current = [] then s else ⟨s.closed ++ [s.current], []⟩

def all (s : Batches) : List (List (List UInt8)) := s.startNewBatch.closed

@[simp]
theorem startNewBatch_of_ne_nil {s : Batches} (h : s.current ≠ []) :
    s.startNewBatch = ⟨s.closed ++ [s.current], []⟩ :=
  if_neg h

end Batches

/-- A block that is not rejected with an exception. -/
def BlobCompressor.Reads {κ : Type} (C : BlobCompressor κ) (block : List UInt8) : Prop :=
  ∀ c, (C.canAppendBlock c block).1 ≠ none

/-- A compressor that holds `batches c` in state `c`. States with the same batches may have different data, which all
are decoded to these batches. -/
structure BlobCompressor.Lawful {κ : Type} (C : BlobCompressor κ) (batches : κ → Batches)
    (Decodes : List UInt8 → List (List (List UInt8)) → Prop) : Prop where
  check : ∀ c block, batches (C.canAppendBlock c block).2 = batches c
  check_again : ∀ c block, (C.canAppendBlock c block).1 = some true →
    (C.canAppendBlock (C.canAppendBlock c block).2 block).1 = some true
  append : ∀ c block, (C.canAppendBlock c block).1 = some true →
    ∃ r c', C.appendBlock c block = (some r, c') ∧ r.blockAppended = true ∧ batches c' = (batches c).append block
  startNewBatch : ∀ c, batches (C.startNewBatch c) = (batches c).startNewBatch
  reset : ∀ c, batches (C.reset c) = Batches.empty
  data : ∀ c, (batches c).all ≠ [] → Decodes (C.getCompressedData c) (batches c).all
  /-- Only an invalid encoding is rejected with an exception, if any. -/
  reads : ∀ c block, (C.canAppendBlock c block).1 ≠ none → C.Reads block

/-! ### The state of the calculators -/

structure DataCompressed (κ : Type) where
  blobCompressor : κ
  dataSizeUpToLastBatch : UInt32 := 0
  dataSize : UInt32 := 0
  dataDrained : Bool := false
  lastValidatedBlock : Option (List UInt8) := none

structure Calculators (κ M : Type) where
  targetEndBlockNumbers : List UInt64
  inprogressTracesCounters : TracesCounters M
  data : DataCompressed κ
  blockCount : UInt32
  lastProcessedTimestamp : Int
  currentBatchCoinbase : Option String
  processedFtxQueue : List UInt64
  pendingTriggerBlocks : List UInt64
  startBlockTimestamp : Option Int

structure CalculatorsConfig (M : Type) where
  tracesCountersLimit : TracesCounters M
  blockLimit : UInt32
  hardForkTimestamps : List Int

def Calculators.initial {κ M : Type} (compressor : κ) (targets : List UInt64) (initialTimestamp : Int) :
    Calculators κ M where
  targetEndBlockNumbers := targets
  inprogressTracesCounters := TracesCounters.emptyTracesCounters
  data := ⟨compressor, 0, 0, false, none⟩
  blockCount := 0
  lastProcessedTimestamp := initialTimestamp
  currentBatchCoinbase := none
  processedFtxQueue := []
  pendingTriggerBlocks := []
  startBlockTimestamp := none

inductive CalculatorId
  | targetBlockNumber
  | tracesLimit
  | dataLimit
  | blocksLimit
  | timestampHardFork
  | coinbaseChange
  | forcedTransaction
  | timeLimit
  deriving Repr, DecidableEq

variable {κ M : Type} [Fintype M]

namespace Calculators

abbrev CalcM (κ M : Type) := EStateM Error (Calculators κ M)

def noBlock : BlockCounters M → CalcM κ M Unit := fun _ => pure ()

/-! ### By target block numbers -/

def byTargetBlockNumbers : ConflationTriggerCalculator (Calculators κ M) M where
  checkOverflow b := do
    if (b.blockNumber - 1) ∈ (← get).targetEndBlockNumbers then pure (some ⟨.targetBlockNumber, false⟩) else pure none
  appendBlock := noBlock
  reset s := s
  copyCountersTo _ c := c

/-! ### By execution traces -/

def addTraces (t u : TracesCounters M) : CalcM κ M (TracesCounters M) :=
  match t.add u with
  | some sum => pure sum
  | none => throw .arithmetic

def byExecutionTraces (limit : TracesCounters M) : ConflationTriggerCalculator (Calculators κ M) M where
  checkOverflow b := do
    let sum ← addTraces (← get).inprogressTracesCounters b.tracesCounters
    if sum.allTracesWithinLimits limit then pure none
    else pure (some ⟨.tracesLimit, b.tracesCounters.anyOversized limit⟩)
  appendBlock b := do
    let s ← get
    let appendResult ← addTraces s.inprogressTracesCounters b.tracesCounters
    if !appendResult.allTracesWithinLimits limit && s.inprogressTracesCounters ≠ TracesCounters.emptyTracesCounters then
      throw (.cannotAppend b.blockNumber)
    else set { s with inprogressTracesCounters := appendResult }
  reset s := { s with inprogressTracesCounters := TracesCounters.emptyTracesCounters }
  copyCountersTo s c := { c with tracesCounters := s.inprogressTracesCounters }

/-! ### By compressed data -/

def setData (d : DataCompressed κ) (s : Calculators κ M) : Calculators κ M := { s with data := d }

def onData {α : Type} (x : EStateM Error (DataCompressed κ) α) : CalcM κ M α := zoom data setData x

end Calculators

namespace DataCompressed

variable (C : BlobCompressor κ)

def checkOverflow (block : List UInt8) : EStateM Error (DataCompressed κ) (Option OverflowTrigger) := do
  let d ← get
  let (fits, c) := C.canAppendBlock d.blobCompressor block
  set { d with lastValidatedBlock := some block, blobCompressor := c }
  match fits with
  | some true => pure none
  | some false => pure (some ⟨.dataLimit, d.dataSize = 0⟩)
  | none => throw .blobCompression

def appendBlock (block : List UInt8) : EStateM Error (DataCompressed κ) Unit := do
  let d ← get
  if d.lastValidatedBlock ≠ some block then throw .unvalidatedBlock
  match C.appendBlock d.blobCompressor block with
  | (none, c) =>
    set { d with blobCompressor := c }
    throw .blobCompression
  | (some r, c) =>
    set { d with blobCompressor := c }
    if !r.blockAppended then throw .doesNotFitInBlob
    set { d with blobCompressor := c, dataSize := r.compressedSizeAfter.toUInt32, dataDrained := false }

def reset (d : DataCompressed κ) : DataCompressed κ :=
  if d.dataDrained then
    { d with blobCompressor := C.reset d.blobCompressor, dataSizeUpToLastBatch := 0, dataSize := 0 }
  else d

def startNewBatch (d : DataCompressed κ) : DataCompressed κ :=
  { d with dataSizeUpToLastBatch := d.dataSize, blobCompressor := C.startNewBatch d.blobCompressor }

end DataCompressed

namespace Calculators

def byDataCompressed (C : BlobCompressor κ) : ConflationTriggerCalculator (Calculators κ M) M where
  checkOverflow b := onData (DataCompressed.checkOverflow C b.blockRLPEncoded)
  appendBlock b := onData (DataCompressed.appendBlock C b.blockRLPEncoded)
  reset s := s.setData (s.data.reset C)
  copyCountersTo s c := { c with dataSize := s.data.dataSize - s.data.dataSizeUpToLastBatch }

/-! ### By block limit -/

def byBlockLimit (blockLimit : UInt32) : ConflationTriggerCalculator (Calculators κ M) M where
  checkOverflow _ := do
    if (← get).blockCount < blockLimit then pure none else pure (some ⟨.blocksLimit, false⟩)
  appendBlock b := do
    let s ← get
    if s.blockCount + 1 > blockLimit then throw (.cannotAppend b.blockNumber)
    else set { s with blockCount := s.blockCount + 1 }
  reset s := { s with blockCount := 0 }
  copyCountersTo s c := { c with blockCount := s.blockCount }

/-! ### By hard fork timestamp -/

def byHardForkTimestamp (hardForkTimestamps : List Int) : ConflationTriggerCalculator (Calculators κ M) M where
  checkOverflow b := do
    let s ← get
    if (hardForkTimestamps.find? fun t => s.lastProcessedTimestamp < t && t ≤ b.blockTimestamp).isSome then
      pure (some ⟨.hardFork, false⟩)
    else pure none
  appendBlock b := modify fun s => { s with lastProcessedTimestamp := b.blockTimestamp }
  reset s := s
  copyCountersTo _ c := c

/-! ### By coinbase -/

def byCoinbase : ConflationTriggerCalculator (Calculators κ M) M where
  checkOverflow b := do
    match (← get).currentBatchCoinbase with
    | none => pure none
    | some batchCoinbase =>
      if b.coinbase ≠ batchCoinbase then pure (some ⟨.coinbaseChange, false⟩) else pure none
  appendBlock b := do
    let s ← get
    match s.currentBatchCoinbase with
    | none => set { s with currentBatchCoinbase := some b.coinbase }
    | some batchCoinbase => if b.coinbase ≠ batchCoinbase then throw (.cannotAppend b.blockNumber)
  reset s := { s with currentBatchCoinbase := none }
  copyCountersTo _ c := c

/-! ### By forced transaction -/

/-- The blocks of the processed transactions above the highest pending one join the pending ones. -/
def readProcessedFtxs (s : Calculators κ M) : Calculators κ M :=
  let highestFtxTrigger := s.pendingTriggerBlocks.foldl max 0
  let newFtxs := s.processedFtxQueue.filter (highestFtxTrigger < ·)
  let actualNewTriggers := newFtxs.filter (· ∉ s.pendingTriggerBlocks)
  { s with pendingTriggerBlocks := s.pendingTriggerBlocks ++ actualNewTriggers.dedup }

def byForcedTransaction : ConflationTriggerCalculator (Calculators κ M) M where
  checkOverflow b := do
    modify readProcessedFtxs
    if b.blockNumber ∈ (← get).pendingTriggerBlocks then pure (some ⟨.forcedTransaction, false⟩) else pure none
  appendBlock b := modify fun s =>
    { s with
      pendingTriggerBlocks := s.pendingTriggerBlocks.filter (b.blockNumber < ·)
      processedFtxQueue := s.processedFtxQueue.filter (b.blockNumber < ·) }
  reset s := s
  copyCountersTo _ c := c

/-! ### By time deadline -/

def byTimeDeadline : ConflationTriggerCalculator (Calculators κ M) M where
  checkOverflow _ := pure none
  appendBlock b := modify fun s => { s with startBlockTimestamp := some (s.startBlockTimestamp.getD b.blockTimestamp) }
  reset s := { s with startBlockTimestamp := none }
  copyCountersTo _ c := c

/-! ### All of them -/

def calculator (cfg : CalculatorsConfig M) (C : BlobCompressor κ) :
    CalculatorId → ConflationTriggerCalculator (Calculators κ M) M
  | .targetBlockNumber => byTargetBlockNumbers
  | .tracesLimit => byExecutionTraces cfg.tracesCountersLimit
  | .dataLimit => byDataCompressed C
  | .blocksLimit => byBlockLimit cfg.blockLimit
  | .timestampHardFork => byHardForkTimestamp cfg.hardForkTimestamps
  | .coinbaseChange => byCoinbase
  | .forcedTransaction => byForcedTransaction
  | .timeLimit => byTimeDeadline

/-! ### When a calculator takes a block -/

section

variable (cfg : CalculatorsConfig M) (C : BlobCompressor κ) (b : BlockCounters M)

/-- The condition under which `appendBlock` of a calculator does not throw. -/
def Ready (s : Calculators κ M) : CalculatorId → Prop
  | .tracesLimit => ∃ sum, s.inprogressTracesCounters.add b.tracesCounters = some sum ∧
      (sum.allTracesWithinLimits cfg.tracesCountersLimit = true ∨
        s.inprogressTracesCounters = TracesCounters.emptyTracesCounters)
  | .dataLimit => s.data.lastValidatedBlock = some b.blockRLPEncoded ∧
      (C.canAppendBlock s.data.blobCompressor b.blockRLPEncoded).1 = some true
  | .blocksLimit => s.blockCount + 1 ≤ cfg.blockLimit
  | .coinbaseChange => s.currentBatchCoinbase = none ∨ s.currentBatchCoinbase = some b.coinbase
  | _ => True

/-- A calculator that counts nothing yet. The data calculator counts for a whole blob and is treated apart. -/
def Fresh (s : Calculators κ M) : CalculatorId → Prop
  | .tracesLimit => s.inprogressTracesCounters = TracesCounters.emptyTracesCounters
  | .blocksLimit => s.blockCount = 0
  | .coinbaseChange => s.currentBatchCoinbase = none
  | _ => True

/-- What a check leaves of the state `s`. -/
structure Checked (batches : κ → Batches) (s s' : Calculators κ M) : Prop where
  traces : s'.inprogressTracesCounters = s.inprogressTracesCounters
  blockCount : s'.blockCount = s.blockCount
  coinbase : s'.currentBatchCoinbase = s.currentBatchCoinbase
  compressor : batches s'.data.blobCompressor = batches s.data.blobCompressor
  fits : (C.canAppendBlock s.data.blobCompressor b.blockRLPEncoded).1 = some true →
    (C.canAppendBlock s'.data.blobCompressor b.blockRLPEncoded).1 = some true
  drained : s'.data.dataDrained = s.data.dataDrained
  validated : s'.data.lastValidatedBlock = s.data.lastValidatedBlock ∨
    s'.data.lastValidatedBlock = some b.blockRLPEncoded

end

variable {cfg : CalculatorsConfig M} {C : BlobCompressor κ} {b : BlockCounters M} {s s' s'' : Calculators κ M}
  {id id' : CalculatorId} {batches : κ → Batches} {Decodes : List UInt8 → List (List (List UInt8)) → Prop}

omit [Fintype M] in
theorem Checked.refl : Checked C b batches s s := ⟨rfl, rfl, rfl, rfl, id, rfl, .inl rfl⟩

omit [Fintype M] in
theorem Checked.trans (h : Checked C b batches s s') (h' : Checked C b batches s' s'') : Checked C b batches s s'' := by
  refine ⟨h'.traces.trans h.traces, h'.blockCount.trans h.blockCount, h'.coinbase.trans h.coinbase,
    h'.compressor.trans h.compressor, h'.fits ∘ h.fits, h'.drained.trans h.drained, ?_⟩
  rcases h'.validated with hv | hv
  · rw [hv]
    exact h.validated
  · exact .inr hv

omit [Fintype M] in
theorem Fresh.of_checked (hs : Checked C b batches s s') (h : Fresh s id) : Fresh s' id := by
  cases id <;> simp only [Fresh, hs.traces, hs.blockCount, hs.coinbase] at h ⊢ <;> exact h

theorem Ready.of_checked (hs : Checked C b batches s s') (h : Ready cfg C b s id) : Ready cfg C b s' id := by
  cases id with
  | dataLimit =>
    refine ⟨?_, hs.fits h.2⟩
    rcases hs.validated with hv | hv
    · exact hv.trans h.1
    · exact hv
  | tracesLimit => simpa only [Ready, hs.traces] using h
  | blocksLimit => simpa only [Ready, hs.blockCount] using h
  | coinbaseChange => simpa only [Ready, hs.coinbase] using h
  | _ => trivial

theorem Ready.of_fresh (hlim : id = .blocksLimit → 0 < cfg.blockLimit) (hdata : id ≠ .dataLimit) (h : Fresh s id) :
    Ready cfg C b s id := by
  cases id with
  | dataLimit => exact absurd rfl hdata
  | tracesLimit =>
    exact ⟨_, by rw [show s.inprogressTracesCounters = _ from h]; exact TracesCounters.add_empty _, .inr h⟩
  | blocksLimit =>
    have h0 : s.blockCount = 0 := h
    have hpos := hlim rfl
    show s.blockCount + 1 ≤ cfg.blockLimit
    rw [h0, UInt32.le_iff_toNat_le]
    exact UInt32.lt_iff_toNat_lt.mp hpos
  | coinbaseChange => exact .inl h
  | _ => trivial

/-! ### Checks -/

theorem addTraces_spec {t u : TracesCounters M} {Q : TracesCounters M → Calculators κ M → Prop}
    {E : Error → Calculators κ M → Prop} (hQ : ∀ sum, t.add u = some sum → Q sum s)
    (hE : t.add u = none → E .arithmetic s) :
    wp (addTraces t u) Q E s := by
  unfold addTraces
  split
  · exact hQ _ ‹_›
  · exact hE ‹_›

theorem check_spec (hdata : id ≠ .dataLimit) :
    wp ((calculator cfg C id).checkOverflow b) (fun r s' => Checked C b batches s s' ∧ (r = none → Ready cfg C b s' id))
      (fun e s' => Checked C b batches s s' ∧ e.isInternalCheck = false) s := by
  cases id with
  | dataLimit => exact absurd rfl hdata
  | targetBlockNumber =>
    unfold calculator byTargetBlockNumbers
    rw [wp_bind, wp_get]
    exact wp_ite (fun _ => ⟨.refl, nofun⟩) (fun _ => ⟨.refl, fun _ => trivial⟩)
  | tracesLimit =>
    unfold calculator byExecutionTraces
    rw [wp_bind, wp_get, wp_bind]
    refine addTraces_spec (fun sum hsum => ?_) (fun _ => ⟨.refl, rfl⟩)
    refine wp_ite (fun hle => ⟨.refl, fun _ => ⟨sum, hsum, .inl hle⟩⟩) (fun _ => ⟨.refl, nofun⟩)
  | blocksLimit =>
    unfold calculator byBlockLimit
    rw [wp_bind, wp_get]
    refine wp_ite (fun hlt => ⟨.refl, fun _ => ?_⟩) (fun _ => ⟨.refl, nofun⟩)
    have hlt' := UInt32.lt_iff_toNat_lt.mp hlt
    have := cfg.blockLimit.toNat_lt
    show s.blockCount + 1 ≤ cfg.blockLimit
    rw [UInt32.le_iff_toNat_le, UInt32.toNat_add, UInt32.toNat_one]
    omega
  | timestampHardFork =>
    unfold calculator byHardForkTimestamp
    rw [wp_bind, wp_get]
    exact wp_ite (fun _ => ⟨.refl, nofun⟩) (fun _ => ⟨.refl, fun _ => trivial⟩)
  | coinbaseChange =>
    unfold calculator byCoinbase
    rw [wp_bind, wp_get]
    cases hc : s.currentBatchCoinbase with
    | none => exact ⟨.refl, fun _ => .inl hc⟩
    | some coinbase =>
      refine wp_ite (fun _ => ⟨.refl, nofun⟩) (fun heq => ⟨.refl, fun _ => .inr ?_⟩)
      rw [hc, not_not.mp heq]
  | forcedTransaction =>
    unfold calculator byForcedTransaction
    rw [wp_bind, wp_modify, wp_bind, wp_get]
    exact wp_ite (fun _ => ⟨⟨rfl, rfl, rfl, rfl, id, rfl, .inl rfl⟩, nofun⟩)
      (fun _ => ⟨⟨rfl, rfl, rfl, rfl, id, rfl, .inl rfl⟩, fun _ => trivial⟩)
  | timeLimit => exact ⟨.refl, fun _ => trivial⟩

theorem dataCheckOverflow_spec (d : DataCompressed κ) (block : List UInt8) :
    wp (DataCompressed.checkOverflow C block)
      (fun r d' => d' =
        { d with lastValidatedBlock := some block, blobCompressor := (C.canAppendBlock d.blobCompressor block).2 } ∧
        (C.canAppendBlock d.blobCompressor block).1 = some r.isNone)
      (fun e d' => d' =
        { d with lastValidatedBlock := some block, blobCompressor := (C.canAppendBlock d.blobCompressor block).2 } ∧
        (C.canAppendBlock d.blobCompressor block).1 = none ∧ e = .blobCompression) d := by
  unfold DataCompressed.checkOverflow
  rw [wp_bind, wp_get]
  dsimp only
  rw [wp_bind, wp_set]
  split
  · exact ⟨rfl, ‹_›⟩
  · exact ⟨rfl, ‹_›⟩
  · exact ⟨rfl, ‹_›, rfl⟩

theorem dataCheck_spec (hC : C.Lawful batches Decodes) :
    wp ((calculator cfg C .dataLimit).checkOverflow b)
      (fun r s' => Checked C b batches s s' ∧ (r = none → Ready cfg C b s' .dataLimit) ∧
        s'.data.lastValidatedBlock = some b.blockRLPEncoded ∧ C.Reads b.blockRLPEncoded)
      (fun e s' => Checked C b batches s s' ∧ e.isInternalCheck = false) s := by
  show wp (onData _) _ _ s
  unfold onData
  rw [wp_zoom]
  refine wp_mono (dataCheckOverflow_spec s.data b.blockRLPEncoded) (fun r d' h => ?_) (fun e d' h => ?_)
  · obtain ⟨rfl, hcan⟩ := h
    refine ⟨⟨rfl, rfl, rfl, hC.check _ _, hC.check_again _ _, rfl, .inr rfl⟩, fun hr => ⟨rfl, ?_⟩, rfl,
      hC.reads _ _ (by rw [hcan]; nofun)⟩
    subst hr
    exact hC.check_again _ _ hcan
  · obtain ⟨rfl, -, rfl⟩ := h
    exact ⟨⟨rfl, rfl, rfl, hC.check _ _, hC.check_again _ _, rfl, .inr rfl⟩, rfl⟩

/-! ### Appending -/

theorem append_spec (hdata : id ≠ .dataLimit) (h : Ready cfg C b s id) :
    wp ((calculator cfg C id).appendBlock b)
      (fun _ s' => s'.data = s.data ∧ ∀ id', id' ≠ id → Ready cfg C b s id' → Ready cfg C b s' id')
      (fun _ _ => False) s := by
  have keep : ∀ s' : Calculators κ M, s'.data = s.data → (.tracesLimit ≠ id → s'.inprogressTracesCounters =
      s.inprogressTracesCounters) → (.blocksLimit ≠ id → s'.blockCount = s.blockCount) →
      (.coinbaseChange ≠ id → s'.currentBatchCoinbase = s.currentBatchCoinbase) →
      s'.data = s.data ∧ ∀ id', id' ≠ id → Ready cfg C b s id' → Ready cfg C b s' id' := by
    intro s' hd ht hb hc
    refine ⟨hd, fun id' hne hr => ?_⟩
    cases id' with
    | tracesLimit => simpa only [Ready, ht hne] using hr
    | dataLimit => simpa only [Ready, hd] using hr
    | blocksLimit => simpa only [Ready, hb hne] using hr
    | coinbaseChange => simpa only [Ready, hc hne] using hr
    | _ => trivial
  cases id with
  | dataLimit => exact absurd rfl hdata
  | targetBlockNumber => exact keep _ rfl (fun _ => rfl) (fun _ => rfl) (fun _ => rfl)
  | tracesLimit =>
    obtain ⟨sum, hsum, hok⟩ := h
    unfold calculator byExecutionTraces
    rw [wp_bind, wp_get, wp_bind]
    refine addTraces_spec (fun sum' hsum' => ?_) (fun hnone => by simp [hsum] at hnone)
    obtain rfl : sum = sum' := Option.some.inj (hsum.symm.trans hsum')
    refine wp_ite (fun hover => ?_) (fun _ => keep _ rfl (fun hne => absurd rfl hne) (fun _ => rfl) (fun _ => rfl))
    rw [Bool.and_eq_true, Bool.not_eq_true', decide_eq_true_eq] at hover
    rcases hok with hok | hok
    · exact Bool.false_ne_true (hover.1.symm.trans hok)
    · exact hover.2 hok
  | blocksLimit =>
    unfold calculator byBlockLimit
    rw [wp_bind, wp_get]
    refine wp_ite (fun hgt => ?_) (fun _ => ?_)
    · exact absurd h (UInt32.not_le.mpr hgt)
    · exact keep _ rfl (fun _ => rfl) (fun hne => absurd rfl hne) (fun _ => rfl)
  | timestampHardFork => exact keep _ rfl (fun _ => rfl) (fun _ => rfl) (fun _ => rfl)
  | coinbaseChange =>
    unfold calculator byCoinbase
    rw [wp_bind, wp_get]
    split
    · exact keep _ rfl (fun _ => rfl) (fun _ => rfl) (fun hne => absurd rfl hne)
    · next coinbase hc =>
      refine wp_ite (fun hne => ?_) (fun _ => keep _ rfl (fun _ => rfl) (fun _ => rfl) (fun _ => rfl))
      rcases h with h | h
      · simp [hc] at h
      · rw [hc, Option.some.injEq] at h
        exact hne h.symm
  | forcedTransaction => exact keep _ rfl (fun _ => rfl) (fun _ => rfl) (fun _ => rfl)
  | timeLimit => exact keep _ rfl (fun _ => rfl) (fun _ => rfl) (fun _ => rfl)

theorem dataAppend_spec (hC : C.Lawful batches Decodes) (h : Ready cfg C b s .dataLimit) :
    wp ((calculator cfg C .dataLimit).appendBlock b)
      (fun _ s' => (batches s'.data.blobCompressor = (batches s.data.blobCompressor).append b.blockRLPEncoded ∧
          s'.data.dataDrained = false) ∧
        ∀ id', id' ≠ .dataLimit → Ready cfg C b s id' → Ready cfg C b s' id')
      (fun _ _ => False) s := by
  obtain ⟨hvalid, hcan⟩ := h
  obtain ⟨r, c', happ, hr, hbatches⟩ := hC.append _ _ hcan
  show wp (onData _) _ _ s
  unfold onData DataCompressed.appendBlock
  rw [wp_zoom, wp_bind, wp_get, if_neg (not_not.mpr hvalid)]
  simp only [happ, hr, Bool.not_true, Bool.false_eq_true, if_false, wp_bind, wp_set]
  refine ⟨⟨hbatches, rfl⟩, fun id' hne hr' => ?_⟩
  cases id' with
  | dataLimit => exact absurd rfl hne
  | _ => exact hr'

/-! ### Resetting -/

def resetAll (cfg : CalculatorsConfig M) (C : BlobCompressor κ) (ids : List CalculatorId) (s : Calculators κ M) :
    Calculators κ M :=
  ids.foldl (fun s id => (calculator cfg C id).reset s) s

theorem fresh_reset_self : Fresh ((calculator cfg C id).reset s) id := by
  cases id <;> first | rfl | trivial

theorem fresh_reset (h : Fresh s id') : Fresh ((calculator cfg C id).reset s) id' := by
  by_cases hid : id' = id
  · rw [hid]
    exact fresh_reset_self
  · cases id <;> cases id' <;> first | exact h | exact absurd rfl hid

theorem fresh_resetAll {ids : List CalculatorId} (h : id ∈ ids ∨ Fresh s id) : Fresh (resetAll cfg C ids s) id := by
  induction ids generalizing s with
  | nil => exact h.resolve_left (by simp)
  | cons id' ids ih =>
    refine ih ?_
    rw [List.mem_cons] at h
    rcases h with (rfl | h) | h
    · exact .inr fresh_reset_self
    · exact .inl h
    · exact .inr (fresh_reset h)

theorem data_resetAll {P : DataCompressed κ → Prop} (hP : ∀ d, P d → P (d.reset C)) {ids : List CalculatorId}
    (h : P s.data) : P (resetAll cfg C ids s).data := by
  induction ids generalizing s with
  | nil => exact h
  | cons id ids ih =>
    refine ih ?_
    cases id with
    | dataLimit => exact hP _ h
    | _ => exact h

end Calculators

end Lineth.Conflation
