import Lineth.Conflation.Domain

/-!
# The block conflation calculator

`GlobalBlockConflationCalculator` groups the blocks it receives into conflations. Each trigger calculator may ask to
close the conflation in flight before a block is appended, a deferred one at any other time. The calculators and the
consumer of the conflations are arbitrary programs on a state `σ` and may throw. Whatever they do, the conflations
accepted and the blocks in flight tile the blocks received. -/

namespace Lineth.Conflation

open Exec Intervals

variable {σ M : Type}

structure ConflationTriggerCalculator (σ M : Type) where
  checkOverflow : BlockCounters M → EStateM Error σ (Option OverflowTrigger)
  appendBlock : BlockCounters M → EStateM Error σ Unit
  reset : σ → σ
  copyCountersTo : σ → ConflationCounters M → ConflationCounters M

structure InflightConflation (M : Type) where
  startBlockNumber : Option UInt64
  counters : ConflationCounters M

/-- The fields of the calculator, the conflations its consumer accepted, and the state of the objects it calls. -/
structure BlockState (σ M : Type) where
  lastBlockNumber : UInt64
  inflightConflation : InflightConflation M
  emitted : List (ConflationCalculationResult M)
  env : σ

structure GlobalBlockConflationCalculator (σ M : Type) where
  calculators : List (ConflationTriggerCalculator σ M)
  emptyTracesCounters : TracesCounters M
  conflationConsumer : ConflationCalculationResult M → EStateM Error σ Unit

namespace InflightConflation

def empty (emptyTracesCounters : TracesCounters M) : InflightConflation M :=
  ⟨none, { tracesCounters := emptyTracesCounters }⟩

def toConflationResult {ρ : Type} (i : InflightConflation M) (endBlockNumber : UInt64) (trigger : ConflationTrigger) :
    EStateM Error ρ (ConflationCalculationResult M) :=
  match i.startBlockNumber with
  | none => throw .nullPointer
  | some startBlockNumber => do
    let interval ← BlockInterval.create startBlockNumber endBlockNumber
    pure { interval with conflationTrigger := trigger, tracesCounters := i.counters.tracesCounters }

end InflightConflation

namespace BlockState

def call {α : Type} (x : EStateM Error σ α) : EStateM Error (BlockState σ M) α :=
  zoom env (fun e s => { s with env := e }) x

def setCounters (s : BlockState σ M) (c : ConflationCounters M) : BlockState σ M :=
  { s with inflightConflation := { s.inflightConflation with counters := c } }

def copyCounters (calculator : ConflationTriggerCalculator σ M) (s : BlockState σ M) : BlockState σ M :=
  s.setCounters (calculator.copyCountersTo s.env s.inflightConflation.counters)

end BlockState

namespace GlobalBlockConflationCalculator

variable (g : GlobalBlockConflationCalculator σ M)

def initial (lastBlockNumber : UInt64) (env : σ) : BlockState σ M :=
  ⟨lastBlockNumber, .empty g.emptyTracesCounters, [], env⟩

def reset (s : BlockState σ M) : BlockState σ M :=
  { s with
    env := g.calculators.foldl (fun e c => c.reset e) s.env
    inflightConflation := .empty g.emptyTracesCounters }

/-- A conflation counts as emitted once the consumer returns. -/
def fireConflationAndResetState (endBlockNumber : UInt64) (conflationTrigger : ConflationTrigger) :
    EStateM Error (BlockState σ M) Unit := do
  g.calculators.forM fun c => modify (BlockState.copyCounters c)
  let s ← get
  let conflationResult ← s.inflightConflation.toConflationResult endBlockNumber conflationTrigger
  BlockState.call (g.conflationConsumer conflationResult)
  modify fun s => g.reset { s with emitted := s.emitted ++ [conflationResult] }

def handleConflationTrigger (trigger : ConflationTrigger) : EStateM Error (BlockState σ M) Unit := do
  g.fireConflationAndResetState (← get).lastBlockNumber trigger

def ensureBlockIsInOrder (blockNumber : UInt64) : EStateM Error (BlockState σ M) Unit := do
  let s ← get
  if blockNumber ≠ s.lastBlockNumber + 1 then throw (.notSequential s.lastBlockNumber blockNumber)

/-- The triggers raised by a block, by priority; equal priorities stay in the order of the calculators. -/
def overflowTriggers (b : BlockCounters M) : EStateM Error (BlockState σ M) (List OverflowTrigger) := do
  let triggers ← mapNotNull (fun c => BlockState.call (c.checkOverflow b)) g.calculators
  pure (triggers.mergeSort fun t u => t.trigger.triggerPriority ≤ u.trigger.triggerPriority)

def startConflation (blockNumber : UInt64) (s : BlockState σ M) : BlockState σ M :=
  { s with inflightConflation :=
      { s.inflightConflation with
        startBlockNumber := some (s.inflightConflation.startBlockNumber.getD blockNumber) } }

def appendBlock (b : BlockCounters M) : EStateM Error (BlockState σ M) Unit :=
  g.calculators.forM fun c => do
    BlockState.call (c.appendBlock b)
    modify (BlockState.copyCounters c)

/-- Closes the conflation in flight, if there is one, for the first of the triggers. -/
def flush (triggers : List OverflowTrigger) : EStateM Error (BlockState σ M) Unit := do
  let s ← get
  match triggers with
  | [] => pure ()
  | t :: _ =>
    if s.inflightConflation.startBlockNumber.isSome then
      g.fireConflationAndResetState s.lastBlockNumber t.trigger

def conflateBlock (b : BlockCounters M) : EStateM Error (BlockState σ M) Unit := do
  let triggers ← g.overflowTriggers b
  g.flush triggers
  modify (startConflation b.blockNumber)
  g.appendBlock b
  modify fun s => { s with lastBlockNumber := b.blockNumber }

def newBlock (b : BlockCounters M) : EStateM Error (BlockState σ M) Unit := do
  ensureBlockIsInOrder b.blockNumber
  g.conflateBlock b

end GlobalBlockConflationCalculator

/-! ### What one call keeps -/

namespace BlockState

/-- The fields that decide the conflations are the same; calculators and the counters in flight may differ. -/
structure Same (s s' : BlockState σ M) : Prop where
  last : s'.lastBlockNumber = s.lastBlockNumber
  start : s'.inflightConflation.startBlockNumber = s.inflightConflation.startBlockNumber
  emitted : s'.emitted = s.emitted

theorem Same.refl (s : BlockState σ M) : Same s s := ⟨rfl, rfl, rfl⟩

variable {s s' : BlockState σ M}

theorem call_same {α : Type} (x : EStateM Error σ α) (h : Same s s') :
    wp (call x) (fun _ => Same s) (fun _ => Same s) s' := by
  unfold call
  rw [wp_zoom]
  exact wp_intro (fun _ _ _ => ⟨h.last, h.start, h.emitted⟩) (fun _ _ _ => ⟨h.last, h.start, h.emitted⟩)

theorem copyCounters_same (c : ConflationTriggerCalculator σ M) (h : Same s s') :
    Same s (copyCounters c s') :=
  ⟨h.last, h.start, h.emitted⟩

/-- The emitted conflations tile the blocks after `init`, and the one in flight, if any, starts right after them. -/
structure Partition (init : UInt64) (s : BlockState σ M) : Prop where
  tiles : ∃ e, Tiles (·.lo) (·.hi) init.toNat (s.emitted.map (·.toBlockInterval)) e ∧
    ∀ n, (s.inflightConflation.startBlockNumber = none → s.lastBlockNumber.toNat = e) ∧
      (s.inflightConflation.startBlockNumber = some n → n.toNat = e + 1 ∧ e ≤ s.lastBlockNumber.toNat)

theorem Partition.of_same {init : UInt64} (h : Partition init s) (hs : Same s s') :
    Partition init s' := by
  obtain ⟨e, ht, he⟩ := h.tiles
  exact ⟨e, by rwa [hs.emitted], by rwa [hs.start, hs.last]⟩

theorem Partition.hi_le {init : UInt64} {s : BlockState σ M} (h : Partition init s) {c : ConflationCalculationResult M}
    (hc : c ∈ s.emitted) : c.hi ≤ s.lastBlockNumber.toNat := by
  obtain ⟨e, ht, he⟩ := h.tiles
  have hle := (ht.mem_le (List.mem_map_of_mem hc)).2.2
  cases hs : s.inflightConflation.startBlockNumber with
  | none =>
    rw [(he 0).1 hs]
    exact hle
  | some n => exact hle.trans ((he n).2 hs).2

end BlockState

namespace GlobalBlockConflationCalculator

open BlockState

variable {g : GlobalBlockConflationCalculator σ M} {init : UInt64} {s : BlockState σ M}

theorem toConflationResult_spec {ρ : Type} {r : ρ} (i : InflightConflation M) (n : UInt64) (t : ConflationTrigger)
    {Q : ConflationCalculationResult M → ρ → Prop} {E : Error → ρ → Prop}
    (hQ : ∀ c : ConflationCalculationResult M, i.startBlockNumber = some c.startBlockNumber → c.endBlockNumber = n →
      c.conflationTrigger = t → c.tracesCounters = i.counters.tracesCounters → Q c r)
    (hnull : i.startBlockNumber = none → E .nullPointer r)
    (hlt : ∀ m, i.startBlockNumber = some m → n < m → E (.startAfterEnd m n) r) :
    wp (i.toConflationResult n t) Q E r := by
  unfold InflightConflation.toConflationResult
  split
  · exact hnull ‹_›
  · next m hm =>
    rw [wp_bind]
    unfold BlockInterval.create
    split
    · exact hQ _ hm rfl rfl rfl
    · exact hlt m hm (UInt64.not_le.mp ‹_›)

theorem copyCounters_env (s : BlockState σ M) (l : List (ConflationTriggerCalculator σ M))
    {E : Error → BlockState σ M → Prop} :
    wp (l.forM fun c => modify (copyCounters c)) (fun _ s' => Same s s' ∧ s'.env = s.env) E s :=
  wp_forM (fun c _ _ hs' => ⟨copyCounters_same c hs'.1, hs'.2⟩) ⟨Same.refl s, rfl⟩

/-- Closing a conflation that has a block, in terms of what the consumer does with it. -/
theorem fire_consumer {n : UInt64} {t : ConflationTrigger} {Q : ConflationCalculationResult M → σ → Prop}
    {E : ConflationCalculationResult M → Error → σ → Prop} (hstart : s.inflightConflation.startBlockNumber = some n)
    (hle : n ≤ s.lastBlockNumber)
    (hcons : ∀ c : ConflationCalculationResult M, c.startBlockNumber = n → c.endBlockNumber = s.lastBlockNumber →
      c.conflationTrigger = t → wp (g.conflationConsumer c) (fun _ => Q c) (E c) s.env) :
    wp (g.fireConflationAndResetState s.lastBlockNumber t)
      (fun _ s' => s'.lastBlockNumber = s.lastBlockNumber ∧ s'.inflightConflation.startBlockNumber = none ∧
        ∃ c e, s'.emitted = s.emitted ++ [c] ∧ Q c e ∧ s'.env = g.calculators.foldl (fun e c => c.reset e) e)
      (fun err s' => ∃ c, E c err s'.env) s := by
  unfold fireConflationAndResetState
  rw [wp_bind]
  refine wp_mono (copyCounters_env s g.calculators) ?_
  rintro _ s₁ ⟨h₁, henv⟩
  rw [wp_bind, wp_get, wp_bind]
  refine toConflationResult_spec _ _ _ (fun c hc hend ht _ => ?_) (fun hnone => ?_) (fun m hm hlt => ?_)
  · rw [h₁.start, hstart, Option.some.injEq] at hc
    rw [wp_bind]
    unfold call
    rw [wp_zoom, henv]
    refine wp_mono (hcons c hc.symm hend ht) (fun _ e he => ?_) (fun err e he => ⟨c, he⟩)
    rw [wp_modify]
    refine ⟨h₁.last, rfl, c, e, ?_, he, rfl⟩
    show s₁.emitted ++ [c] = _
    rw [h₁.emitted]
  · rw [h₁.start, hstart] at hnone
    simp at hnone
  · rw [h₁.start, hstart, Option.some.injEq] at hm
    rw [← hm] at hlt
    exact absurd hle (UInt64.not_le.mpr hlt)

variable (t : ConflationTrigger)

theorem fire_spec :
    wp (g.fireConflationAndResetState s.lastBlockNumber t)
      (fun _ s' => s'.lastBlockNumber = s.lastBlockNumber ∧ s'.inflightConflation.startBlockNumber = none ∧
        ∃ c : ConflationCalculationResult M, s'.emitted = s.emitted ++ [c] ∧
          s.inflightConflation.startBlockNumber = some c.startBlockNumber ∧ c.endBlockNumber = s.lastBlockNumber)
      (fun _ s' => Same s s') s := by
  unfold fireConflationAndResetState
  rw [wp_bind]
  refine wp_mono (wp_forM (fun c _ s' hs' => copyCounters_same c hs') (Same.refl s)) (fun _ s₁ h₁ => ?_)
  rw [wp_bind, wp_get, wp_bind]
  refine toConflationResult_spec _ _ _ (fun c hstart hend _ _ => ?_) (fun _ => h₁) (fun _ _ _ => h₁)
  rw [wp_bind]
  refine wp_mono (call_same _ h₁) (fun _ s₂ h₂ => ?_)
  rw [wp_modify]
  refine ⟨h₂.last, rfl, c, ?_, by rw [← h₁.start, hstart], hend⟩
  show s₂.emitted ++ [c] = _
  rw [h₂.emitted]

theorem fire_partition (h : Partition init s) :
    wp (g.fireConflationAndResetState s.lastBlockNumber t)
      (fun _ s' => Partition init s' ∧ s'.lastBlockNumber = s.lastBlockNumber)
      (fun _ s' => Same s s') s := by
  refine wp_mono (fire_spec t) (fun _ s' => ?_)
  rintro ⟨hlast, hnone, c, hem, hstart, hend⟩
  refine ⟨⟨c.hi, ?_, fun n => ⟨fun _ => by rw [hlast, ← hend]; rfl, fun hn => by simp [hnone] at hn⟩⟩, hlast⟩
  obtain ⟨e, ht, he⟩ := h.tiles
  obtain ⟨hlo, -⟩ := (he c.startBlockNumber).2 hstart
  replace hlo : c.lo = e + 1 := hlo
  rw [hem, List.map_append, List.map_singleton, tiles_concat]
  exact ⟨by rw [hlo]; exact ht, by omega, c.lo_le_hi, rfl⟩

variable (b : BlockCounters M)

theorem overflowTriggers_same :
    wp (g.overflowTriggers b) (fun _ => Same s) (fun _ => Same s) s := by
  unfold overflowTriggers
  rw [wp_bind]
  exact wp_mapNotNull (fun c _ s' hs' => call_same _ hs') (Same.refl s)

theorem flush_partition (ts : List OverflowTrigger) (h : Partition init s) :
    wp (g.flush ts) (fun _ s' => Partition init s' ∧ s'.lastBlockNumber = s.lastBlockNumber)
      (fun _ s' => Same s s') s := by
  unfold flush
  rw [wp_bind, wp_get]
  cases ts with
  | nil => exact ⟨h, rfl⟩
  | cons t ts => exact wp_ite (fun _ => fire_partition _ h) (fun _ => ⟨h, rfl⟩)

theorem appendBlock_same : wp (g.appendBlock b) (fun _ => Same s) (fun _ => Same s) s := by
  unfold appendBlock
  refine wp_forM (fun c _ s' hs' => ?_) (Same.refl s)
  rw [wp_bind]
  exact wp_mono (call_same _ hs') (fun _ _ h => copyCounters_same c h)

/-- A block that the calculator takes: the conflation in flight has been started at the latest by this block. -/
theorem startConflation_partition {n : UInt64} (h : Partition init s) (hn : n.toNat = s.lastBlockNumber.toNat + 1) :
    Partition init (startConflation n s) := by
  obtain ⟨e, ht, he⟩ := h.tiles
  refine ⟨e, ht, fun m => ⟨fun hm => by simp [startConflation] at hm, fun hm => ?_⟩⟩
  cases hs : s.inflightConflation.startBlockNumber with
  | none =>
    have hlast := (he n).1 hs
    simp only [startConflation, hs, Option.getD_none, Option.some.injEq] at hm
    show m.toNat = e + 1 ∧ e ≤ s.lastBlockNumber.toNat
    rw [← hm]
    omega
  | some k =>
    simp only [startConflation, hs, Option.getD_some, Option.some.injEq] at hm
    exact (he m).2 (by rw [hs, hm])

theorem newBlock_partition (hb : b.blockNumber ≠ 0) (h : Partition init s) :
    wp (g.newBlock b)
      (fun _ s' => Partition init s' ∧ s'.lastBlockNumber = b.blockNumber ∧
        b.blockNumber.toNat = s.lastBlockNumber.toNat + 1)
      (fun _ s' => Partition init s' ∧ s'.lastBlockNumber = s.lastBlockNumber) s := by
  unfold newBlock ensureBlockIsInOrder conflateBlock
  rw [wp_bind, wp_bind, wp_get]
  refine wp_ite (fun _ => ⟨h, rfl⟩) (fun hseq => ?_)
  have hnum := toNat_of_eq_succ (not_not.mp hseq) hb
  rw [wp_pure, wp_bind]
  refine wp_mono (overflowTriggers_same b) (fun ts s₁ h₁ => ?_) (fun _ _ hs => ⟨h.of_same hs, hs.last⟩)
  rw [wp_bind]
  refine wp_mono (flush_partition ts (h.of_same h₁)) (fun _ s₂ h₂ => ?_)
    (fun _ _ hs => ⟨(h.of_same h₁).of_same hs, hs.last.trans h₁.last⟩)
  obtain ⟨h₂, hlast₂⟩ := h₂
  rw [h₁.last] at hlast₂
  have h₃ : Partition init (startConflation b.blockNumber s₂) := startConflation_partition h₂ (by rw [hlast₂, hnum])
  rw [wp_bind, wp_modify, wp_bind]
  refine wp_mono (appendBlock_same b) (fun _ s₄ h₄ => ?_) (fun _ _ hs => ⟨h₃.of_same hs, hs.last.trans hlast₂⟩)
  rw [wp_modify]
  refine ⟨?_, rfl, hnum⟩
  obtain ⟨e, ht, he⟩ := (h₃.of_same h₄).tiles
  refine ⟨e, ht, fun n => ⟨fun hn => ?_, fun hn => ?_⟩⟩
  · rw [h₄.start] at hn
    simp [startConflation] at hn
  · have hle := (he n).2 hn
    rw [h₄.last] at hle
    replace hle : n.toNat = e + 1 ∧ e ≤ s₂.lastBlockNumber.toNat := hle
    rw [hlast₂] at hle
    exact ⟨hle.1, by show e ≤ b.blockNumber.toNat; omega⟩

end GlobalBlockConflationCalculator

end Lineth.Conflation
