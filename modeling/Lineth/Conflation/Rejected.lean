import Lineth.Conflation.Blobs
import Lineth.Lib.Lockstep

/-!
# Rejected blocks

`newBlock` of the blob aware calculator records the counters of a block before the order of the blocks is checked, so
those of a rejected block stay behind. A run that goes on with them cannot be told from one that goes on without when
the number of the rejected block lies below the open blob or has counters already, since the lookups then give the
same. -/

namespace Lineth.Conflation

open Exec Calculators GlobalBlockConflationCalculator List
open GlobalBlobAwareConflationCalculator hiding newBlock initial step run

variable {κ M : Type} {a : GlobalBlobAwareConflationCalculator κ M} {k : Nat} {p : Prop} {e e' : BlobState κ M}
  {s s' : BlockState (BlobState κ M) M} {b : BlockCounters M}

def BlobState.lookup (e : BlobState κ M) (blockNumber : UInt64) : Option (BlockCounters M) :=
  e.blobBlockCounters.find? (·.blockNumber == blockNumber)

/-- Two states that differ in the counters of blocks only, and there neither in the lookups from `k` on, where the
batches of the open blob lie, nor, if `p`, in the block counted last. -/
structure Twin (k : Nat) (p : Prop) (e e' : BlobState κ M) : Prop where
  same : ∃ l, e' = { e with blobBlockCounters := l }
  batches : ∀ c ∈ e.blobBatches, k ≤ c.lo
  lookup : ∀ n : UInt64, k ≤ n.toNat → e'.lookup n = e.lookup n
  last : p → e'.blobBlockCounters.getLast? = e.blobBlockCounters.getLast?

namespace Twin

section

variable (h : Twin k p e e')

include h

theorem weaken : Twin k False e e' := ⟨h.same, h.batches, h.lookup, False.elim⟩

theorem calculators : e'.calculators = e.calculators := by
  obtain ⟨l, rfl⟩ := h.same
  rfl

theorem setCalculators (q : Calculators κ M) :
    Twin k p { e with calculators := q } { e' with calculators := q } := by
  obtain ⟨l, rfl⟩ := h.same
  exact ⟨⟨l, rfl⟩, h.batches, h.lookup, h.last⟩

theorem zoom_lockstep {α : Type} (x : EStateM Error (Calculators κ M) α) :
    lockstep (zoom BlobState.calculators (fun q s => { s with calculators := q }) x)
      (zoom BlobState.calculators (fun q s => { s with calculators := q }) x) (fun _ => Twin k p) (Twin k p) e e' := by
  apply lockstep_zoom
  rw [h.calculators]
  refine lockstep_mono (lockstep_self x e.calculators) (fun _ q q' hq => ?_) (fun q q' hq => ?_)
  · rw [hq]
    exact h.setCalculators q
  · rw [hq]
    exact h.setCalculators q

theorem findCounters_eq {n : UInt64} (hn : k ≤ n.toNat) : findCounters n e' = findCounters n e := by
  have hl := h.lookup n hn
  unfold BlobState.lookup at hl
  unfold findCounters
  rw [hl]

theorem batch {c : ConflationCalculationResult M} (hc : k ≤ c.lo) :
    Twin k p (addBatch c e) (addBatch c e') := by
  obtain ⟨l, rfl⟩ := h.same
  refine ⟨⟨l, rfl⟩, fun d hd => ?_, h.lookup, h.last⟩
  rcases mem_append.mp hd with hd | hd
  · exact h.batches d hd
  · rw [mem_singleton.mp hd]
    exact hc

theorem targetEndBlock (c : ConflationCalculationResult M) :
    Twin k p (addTargetEndBlock c e) (addTargetEndBlock c e') := by
  obtain ⟨l, rfl⟩ := h.same
  unfold addTargetEndBlock
  split
  · exact ⟨⟨l, rfl⟩, h.batches, h.lookup, h.last⟩
  · exact h

end

theorem lookup_closeBlob (blob : Blob M) (n : UInt64) :
    (a.closeBlob blob e).lookup n = if e.blobBatches.any (·.contains n) then none else e.lookup n := by
  unfold BlobState.lookup closeBlob
  rw [find?_filter]
  split
  · next hn =>
    rw [find?_eq_none]
    intro b _ hb
    simp only [decide_eq_true_eq, beq_iff_eq] at hb
    rw [hb.2, hn] at hb
    simp at hb
  · next hn =>
    congr 1
    funext b
    by_cases hb : b.blockNumber = n
    · simp [hb, hn]
    · simp [hb]

theorem close (h : Twin k p e e') (blob : Blob M) : Twin k False (a.closeBlob blob e) (a.closeBlob blob e') := by
  have hl := h.lookup
  obtain ⟨l, rfl⟩ := h.same
  refine ⟨⟨_, rfl⟩, fun c hc => (by cases hc), fun n hn => ?_, False.elim⟩
  rw [lookup_closeBlob, lookup_closeBlob, hl n hn]

end Twin

theorem stateless_findCounters (n : UInt64) (e : BlobState κ M) : Stateless (findCounters n e) := by
  unfold findCounters
  split
  · exact .inl ⟨_, rfl⟩
  · exact .inr ⟨_, rfl⟩

theorem stateless_blob_create {σ : Type} (cs : List (ConflationCalculationResult M)) (data : List UInt8) (t₁ t₂ : Int) :
    Stateless (Blob.create cs data t₁ t₂ : EStateM Error σ (Blob M)) := by
  unfold Blob.create
  split
  · split
    · exact .inl ⟨_, rfl⟩
    · exact .inr ⟨_, rfl⟩
  · exact .inr ⟨_, rfl⟩

theorem fireBlob_lockstep (h : Twin k p e e') : lockstep a.fireBlobTriggerAndResetState a.fireBlobTriggerAndResetState
    (fun _ => Twin k False) (Twin k False) e e' := by
  unfold fireBlobTriggerAndResetState GlobalBlobAwareConflationCalculator.onData
  refine lockstep_bind (lockstep_mono (h.zoom_lockstep _)
    (fun data t t' h => lockstep_get_bind ?_) fun _ _ h => h.weaken)
  have hbatches : t'.blobBatches = t.blobBatches := by
    obtain ⟨l, rfl⟩ := h.same
    rfl
  rw [hbatches]
  split
  · next first final hfirst hfinal =>
    have hlo : k ≤ first.startBlockNumber.toNat := h.batches first (mem_of_mem_head? hfirst)
    have hhi : k ≤ final.endBlockNumber.toNat :=
      (h.batches final (mem_of_mem_getLast? hfinal)).trans final.lo_le_hi
    unfold BlockInterval.create
    split
    case isFalse => exact lockstep_bind (lockstep_throw h.weaken)
    refine lockstep_bind (lockstep_pure ?_)
    rw [h.findCounters_eq hlo, h.findCounters_eq hhi]
    refine (stateless_findCounters _ _).lockstep_bind (fun startCounters _ => ?_) h.weaken
    refine (stateless_findCounters _ _).lockstep_bind (fun endCounters _ => ?_) h.weaken
    exact (stateless_blob_create _ _ _ _).lockstep_bind (fun blob _ => lockstep_modify (h.close blob)) h.weaken
  · exact lockstep_throw h.weaken

theorem handleBatchTrigger_lockstep (h : Twin k p e e') {c : ConflationCalculationResult M} (hlo : k ≤ c.lo)
    (hnext : c.conflationTrigger ∈ blobCutOffTriggers ∨ p) :
    lockstep (a.handleBatchTrigger c) (a.handleBatchTrigger c) (fun _ => Twin k False) (Twin k False) e e' := by
  have hcount : (addBatch c e').numberOfBatches = (addBatch c e).numberOfBatches := by
    obtain ⟨l, rfl⟩ := h.same
    rfl
  replace h := h.batch hlo
  unfold handleBatchTrigger
  refine lockstep_bind (lockstep_modify (lockstep_get_bind ?_))
  rw [hcount]
  split
  · exact lockstep_bind (lockstep_modify (fireBlob_lockstep (h.targetEndBlock c)))
  · next hcut =>
    -- the block checked against the compressor is the last one counted
    rw [h.last (hnext.resolve_left fun hc => hcut (.inl hc))]
    refine lockstep_bind (lockstep_mono (h.zoom_lockstep _) (fun _ t t' h => ?_) fun _ _ h => h.weaken)
    split
    · exact lockstep_throw h.weaken
    · refine lockstep_bind (lockstep_mono (h.zoom_lockstep _) (fun _ t t' h => ?_) fun _ _ h => h.weaken)
      split
      · exact fireBlob_lockstep h
      · exact lockstep_pure h.weaken

/-! ### The block conflation calculator -/

/-- The same of the whole state; no block below `k` is in flight or still to come. -/
structure Twins (k : Nat) (p : Prop) (s s' : BlockState (BlobState κ M) M) : Prop where
  same : ∃ e, s' = { s with env := e }
  env : Twin k p s.env s'.env
  next : k ≤ s.lastBlockNumber.toNat + 1
  start : ∀ n, s.inflightConflation.startBlockNumber = some n → k ≤ n.toNat

namespace Twins

section

variable (h : Twins k p s s')

include h

theorem weaken : Twins k False s s' := ⟨h.same, h.env.weaken, h.next, h.start⟩

theorem setEnv {q : Prop} (he : Twin k q e e') :
    Twins k q { s with env := e } { s' with env := e' } := by
  obtain ⟨e₀, rfl⟩ := h.same
  exact ⟨⟨e', rfl⟩, he, h.next, h.start⟩

theorem lastBlockNumber : s'.lastBlockNumber = s.lastBlockNumber := by
  obtain ⟨e, rfl⟩ := h.same
  rfl

theorem inflight : s'.inflightConflation = s.inflightConflation := by
  obtain ⟨e, rfl⟩ := h.same
  rfl

theorem call_lockstep {α : Type} (x : EStateM Error (Calculators κ M) α) :
    lockstep (BlockState.call (zoom BlobState.calculators (fun q s => { s with calculators := q }) x))
      (BlockState.call (zoom BlobState.calculators (fun q s => { s with calculators := q }) x))
      (fun _ => Twins k p) (Twins k p) s s' :=
  lockstep_zoom (lockstep_mono (h.env.zoom_lockstep x) (fun _ _ _ ht => h.setEnv ht) fun _ _ ht => h.setEnv ht)

theorem copy (c : ConflationTriggerCalculator (Calculators κ M) M) :
    Twins k p (BlockState.copyCounters c.lift s) (BlockState.copyCounters c.lift s') := by
  have hcalc := h.env.calculators
  obtain ⟨e, rfl⟩ := h.same
  refine ⟨⟨e, ?_⟩, h.env, h.next, h.start⟩
  simp only [BlockState.copyCounters, BlockState.setCounters, ConflationTriggerCalculator.lift] at hcalc ⊢
  rw [hcalc]

theorem mapCalculators (f : Calculators κ M → Calculators κ M) :
    Twins k p (GlobalBlobAwareConflationCalculator.mapCalculators f s)
      (GlobalBlobAwareConflationCalculator.mapCalculators f s') := by
  unfold GlobalBlobAwareConflationCalculator.mapCalculators
  rw [h.env.calculators]
  exact h.setEnv (h.env.setCalculators _)

theorem add (b : BlockCounters M) : Twins k True (addCounters b s) (addCounters b s') := by
  refine h.setEnv ⟨?_, h.env.batches, fun n hn => ?_, fun _ => by simp⟩
  · obtain ⟨l, hl⟩ := h.env.same
    exact ⟨l ++ [b], by rw [hl]⟩
  · have hl := h.env.lookup n hn
    unfold BlobState.lookup at hl ⊢
    rw [find?_append, find?_append, hl]

theorem startBlock {n : UInt64} (hn : k ≤ n.toNat) :
    Twins k p (startConflation n s) (startConflation n s') := by
  obtain ⟨e, rfl⟩ := h.same
  refine ⟨⟨e, rfl⟩, h.env, h.next, fun m hm => ?_⟩
  simp only [startConflation, Option.some.injEq] at hm
  cases hs : s.inflightConflation.startBlockNumber with
  | none => rwa [← hm, hs]
  | some start =>
    rw [← hm, hs]
    exact h.start start hs

end

end Twins

variable [Fintype M]

theorem overflowTriggers_lockstep (b : BlockCounters M) (h : Twins k p s s') :
    lockstep (a.conflationCalculator.overflowTriggers b) (a.conflationCalculator.overflowTriggers b)
      (fun _ => Twins k p) (Twins k p) s s' := by
  unfold overflowTriggers conflationCalculator
  rw [mapNotNull_map]
  exact lockstep_bind (lockstep_mono (lockstep_mapNotNull (fun _ _ _ ht => ht.call_lockstep _) h)
    (fun _ _ _ ht => lockstep_pure ht))

theorem appendBlock_lockstep (b : BlockCounters M) (h : Twins k p s s') :
    lockstep (a.conflationCalculator.appendBlock b) (a.conflationCalculator.appendBlock b)
      (fun _ => Twins k p) (Twins k p) s s' := by
  unfold GlobalBlockConflationCalculator.appendBlock conflationCalculator
  rw [List.forM_eq_forM, List.forM_map]
  refine lockstep_forM (fun id t t' ht => ?_) h
  exact lockstep_bind (lockstep_mono (ht.call_lockstep _) (fun _ _ _ ht => lockstep_modify (ht.copy _)))

theorem fire_lockstep (h : Twins k p s s') {n : UInt64} {t : ConflationTrigger} (hnext : t ∈ blobCutOffTriggers ∨ p) :
    lockstep (a.conflationCalculator.fireConflationAndResetState n t)
      (a.conflationCalculator.fireConflationAndResetState n t) (fun _ => Twins k False) (Twins k False) s s' := by
  unfold fireConflationAndResetState
  refine lockstep_bind (lockstep_mono (Q := fun _ => Twins k p) ?_ (fun _ u u' h => lockstep_get_bind ?_))
  · unfold conflationCalculator
    rw [List.forM_eq_forM, List.forM_map]
    exact lockstep_forM (fun id u u' hu => lockstep_modify (hu.copy _)) h
  rw [h.inflight]
  unfold InflightConflation.toConflationResult
  split
  · exact lockstep_bind (lockstep_throw h.weaken)
  · next start hstart =>
    unfold BlockInterval.create
    split
    case isFalse => exact lockstep_bind (lockstep_bind (lockstep_throw h.weaken))
    refine lockstep_bind (lockstep_bind (lockstep_pure (lockstep_pure (lockstep_bind (lockstep_zoom ?_)))))
    refine lockstep_mono (handleBatchTrigger_lockstep h.env (h.start start hstart) hnext)
      (fun _ e e' he => lockstep_modify ?_) fun e e' he => h.setEnv he
    obtain ⟨e₀, rfl⟩ := h.same
    refine ⟨⟨_, rfl⟩, ?_, h.next, fun n hn => by cases hn⟩
    unfold GlobalBlockConflationCalculator.reset
    simp only [foldl_reset, he.calculators]
    exact he.setCalculators _

theorem flush_lockstep (ts : List OverflowTrigger) (h : Twins k True s s') :
    lockstep (a.conflationCalculator.flush ts) (a.conflationCalculator.flush ts) (fun _ => Twins k False)
      (Twins k False) s s' := by
  unfold flush
  apply lockstep_get_bind
  cases ts with
  | nil => exact lockstep_pure h.weaken
  | cons t ts =>
    rw [h.inflight, h.lastBlockNumber]
    dsimp only
    by_cases hstart : s.inflightConflation.startBlockNumber.isSome
    · rw [if_pos hstart]
      exact fire_lockstep h (.inr trivial)
    · rw [if_neg hstart]
      exact lockstep_pure h.weaken

/-! ### Calls -/

theorem newBlock_lockstep (hb : b.blockNumber ≠ 0) (h : Twins k p s s') :
    lockstep (a.newBlock b) (a.newBlock b) (fun _ => Twins k False) (Twins k False) s s' := by
  replace h := h.add b
  unfold GlobalBlobAwareConflationCalculator.newBlock GlobalBlockConflationCalculator.newBlock ensureBlockIsInOrder
    conflateBlock
  refine lockstep_bind (lockstep_modify (lockstep_bind (lockstep_get_bind ?_)))
  rw [h.lastBlockNumber]
  split
  · exact lockstep_throw h.weaken
  · next hseq =>
    have hnum := toNat_of_eq_succ (not_not.mp hseq) hb
    have hk : k ≤ b.blockNumber.toNat := h.next.trans hnum.ge
    refine lockstep_pure (lockstep_bind (lockstep_mono (overflowTriggers_lockstep b h) (fun ts t t' h => ?_)
      fun _ _ h => h.weaken))
    refine lockstep_bind (lockstep_mono (flush_lockstep ts h) (fun _ t t' h => ?_))
    refine lockstep_bind (lockstep_modify ?_)
    refine lockstep_bind (lockstep_mono (appendBlock_lockstep b (h.startBlock hk)) (fun _ t t' h => ?_))
    obtain ⟨e, rfl⟩ := h.same
    exact lockstep_modify ⟨⟨e, rfl⟩, h.env, hk.trans (Nat.le_succ _), h.start⟩

/-- Two runs that received the same blocks and threw the same exceptions so far. -/
structure Alike (k : Nat) (w w' : BlobRun κ M) : Prop where
  state : Twins k False w.state w'.state
  received : w'.received = w.received
  errors : w'.errors = w.errors

theorem Alike.step {w w' : BlobRun κ M} {call : BlobCall M} (hpos : ∀ b, call = .newBlock b → b.blockNumber ≠ 0)
    (h : Alike k w w') : Alike k (a.step w call) (a.step w' call) := by
  cases call with
  | newBlock b =>
    simp only [GlobalBlobAwareConflationCalculator.step]
    obtain ⟨_, t, t', hx, hy, ht⟩ | ⟨_, t, t', hx, hy, ht⟩ := (newBlock_lockstep (a := a) (hpos b rfl) h.state).cases
    · rw [hx, hy]
      exact ⟨ht, by rw [h.received], h.errors⟩
    · rw [hx, hy]
      exact ⟨ht, h.received, by rw [h.errors]⟩
  | deadlineReached =>
    have hfire : lockstep (a.conflationCalculator.handleConflationTrigger .timeLimit)
        (a.conflationCalculator.handleConflationTrigger .timeLimit) (fun _ => Twins k False) (Twins k False) w.state
        w'.state := by
      unfold handleConflationTrigger
      apply lockstep_get_bind
      rw [h.state.lastBlockNumber]
      exact fire_lockstep h.state (.inl (by decide))
    simp only [GlobalBlobAwareConflationCalculator.step]
    obtain ⟨_, t, t', hx, hy, ht⟩ | ⟨_, t, t', hx, hy, ht⟩ := hfire.cases
    · rw [hx, hy]
      exact ⟨ht.mapCalculators _, h.received, h.errors⟩
    · rw [hx, hy]
      exact ⟨ht.mapCalculators _, h.received, by rw [h.errors]⟩
  | forcedTransactionProcessed n => exact ⟨h.state.mapCalculators _, h.received, h.errors⟩

theorem Alike.run {w w' : BlobRun κ M} {calls : List (BlobCall M)} (hpos : ∀ b, .newBlock b ∈ calls → b.blockNumber ≠ 0)
    (h : Alike k w w') : Alike k (a.run w calls) (a.run w' calls) := by
  induction calls generalizing w w' with
  | nil => exact h
  | cons call calls ih => exact ih (fun b hb => hpos b (by simp [hb])) (h.step fun b hb => hpos b (by simp [hb]))

/-- The block has counters already, or it lies below everything the open blob may hold. -/
def Settled (s : BlockState (BlobState κ M) M) (b : BlockCounters M) : Prop :=
  (∃ b' ∈ s.env.blobBlockCounters, b'.blockNumber = b.blockNumber) ∨
  (b.blockNumber ≤ s.lastBlockNumber ∧ (∀ c ∈ s.env.blobBatches, b.blockNumber < c.startBlockNumber) ∧
    ∀ n, s.inflightConflation.startBlockNumber = some n → b.blockNumber < n)

omit [Fintype M] in
theorem Settled.twins (h : Settled s b) : ∃ k, Twins k False s (addCounters b s) := by
  have hlookup (n : UInt64) (hn : b.blockNumber = n → (s.env.lookup n).isSome) :
      (addCounters b s).env.lookup n = s.env.lookup n := by
    unfold BlobState.lookup at hn ⊢
    rw [addCounters, find?_append]
    cases hf : s.env.blobBlockCounters.find? (·.blockNumber == n) with
    | some b' => rfl
    | none =>
      rw [hf] at hn
      have hne : b.blockNumber ≠ n := fun hbn => by simpa using hn hbn
      simp [hne]
  rcases h with ⟨b', hmem, hb'⟩ | ⟨hle, hbatches, hstart⟩
  · refine ⟨0, ⟨_, rfl⟩, ⟨⟨_, rfl⟩, fun _ _ => Nat.zero_le _, fun n _ => hlookup n fun hn => ?_, False.elim⟩,
      Nat.zero_le _,
      fun _ _ => Nat.zero_le _⟩
    exact find?_isSome.mpr ⟨b', hmem, beq_iff_eq.mpr (hb'.trans hn)⟩
  · refine ⟨b.blockNumber.toNat + 1, ⟨_, rfl⟩, ⟨⟨_, rfl⟩, fun c hc => UInt64.lt_iff_toNat_lt.mp (hbatches c hc),
      fun n hn => hlookup n fun hbn => ?_, False.elim⟩, Nat.succ_le_succ (UInt64.le_iff_toNat_le.mp hle),
      fun n hn => UInt64.lt_iff_toNat_lt.mp (hstart n hn)⟩
    rw [hbn] at hn
    omega

/-- A block out of order that lies below the open blob or whose number has counters already is rejected, and nothing
that is called later tells the state from the one without it. Block numbers do not wrap. -/
theorem rejected_block_unnoticed (a : GlobalBlobAwareConflationCalculator κ M) (w : BlobRun κ M) (b : BlockCounters M)
    (hb : b.blockNumber ≠ w.state.lastBlockNumber + 1) (hsettled : Settled w.state b) :
    ∃ s, a.newBlock b w.state = .error (.notSequential w.state.lastBlockNumber b.blockNumber) s ∧
      ∀ later : List (BlobCall M), (∀ b, .newBlock b ∈ later → b.blockNumber ≠ 0) →
        let v := a.run w later
        let v' := a.run ⟨s, w.received, w.errors⟩ later
        v'.state.env.conflations = v.state.env.conflations ∧ v'.state.env.blobs = v.state.env.blobs ∧
        v'.received = v.received ∧ v'.errors = v.errors := by
  refine ⟨addCounters b w.state, ?_, fun later hpos => ?_⟩
  · show ((if b.blockNumber ≠ w.state.lastBlockNumber + 1 then throw _ else pure ()) >>= fun _ => _ :
      EStateM Error (BlockState (BlobState κ M) M) Unit) (addCounters b w.state) = _
    rw [if_pos hb]
    rfl
  · obtain ⟨k, htwins⟩ := hsettled.twins
    have hv : Alike k (a.run w later) (a.run ⟨addCounters b w.state, w.received, w.errors⟩ later) :=
      Alike.run hpos ⟨htwins, rfl, rfl⟩
    obtain ⟨l, hl⟩ := hv.state.env.same
    exact ⟨by rw [hl], by rw [hl], hv.received, hv.errors⟩

/-- Block 7 comes again before any block was received. -/
theorem rejected_block_unnoticed_initial :
    let a := GlobalBlobAwareConflationCalculator.sample
    let w := a.initial 7 (.initial .empty [] 0)
    ∃ s, a.newBlock (.sample 7 99) w.state = .error (.notSequential 7 7) s ∧
      (a.run ⟨s, [], []⟩ [.newBlock (.sample 8 20), .deadlineReached]).state.env.blobs =
        (a.run w [.newBlock (.sample 8 20), .deadlineReached]).state.env.blobs := by
  obtain ⟨s, hs, hlater⟩ := rejected_block_unnoticed .sample
    (GlobalBlobAwareConflationCalculator.sample.initial 7 (.initial .empty [] 0)) (.sample 7 99) (by decide)
    (.inr ⟨by decide, fun c hc => (by cases hc), fun n hn => (by cases hn)⟩)
  refine ⟨s, hs, (hlater _ fun b hb => ?_).2.1⟩
  have : b = .sample 8 20 := by simpa using hb
  rw [this]
  decide

/-- Block 2 with timestamp 99 comes before block 1 and is rejected. When blocks 1 and 2 then arrive in order, with
timestamps 10 and 20, the blob of block 2 starts and ends at 99 instead of 20. -/
theorem rejected_block_changes_blob :
    let a := GlobalBlobAwareConflationCalculator.sample
    let w := a.initial 0 (.initial .empty [] 0)
    let later : List (BlobCall Unit) :=
      [.newBlock (.sample 1 10), .deadlineReached, .newBlock (.sample 2 20), .deadlineReached]
    ∃ s, a.newBlock (.sample 2 99) w.state = .error (.notSequential 0 2) s ∧
      (a.run w later).state.env.blobs.map (fun b => (b.startBlockTime, b.endBlockTime)) = [(10, 10), (20, 20)] ∧
      (a.run ⟨s, w.received, w.errors⟩ later).state.env.blobs.map (fun b => (b.startBlockTime, b.endBlockTime)) =
        [(10, 10), (99, 99)] := by
  exact ⟨addCounters (.sample 2 99) _, rfl, by decide +kernel, by decide +kernel⟩

end Lineth.Conflation
