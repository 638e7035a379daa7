import Lineth.Aggregation.Blobs

/-!
# Aggregations partition the blobs

Runs of the aggregation calculator: blobs, deadline callbacks and new target blocks in any order. A blob counts as
received when `newBlob` returns. As long as every blob that comes in order fits, the blobs aggregated and those
pending are the blobs received. One with too many proofs is rejected after it joined the pending blobs
(`oversized_blob_loses_pending`). -/

namespace Lineth.Aggregation

open Exec Intervals List
open Conflation (BlockInterval)

inductive AggregationCall
  | newBlob (blobCounters : BlobCounters)
  | deadline (aggregation : BlockInterval)
  | addTarget (endBlockNumber : UInt64)
  deriving DecidableEq

structure AggregationRun where
  state : State
  received : List BlobCounters

namespace GlobalAggregationCalculator

variable (g : GlobalAggregationCalculator)

def step (w : AggregationRun) : AggregationCall → AggregationRun
  | .newBlob b =>
    match g.newBlob b w.state with
    | .ok _ s => ⟨s, w.received ++ [b]⟩
    | .error _ s => ⟨s, w.received⟩
  | .deadline aggregation =>
    match g.deadlineTrigger aggregation w.state with
    | .ok _ s => ⟨s, w.received⟩
    | .error _ s => ⟨s, w.received⟩
  | .addTarget n =>
    { w with state := { w.state with targetEndBlockNumbers := w.state.targetEndBlockNumbers.insert n } }

def run (w : AggregationRun) (calls : List AggregationCall) : AggregationRun := calls.foldl g.step w

/-- Every blob that is next when it comes satisfies `P` then. The others are rejected before anything is written. -/
def Receives (w : AggregationRun) (calls : List AggregationCall) (P : AggregationRun → BlobCounters → Prop) : Prop :=
  ∀ pre b post, calls = pre ++ .newBlob b :: post → b.startBlockNumber = (g.run w pre).state.lastBlockNumber + 1 →
    P (g.run w pre) b

end GlobalAggregationCalculator

variable {g : GlobalAggregationCalculator} {T : Option Watched} {s : State} {b : BlobCounters} {e : Nat}
  {init : UInt64}

section

variable (g : GlobalAggregationCalculator) (T : Option Watched) (init : UInt64) (w : AggregationRun)

/-- The blobs aggregated so far end at block `e`, the pending ones at the last block. -/
structure RunInvAt (e : Nat) : Prop where
  consistent : Consistent g T e w.state
  pending : BlobTiles e w.state.pendingBlobs w.state.lastBlockNumber.toNat
  groups : ∃ groups, List.Forall₂ Spans w.state.aggregations groups ∧
    w.received = groups.flatten ++ w.state.pendingBlobs ∧ BlobTiles init.toNat groups.flatten e ∧
    ∀ ts ∈ T, ∀ A ∈ groups, WithinLimits g ts A ∧ SizeOk g A

def RunInv : Prop :=
  ∃ e, RunInvAt g T init w e

end

theorem tiles_of_spans {intervals : List BlockInterval} {groups : List (List BlobCounters)} {n m : Nat}
    (h : List.Forall₂ Spans intervals groups) (ht : BlobTiles n groups.flatten m) :
    Tiles (·.lo) (·.hi) n intervals m := by
  induction h generalizing n with
  | nil => exact ht
  | @cons i A is gs hi _ ih =>
    obtain ⟨k, hA, hrest⟩ := tiles_append.mp ht
    obtain ⟨first, last, hf, hl, hs, he⟩ := hi
    have hlo : i.lo = n + 1 := by
      obtain ⟨A', rfl⟩ := head?_eq_some_iff.mp hf
      exact (congrArg UInt64.toNat hs).trans hA.1
    have hhi : i.hi = k := by
      obtain ⟨A', rfl⟩ := getLast?_eq_some_iff.mp hl
      exact (congrArg UInt64.toNat he).trans (tiles_concat.mp hA).2.2.2
    refine ⟨hlo, i.lo_le_hi, ?_⟩
    show Tiles _ _ i.hi is m
    rw [hhi]
    exact ih hrest

variable {w : AggregationRun}

theorem RunInvAt.of_outcome {s₀ s' : State} {more : List BlobCounters} {e' m : Nat}
    (h : RunInvAt g T init w e) (hagg : s₀.aggregations = w.state.aggregations)
    (ht : BlobTiles e (w.state.pendingBlobs ++ more) m) (hlast : s₀.lastBlockNumber.toNat = m)
    (ho : Outcome g T e s₀ (w.state.pendingBlobs ++ more) e' s') : RunInvAt g T init ⟨s', w.received ++ more⟩ e' := by
  obtain ⟨groups, hspans, hrec, htiles, hlim⟩ := h.groups
  obtain ⟨is, gs, ha, hs, hb, hgs, hlim'⟩ := ho.groups
  refine ⟨ho.consistent, ?_, groups ++ gs, ?_, ?_, ?_,
    fun ts hts => forall_mem_append.mpr ⟨hlim ts hts, hlim' ts hts⟩⟩
  · rw [hb] at ht
    obtain ⟨k, hk, hrest⟩ := tiles_append.mp ht
    rw [← hgs.unique hk] at hrest
    show BlobTiles e' s'.pendingBlobs s'.lastBlockNumber.toNat
    rw [ho.last, hlast]
    exact hrest
  · show List.Forall₂ Spans s'.aggregations _
    rw [ha, hagg]
    exact rel_append hspans hs
  · rw [hrec, append_assoc, hb, flatten_append, append_assoc]
  · rw [flatten_append]
    exact tiles_append.mpr ⟨e, htiles, hgs⟩

theorem newBlob_runInv (hT : ∀ ts ∈ T, Regular g ∧ ts.Known g) (hm : 0 < g.aggregationSizeMultipleOf)
    (h : RunInv g T init w) (hb : b.startBlockNumber = w.state.lastBlockNumber + 1 →
      Fits g b ∧ ∀ ts ∈ T, ComesAfter g ts w.state.pendingBlobs b) :
    wp (g.newBlob b) (fun _ s => RunInv g T init ⟨s, w.received ++ [b]⟩) (fun _ s => s = w.state) w.state := by
  obtain ⟨e, h⟩ := h
  unfold GlobalAggregationCalculator.newBlob
  rw [wp_bind, wp_get]
  refine wp_ite (fun _ => rfl) (fun hseq => ?_)
  obtain ⟨hb, hafter⟩ := hb (not_not.mp hseq)
  have hlo : b.lo = w.state.lastBlockNumber.toNat + 1 :=
    Conflation.toNat_of_eq_succ (not_not.mp hseq) hb.start_ne_zero
  have ht : BlobTiles e (w.state.pendingBlobs ++ [b]) b.hi :=
    tiles_concat.mpr ⟨by rw [hlo]; exact h.pending, by omega, UInt64.le_iff_toNat_le.mp hb.start_le_end, rfl⟩
  have hc : Consistent g T e { w.state with lastBlockNumber := b.endBlockNumber } := by
    have hc := h.consistent
    refine ⟨⟨hc.tiles, hc.fits, hc.orderly, hc.deadlines⟩, fun id hid => ?_, hc.deadline, fun ts hts => ?_⟩
    · have := hc.sync id hid
      cases id <;> exact this
    · have := hc.counted ts hts
      exact ⟨this.known, this.proofs, this.blobs, this.targets, this.forks, this.time⟩
  dsimp only
  rw [wp_bind, wp_set]
  refine wp_mono (processBlob_spec hT hm _ hc ht hb (fun ts hts => (h.consistent.orderly ts hts).concat (hafter ts hts))
    (Nat.lt_succ_self _)) (fun _ s' h' => ?_) (fun _ _ h => h.elim)
  obtain ⟨e', h'⟩ := h'
  exact ⟨e', h.of_outcome (by exact rfl) ht (by exact rfl) h'⟩

/-- A late deadline finds its first blob aggregated and changes nothing. -/
theorem stale_trigger {process : BlobCounters → AggM Unit} (h : Pending g T e s) {t : AggregationTrigger}
    (hlo : t.aggregation.lo ≤ e) : g.handleAggregationTrigger process t s = .error .blobsNotPending s := by
  obtain ⟨m, ht⟩ := h.tiles
  have hnone : (s.pendingBlobs.find? (·.startBlockNumber == t.aggregation.startBlockNumber)).isNone = true := by
    rw [Option.isNone_iff_eq_none, find?_eq_none]
    intro c hc heq
    have hlt := (ht.mem_le hc).1
    have hclo : c.lo = t.aggregation.lo := congrArg UInt64.toNat (beq_iff_eq.mp heq)
    omega
  unfold GlobalAggregationCalculator.handleAggregationTrigger
  rw [Exec.get_bind_run]
  simp only [hnone, Bool.true_or, if_true]
  rfl

section

variable (hT : ∀ ts ∈ T, Regular g ∧ ts.Known g)

include hT

section

variable (hm : 0 < g.aggregationSizeMultipleOf)

include hm

theorem deadlineTrigger_runInv
    (h : RunInv g T init w) (i : BlockInterval) :
    wp (g.deadlineTrigger i) (fun _ s => RunInv g T init ⟨s, w.received⟩) (fun _ s => RunInv g T init ⟨s, w.received⟩)
      w.state := by
  obtain ⟨e, h⟩ := h
  unfold GlobalAggregationCalculator.deadlineTrigger
  rw [wp_bind, wp_get]
  refine wp_ite (fun hi => ?_) (fun _ => ⟨e, h⟩)
  rcases h.consistent.deadlines i hi with hle | ⟨A, R, hAR, hA⟩
  · unfold wp
    rw [stale_trigger h.consistent.toPending (t := ⟨.timeLimit, i⟩) hle]
    exact ⟨e, h⟩
  · have hcounted := h.consistent.counted
    refine wp_mono (handleAggregationTrigger_spec (fun ts hts => ⟨(hT ts hts).1, (hcounted ts hts).known⟩)
      (processBlob_spec hT hm _) hm h.consistent.toPending (t := ⟨.timeLimit, i⟩) hAR hA
      (fun ts hts => WithinLimits.of_append (R := R) (hAR ▸ (hcounted ts hts).within)) (Nat.le_succ _))
      (fun _ s' h' => ?_) (fun _ _ h => h.elim)
    obtain ⟨e', h'⟩ := h'
    rw [← append_nil w.state.pendingBlobs] at h'
    have hw := h.of_outcome rfl (by rw [append_nil]; exact h.pending) rfl h'
    rw [append_nil] at hw
    exact ⟨e', hw⟩

/-- The limits are shown for target blocks that do not change. -/
theorem RunInv.step
    {call : AggregationCall} (hfits : ∀ b, call = .newBlob b → b.startBlockNumber = w.state.lastBlockNumber + 1 →
      Fits g b ∧ ∀ ts ∈ T, ComesAfter g ts w.state.pendingBlobs b)
    (hadd : ∀ n, call = .addTarget n → T = none) (h : RunInv g T init w) : RunInv g T init (g.step w call) := by
  cases call with
  | newBlob b =>
    have hspec := newBlob_runInv hT hm h (hfits b rfl)
    simp only [GlobalAggregationCalculator.step]
    split
    · exact hspec.ok ‹_›
    · next heq =>
      rw [hspec.error heq]
      exact h
  | deadline i =>
    have hspec := deadlineTrigger_runInv hT hm h i
    simp only [GlobalAggregationCalculator.step]
    split
    · exact hspec.ok ‹_›
    · exact hspec.error ‹_›
  | addTarget n =>
    obtain ⟨e, h⟩ := h
    have hc := h.consistent
    refine ⟨e, ⟨⟨hc.tiles, hc.fits, hc.orderly, hc.deadlines⟩, fun id hid => ?_, hc.deadline,
      fun ts hts => ?_⟩, h.pending,
      h.groups⟩
    · have := hc.sync id hid
      cases id <;> exact this
    · rw [hadd n rfl] at hts
      cases hts

theorem RunInv.run
    {calls : List AggregationCall}
    (hfits : g.Receives w calls fun w b => Fits g b ∧ ∀ ts ∈ T, ComesAfter g ts w.state.pendingBlobs b)
    (hadd : ∀ n, .addTarget n ∈ calls → T = none) (h : RunInv g T init w) : RunInv g T init (g.run w calls) := by
  induction calls generalizing w with
  | nil => exact h
  | cons call calls ih =>
    exact ih (fun pre b post heq => hfits (call :: pre) b post (by rw [heq]; rfl)) (fun n hn => hadd n (by simp [hn]))
      (h.step hT hm (fun b hb => hfits [] b calls (by rw [hb]; rfl)) fun n hn => hadd n (by simp [hn]))

end

end

theorem runInv_initial (init : UInt64) {targets : List UInt64} (hT : ∀ ts ∈ T, Regular g ∧ targets = ts.targets)
    (initialTimestamp : Int) : RunInv g T init ⟨.initial init targets initialTimestamp, []⟩ := by
  refine ⟨init.toNat, ⟨⟨⟨_, rfl⟩, nofun, fun _ _ => orderly_nil, nofun⟩, fun id _ => ?_,
    fun _ => .inl ⟨rfl, rfl⟩, fun ts hts => ?_⟩,
    rfl, [], .nil, rfl, rfl, fun _ _ => nofun⟩
  · cases id <;> exact .inl ⟨rfl, rfl⟩
  · refine counted_nil (hT ts hts).1 rfl (fun id _ => ?_) (hT ts hts).2
    cases id <;> rfl

theorem runInv_of_fits (hm : 0 < g.aggregationSizeMultipleOf) (init : UInt64) (targets : List UInt64)
    (initialTimestamp : Int) {calls : List AggregationCall}
    (hfits : g.Receives ⟨.initial init targets initialTimestamp, []⟩ calls fun _ => Fits g) :
    RunInv g none init (g.run ⟨.initial init targets initialTimestamp, []⟩ calls) :=
  (runInv_initial init (by simp) initialTimestamp).run (by simp) hm
    (fun pre b post heq hnext => ⟨hfits pre b post heq hnext, by simp⟩) (fun _ _ => rfl)

/-- Every run whose blobs in order fit an aggregation of their own: the aggregations are consecutive intervals from
the initial last block on, those of groups of whole blobs, and the groups in order followed by the pending blobs are
the blobs received. -/
theorem aggregations_partition_blobs (g : GlobalAggregationCalculator) (hm : 0 < g.aggregationSizeMultipleOf)
    (lastBlockNumber : UInt64) (targets : List UInt64) (initialTimestamp : Int) (calls : List AggregationCall)
    (hfits : g.Receives ⟨.initial lastBlockNumber targets initialTimestamp, []⟩ calls fun _ => Fits g) :
    let w := g.run ⟨.initial lastBlockNumber targets initialTimestamp, []⟩ calls
    ∃ groups e, List.Forall₂ Spans w.state.aggregations groups ∧
      Tiles (·.lo) (·.hi) lastBlockNumber.toNat w.state.aggregations e ∧
      w.received = groups.flatten ++ w.state.pendingBlobs ∧
      BlobTiles e w.state.pendingBlobs w.state.lastBlockNumber.toNat := by
  intro w
  obtain ⟨e, h⟩ := runInv_of_fits hm lastBlockNumber targets initialTimestamp hfits
  obtain ⟨groups, hspans, hrec, ht, -⟩ := h.groups
  exact ⟨groups, e, hspans, tiles_of_spans hspans ht, hrec, h.pending⟩

/-- In a run whose blobs in order fit, a blob that is rejected can be left out: whatever is called later, the same
happens. -/
theorem rejected_blob_unnoticed (g : GlobalAggregationCalculator) (hm : 0 < g.aggregationSizeMultipleOf)
    (lastBlockNumber : UInt64) (targets : List UInt64) (initialTimestamp : Int) (calls : List AggregationCall)
    (hfits : g.Receives ⟨.initial lastBlockNumber targets initialTimestamp, []⟩ calls fun _ => Fits g)
    {b : BlobCounters} :
    let w := g.run ⟨.initial lastBlockNumber targets initialTimestamp, []⟩ calls
    (b.startBlockNumber = w.state.lastBlockNumber + 1 → Fits g b) →
    ∀ e s, g.newBlob b w.state = .error e s → ∀ later, g.run ⟨s, w.received⟩ later = g.run w later := by
  intro w hb e s hrejected later
  have h := runInv_of_fits hm lastBlockNumber targets initialTimestamp hfits
  have hspec := newBlob_runInv (by simp) hm h fun hnext => ⟨hb hnext, by simp⟩
  rw [hspec.error hrejected]

/-! ### Sample runs -/

/-- At most four proofs, the calculators in the order of the factory. -/
def GlobalAggregationCalculator.sample : GlobalAggregationCalculator where
  maxProofsPerAggregation := 4
  maxBlobsPerAggregation := 10
  hardForkTimestamps := [100]
  syncAggregationTrigger := [.proofLimit, .targetBlockNumbers, .blobLimit, .timestampHardFork]
  deadline := true
  aggregationSizeMultipleOf := 2
  sync_nodup := by decide

def sampleAggregationCalls : List AggregationCall :=
  [.newBlob ⟨1, 1, 5, 10, 14⟩, .newBlob ⟨1, 6, 10, 15, 19⟩, .newBlob ⟨0, 11, 15, 20, 24⟩,
    .deadline ⟨11, 15, by decide⟩, .newBlob ⟨2, 16, 20, 25, 29⟩]

theorem GlobalAggregationCalculator.Receives.of_mem {calls : List AggregationCall} {P : BlobCounters → Prop}
    (h : ∀ b, .newBlob b ∈ calls → P b) : g.Receives w calls fun _ => P :=
  fun pre b post heq _ => h b (by simp [heq])

theorem aggregations_partition_blobs_sample :
    (∀ b, .newBlob b ∈ sampleAggregationCalls → Fits .sample b) ∧
    let w := GlobalAggregationCalculator.sample.run ⟨.initial 0 [10] 0, []⟩ sampleAggregationCalls
    ∃ groups e, List.Forall₂ Spans w.state.aggregations groups ∧
      Tiles (·.lo) (·.hi) 0 w.state.aggregations e ∧ w.received = groups.flatten ++ w.state.pendingBlobs ∧
      BlobTiles e w.state.pendingBlobs w.state.lastBlockNumber.toNat := by
  have hfits : ∀ b, .newBlob b ∈ sampleAggregationCalls → Fits .sample b := by
    intro b hb
    simp only [sampleAggregationCalls, mem_cons, AggregationCall.newBlob.injEq, reduceCtorEq, false_or,
      not_mem_nil, or_false] at hb
    rcases hb with rfl | rfl | rfl | rfl <;> exact ⟨by decide, by decide, by decide⟩
  exact ⟨hfits, aggregations_partition_blobs .sample (by decide) 0 [10] 0 sampleAggregationCalls (.of_mem hfits)⟩

/-- The first blob is missing. -/
theorem rejected_blob_unnoticed_sample :
    Fits .sample ⟨1, 6, 10, 15, 19⟩ ∧ ∀ later, GlobalAggregationCalculator.sample.run
      (GlobalAggregationCalculator.sample.step ⟨.initial 0 [10] 0, []⟩ (.newBlob ⟨1, 6, 10, 15, 19⟩)) later =
        GlobalAggregationCalculator.sample.run ⟨.initial 0 [10] 0, []⟩ later := by
  have hfits : Fits .sample ⟨1, 6, 10, 15, 19⟩ := ⟨by decide, by decide, by decide⟩
  exact ⟨hfits, rejected_blob_unnoticed .sample (by decide) 0 [10] 0 [] (.of_mem (by simp)) (fun _ => hfits)
    (.notSequential 0 6) _ rfl⟩

/-- The second blob has five proofs where four are allowed. Its blocks are then refused in a smaller blob as well,
which would have completed an aggregation. -/
theorem rejected_blob_noticed :
    let w := GlobalAggregationCalculator.sample.run ⟨.initial 0 [] 0, []⟩ [.newBlob ⟨1, 1, 5, 10, 14⟩]
    let retry := [AggregationCall.newBlob ⟨1, 6, 10, 15, 19⟩]
    let rejected := GlobalAggregationCalculator.sample.step w (.newBlob ⟨4, 6, 10, 15, 19⟩)
    rejected.received = w.received ∧ (GlobalAggregationCalculator.sample.run rejected retry).state.aggregations = [] ∧
      (GlobalAggregationCalculator.sample.run w retry).state.aggregations = [⟨1, 10, by decide⟩] := by
  decide +kernel

def oversizedAggregationCalls : List AggregationCall :=
  [.newBlob ⟨4, 1, 5, 10, 14⟩, .newBlob ⟨1, 6, 10, 15, 19⟩, .newBlob ⟨1, 11, 15, 20, 24⟩]

/-- The first blob has five proofs where four are allowed; it is rejected but stays pending. The third one completes an
aggregation that starts after it, and then the second one is neither aggregated nor pending. -/
theorem oversized_blob_loses_pending :
    let w := GlobalAggregationCalculator.sample.run ⟨.initial 0 [] 0, []⟩ oversizedAggregationCalls
    w.received = [⟨1, 6, 10, 15, 19⟩] ∧ w.state.aggregations = [] ∧ w.state.pendingBlobs = [] := by
  decide +kernel

end Lineth.Aggregation
