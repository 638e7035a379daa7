import Mathlib.Data.List.Sort
import Lineth.Aggregation.Calculator

/-!
# One blob at a time

Between two calls the trigger calculators keep the interval of the pending blobs (`Consistent`). Every trigger asks
for a leading part of these, so cutting it off, rounding it down and processing the rest again loses nothing:
`processBlob_spec`. The counts of the calculators are those of the pending blobs, which keeps every aggregation within
the limits; this part speaks of the target blocks and hard forks `ts ∈ T`. -/

namespace Lineth.Aggregation

open Exec Intervals List GlobalAggregationCalculator Nat
open Conflation (BlockInterval)

/-- `i` goes from the start of the first to the end of the last blob. -/
def Spans (i : BlockInterval) (blobs : List BlobCounters) : Prop :=
  ∃ first last, blobs.head? = some first ∧ blobs.getLast? = some last ∧
    i.startBlockNumber = first.startBlockNumber ∧ i.endBlockNumber = last.endBlockNumber

/-- The interval a calculator keeps for the blobs it has seen. -/
def InFlight (o : Option BlockInterval) (blobs : List BlobCounters) : Prop :=
  blobs = [] ∧ o = none ∨ ∃ i, o = some i ∧ Spans i blobs

abbrev BlobTiles : Nat → List BlobCounters → Nat → Prop := Tiles BlobCounters.lo BlobCounters.hi

/-- The target blocks and the hard forks that a run is watched for. -/
structure Watched where
  targets : List UInt64
  forks : List Int := []

variable {g : GlobalAggregationCalculator} {s s' : State} {b : BlobCounters} {P A R : List BlobCounters} {e m : Nat}
  {id : CalculatorId} {T : Option Watched} {ts : Watched}

variable {i : BlockInterval}

theorem Spans.ne_nil (h : Spans i A) : A ≠ [] := by
  obtain ⟨first, -, hf, -⟩ := h
  rintro rfl
  simp at hf

theorem Spans.start_eq (h : Spans i A) {c : BlobCounters} (hc : (A ++ R).head? = some c) :
    i.startBlockNumber = c.startBlockNumber := by
  obtain ⟨first, last, hf, -, hs, -⟩ := h
  rw [head?_append, hf, Option.some_or, Option.some.injEq] at hc
  rw [hs, hc]

/-- A leading part of consecutive blobs lies between the ends of its interval, and the next blob does not. -/
theorem Spans.bounds (h : Spans i A) (ht : BlobTiles e (A ++ R) m) :
    (∀ c ∈ A, i.lo ≤ c.lo ∧ c.hi ≤ i.hi) ∧ (∀ c ∈ R, i.hi < c.lo) ∧ e < i.lo := by
  obtain ⟨first, last, hf, hl, hs, he⟩ := h
  have hlo : i.lo = first.lo := congrArg UInt64.toNat hs
  have hhi : i.hi = last.hi := congrArg UInt64.toNat he
  obtain ⟨k, hA, hR⟩ := tiles_append.mp ht
  have hfirst : first.lo = e + 1 := by
    obtain ⟨A', rfl⟩ := head?_eq_some_iff.mp hf
    exact hA.1
  have hlast : last.hi = k := by
    obtain ⟨A', rfl⟩ := getLast?_eq_some_iff.mp hl
    exact (tiles_concat.mp hA).2.2.2
  refine ⟨fun c hc => ?_, fun c hc => ?_, by omega⟩
  · have := hA.mem_le hc
    omega
  · have := hR.mem_le hc
    omega

theorem InFlight.spans (h : InFlight (some i) A) : Spans i A := by
  rcases h with ⟨-, h⟩ | ⟨j, hj, h⟩
  · simp at h
  · rwa [Option.some.inj hj]

/-! ### The limits -/

/-- One proof for each batch and one for each blob. -/
def proofsOf : List BlobCounters → Nat
  | [] => 0
  | b :: blobs => b.numberOfBatches.toNat + 1 + proofsOf blobs

/-- All blobs are before a fork, or all are after it. -/
def Apart (forks : List Int) (A : List BlobCounters) : Prop :=
  ∀ f ∈ forks, (∀ c ∈ A, c.startBlockTimestamp < f ∧ c.endBlockTimestamp < f) ∨
    ∀ c ∈ A, f ≤ c.startBlockTimestamp ∧ f ≤ c.endBlockTimestamp

/-- An aggregation has at most so many proofs and blobs, none of its blobs but the last ends at a target, and no fork
is between them. -/
structure WithinLimits (g : GlobalAggregationCalculator) (ts : Watched) (A : List BlobCounters) : Prop where
  proofs : .proofLimit ∈ g.syncAggregationTrigger → proofsOf A ≤ g.maxProofsPerAggregation.toNat
  blobs : .blobLimit ∈ g.syncAggregationTrigger → A.length ≤ g.maxBlobsPerAggregation.toNat
  targets : .targetBlockNumbers ∈ g.syncAggregationTrigger → ∀ c ∈ A.dropLast, c.endBlockNumber ∉ ts.targets
  forks : Apart ts.forks A

theorem proofsOf_append : proofsOf (A ++ R) = proofsOf A + proofsOf R := by
  induction A with
  | nil => simp [proofsOf]
  | cons b A ih =>
    rw [cons_append, proofsOf, proofsOf, ih]
    omega

theorem WithinLimits.of_append (h : WithinLimits g ts (A ++ R)) : WithinLimits g ts A where
  proofs := fun hid => by
    have := h.proofs hid
    rw [proofsOf_append] at this
    omega
  blobs := fun hid => by
    have := h.blobs hid
    rw [length_append] at this
    omega
  targets := fun hid c hc => h.targets hid c (by
    cases R with
    | nil => rwa [append_nil]
    | cons r R =>
      rw [dropLast_append_of_ne_nil (by simp)]
      exact mem_append_left _ (mem_of_mem_dropLast hc))
  forks := fun f hf => (h.forks f hf).imp (fun h c hc => h c (mem_append_left R hc))
    fun h c hc => h c (mem_append_left R hc)

/-- The size of an aggregation that was cut down to a multiple, or did not exceed it. -/
def SizeOk (g : GlobalAggregationCalculator) (A : List BlobCounters) : Prop :=
  A.length % g.aggregationSizeMultipleOf = 0 ∨ A.length ≤ g.aggregationSizeMultipleOf

/-- The proof limit is checked first and leaves room for a sum of two counts, and a blob fits the blob limit. -/
structure Regular (g : GlobalAggregationCalculator) : Prop where
  first : .proofLimit ∈ g.syncAggregationTrigger → ∃ ids, g.syncAggregationTrigger = .proofLimit :: ids
  proofs : g.maxProofsPerAggregation.toNat < 2 ^ 31
  blobs : .blobLimit ∈ g.syncAggregationTrigger → 0 < g.maxBlobsPerAggregation.toNat

/-- A blob whose count of proofs does not wrap, and that no target overlaps if it ends at one. -/
structure Clear (targets : List UInt64) (b : BlobCounters) : Prop where
  batches : b.numberOfBatches.toNat + 1 < 2 ^ 32
  targets : ∀ t ∈ targets, b.startBlockNumber ≤ t → t < b.endBlockNumber → b.endBlockNumber ∉ targets

theorem Clear.toNat_countProofs {targets : List UInt64} (h : Clear targets b) : b.countProofs.toNat = proofsOf [b] := by
  have hadd : b.countProofs.toNat = (b.numberOfBatches.toNat + 1) % 2 ^ 32 := UInt32.toNat_add _ 1
  rw [hadd, mod_eq_of_lt h.batches]
  simp [proofsOf]

def count (s : State) : CalculatorId → UInt32
  | .proofLimit => (s.proofsInFlight.map (·.1)).getD 0
  | .blobLimit => (s.blobsInFlight.map (·.1)).getD 0
  | _ => 0

def countOf (b : BlobCounters) : CalculatorId → UInt32
  | .proofLimit => b.countProofs
  | .blobLimit => 1
  | _ => 0

/-- An aggregation of the blobs `Q` and `b` reaches a limit or ends at a target. -/
def Completes (g : GlobalAggregationCalculator) (targets : List UInt64) (Q : List BlobCounters) (b : BlobCounters) :
    CalculatorId → Prop
  | .proofLimit => proofsOf (Q ++ [b]) = g.maxProofsPerAggregation.toNat
  | .blobLimit => g.maxBlobsPerAggregation.toNat ≤ Q.length + 1
  | .targetBlockNumbers => b.endBlockNumber ∈ targets
  | .timestampHardFork => False

/-- The blob `b` can come after the blobs `P`. No fork is inside it, or between it and blobs of `P` that are later;
and a blob after a fork does not complete an aggregation with the last blobs of `P` that are before the fork. -/
structure ComesAfter (g : GlobalAggregationCalculator) (ts : Watched) (P : List BlobCounters)
    (b : BlobCounters) : Prop where
  clear : Clear ts.targets b
  side : Apart ts.forks [b]
  ordered : ∀ f ∈ ts.forks, ∀ c ∈ P, f ≤ c.startBlockTimestamp → f ≤ b.startBlockTimestamp
  free : ∀ f ∈ ts.forks, f ≤ b.startBlockTimestamp → ∀ Q, Q ≠ [] → Q <:+ P → (∀ c ∈ Q, c.startBlockTimestamp < f) →
    ∀ id ∈ g.syncAggregationTrigger, ¬ Completes g ts.targets Q b id

theorem ComesAfter.of_suffix (h : ComesAfter g ts P b) (hA : A <:+ P) : ComesAfter g ts A b :=
  ⟨h.clear, h.side, fun f hf c hc => h.ordered f hf c (hA.subset hc), fun f hf hb Q hne hQ =>
    h.free f hf hb Q hne (hQ.trans hA)⟩

/-- Every blob of the list can come after those before it. -/
def Orderly (g : GlobalAggregationCalculator) (ts : Watched) (blobs : List BlobCounters) : Prop :=
  ∀ P b, P ++ [b] <+: blobs → ComesAfter g ts P b

theorem orderly_nil : Orderly g ts [] := fun _ _ h => absurd (prefix_nil.mp h) (by simp)

theorem Orderly.left (h : Orderly g ts (A ++ R)) : Orderly g ts A :=
  fun P b hP => h P b (hP.trans (prefix_append A R))

theorem Orderly.right (h : Orderly g ts (A ++ R)) : Orderly g ts R := by
  intro P b hP
  refine (h (A ++ P) b ?_).of_suffix (suffix_append A P)
  rwa [append_assoc, prefix_append_right_inj]

theorem Orderly.last (h : Orderly g ts (P ++ [b])) : ComesAfter g ts P b := h P b prefix_rfl

theorem Orderly.concat (h : Orderly g ts P) (hb : ComesAfter g ts P b) : Orderly g ts (P ++ [b]) := by
  intro Q c hQ
  rcases prefix_concat_iff.mp hQ with heq | hQ
  · obtain ⟨rfl, rfl⟩ : Q = P ∧ c = b := by simpa using heq
    exact hb
  · exact h Q c hQ

/-- A fork is not passed within the blobs if nothing comes before a blob that passes one. -/
theorem Apart.concat (hP : Apart ts.forks P) (hb : ComesAfter g ts P b)
    (hpass : ∀ f ∈ ts.forks, f ≤ b.startBlockTimestamp → f ≤ b.endBlockTimestamp →
      (∀ c ∈ P, c.startBlockTimestamp < f ∧ c.endBlockTimestamp < f) → P = []) : Apart ts.forks (P ++ [b]) := by
  intro f hf
  simp only [forall_mem_append]
  rcases hP f hf with hbefore | hafter
  · rcases hb.side f hf with hside | hside
    · exact .inl ⟨hbefore, hside⟩
    · obtain ⟨hstart, hend⟩ := hside b (by simp)
      rw [hpass f hf hstart hend hbefore]
      exact .inr ⟨by simp, hside⟩
  · cases P with
    | nil => exact (hb.side f hf).imp (fun h => ⟨by simp, h⟩) fun h => ⟨by simp, h⟩
    | cons c P =>
      have hstart := hb.ordered f hf c (by simp) (hafter c (by simp)).1
      refine .inr ⟨hafter, (hb.side f hf).resolve_left fun h => ?_⟩
      exact absurd hstart (not_le.mpr (h b (by simp)).1)

/-- The calculators have counted the blobs `P`, and another one would still fit or end at a target. -/
structure Counted (g : GlobalAggregationCalculator) (ts : Watched) (P : List BlobCounters) (s : State) : Prop where
  known : s.targetEndBlockNumbers = ts.targets
  proofs : .proofLimit ∈ g.syncAggregationTrigger → (count s .proofLimit).toNat = proofsOf P ∧
    proofsOf P ≤ g.maxProofsPerAggregation.toNat
  blobs : .blobLimit ∈ g.syncAggregationTrigger → (count s .blobLimit).toNat = P.length ∧
    P.length < g.maxBlobsPerAggregation.toNat
  targets : .targetBlockNumbers ∈ g.syncAggregationTrigger → ∀ c ∈ P, c.endBlockNumber ∉ ts.targets
  forks : Apart ts.forks P
  time : ts.forks ≠ [] → ∀ c ∈ P.getLast?, s.lastProcessedTimestamp = c.endBlockTimestamp

section

variable (h : Counted g ts P s)

include h

theorem Counted.within : WithinLimits g ts P :=
  ⟨fun hid => (h.proofs hid).2, fun hid => (h.blobs hid).2.le,
    fun hid c hc => h.targets hid c (mem_of_mem_dropLast hc), h.forks⟩

theorem Counted.toNat_succ (hid : .blobLimit ∈ g.syncAggregationTrigger) :
    (count s .blobLimit + 1).toNat = P.length + 1 := by
  obtain ⟨hP, hmax⟩ := h.blobs hid
  have := g.maxBlobsPerAggregation.toNat_lt
  rw [UInt32.toNat_add, hP]
  exact mod_eq_of_lt (lt_of_le_of_lt hmax this)

theorem Counted.toNat_add (hg : Regular g) (hb : Clear ts.targets b)
    (hid : .proofLimit ∈ g.syncAggregationTrigger) (hle : b.countProofs ≤ g.maxProofsPerAggregation) :
    (count s .proofLimit + b.countProofs).toNat = proofsOf (P ++ [b]) := by
  obtain ⟨hcount, hP⟩ := h.proofs hid
  have hmax := hg.proofs
  rw [UInt32.le_iff_toNat_le, hb.toNat_countProofs] at hle
  rw [UInt32.toNat_add, hcount, hb.toNat_countProofs, proofsOf_append]
  exact mod_eq_of_lt (by omega)

theorem Counted.within_concat
    (hproofs : .proofLimit ∈ g.syncAggregationTrigger → proofsOf (P ++ [b]) ≤ g.maxProofsPerAggregation.toNat)
    (hforks : Apart ts.forks (P ++ [b])) : WithinLimits g ts (P ++ [b]) := by
  refine ⟨hproofs, fun hid => ?_, fun hid c hc => h.targets hid c (by rwa [dropLast_concat] at hc), hforks⟩
  rw [length_append, length_singleton]
  exact (h.blobs hid).2

end

/-! ### The calculators -/

variable {Q : BlockInterval → State → Prop} {E : Error → State → Prop}

theorem blobsToAggregate_spec {n k : UInt64} (h : n ≤ k) (hQ : ∀ i : BlockInterval, i.startBlockNumber = n →
    i.endBlockNumber = k → Q i s) :
    wp (blobsToAggregate n k) Q E s := by
  unfold blobsToAggregate
  rw [dif_pos h]
  exact hQ _ rfl rfl

theorem extend_spec {o : Option BlockInterval} (ho : InFlight o P) (ht : BlobTiles e (P ++ [b]) m)
    (hQ : ∀ i, Spans i (P ++ [b]) → Q i s) :
    wp (extend o b) Q E s := by
  unfold extend
  rcases ho with ⟨rfl, rfl⟩ | ⟨j, rfl, hj⟩
  · refine blobsToAggregate_spec ?_ (fun i hs he => hQ i ⟨b, b, rfl, rfl, hs, he⟩)
    exact UInt64.le_iff_toNat_le.mpr ht.2.1
  · obtain ⟨first, last, hf, hl, hs, he⟩ := hj
    refine blobsToAggregate_spec ?_ (fun i hi hi' => hQ i ⟨first, b, ?_, by simp, hi.trans hs, hi'⟩)
    · have hb := ht.mem_le (i := b) (by simp)
      obtain ⟨k, hP, hk⟩ := tiles_append.mp ht
      have hfirst := hP.mem_le (mem_of_mem_head? hf)
      have hlo : b.lo = k + 1 := hk.1
      rw [UInt64.le_iff_toNat_le]
      show j.startBlockNumber.toNat ≤ b.hi
      rw [hs]
      show first.lo ≤ b.hi
      omega
    · rw [head?_append, hf]
      rfl

def Checked (s s' : State) : Prop := ∃ flag, s' = { s with firstBlobWasConsumed := flag }

/-- What a check without a trigger says; `newBlob` of the calculator does not throw then. -/
def Ready (g : GlobalAggregationCalculator) (b : BlobCounters) (s : State) : CalculatorId → Prop
  | .proofLimit => b.countProofs ≤ g.maxProofsPerAggregation ∧
      (s.proofsInFlight.map (·.1)).getD 0 + b.countProofs ≤ g.maxProofsPerAggregation
  | .blobLimit => blobCountWithOneMore s < g.maxBlobsPerAggregation
  | .targetBlockNumbers => b.endBlockNumber ∈ s.targetEndBlockNumbers →
      ∃ t ∈ s.targetEndBlockNumbers, b.startBlockNumber ≤ t ∧ t < b.endBlockNumber
  | .timestampHardFork => ∀ f ∈ g.hardForkTimestamps, s.lastProcessedTimestamp < f → f ≤ b.endBlockTimestamp →
      s.forkInFlight = none

theorem Checked.refl : Checked s s := ⟨s.firstBlobWasConsumed, rfl⟩

theorem Checked.trans {s'' : State} (h : Checked s s') (h' : Checked s' s'') : Checked s s'' := by
  obtain ⟨x, rfl⟩ := h
  obtain ⟨y, rfl⟩ := h'
  exact ⟨y, rfl⟩

theorem Checked.inFlight (h : Checked s s') : (g.calculator id).inFlight s' = (g.calculator id).inFlight s := by
  obtain ⟨x, rfl⟩ := h
  cases id <;> rfl

theorem Checked.ready (h : Checked s s') (hr : Ready g b s id) : Ready g b s' id := by
  obtain ⟨x, rfl⟩ := h
  cases id <;> exact hr

def Leading (blobs : List BlobCounters) (i : BlockInterval) : Prop := ∃ A R, blobs = A ++ R ∧ Spans i A

theorem Leading.whole (h : Spans i A) : Leading A i := ⟨A, [], by simp, h⟩

/-- With `b` the calculator reaches its limit, or a target. -/
def Reached (g : GlobalAggregationCalculator) (b : BlobCounters) (s : State) : CalculatorId → Prop
  | .proofLimit => count s .proofLimit + b.countProofs = g.maxProofsPerAggregation
  | .blobLimit => g.maxBlobsPerAggregation ≤ count s .blobLimit + 1
  | .targetBlockNumbers => b.endBlockNumber ∈ s.targetEndBlockNumbers
  | .timestampHardFork => False

/-- A trigger asks for `P`, or for `P ++ [b]` when that reaches what the calculator waits for. -/
def Asks (g : GlobalAggregationCalculator) (P : List BlobCounters) (b : BlobCounters) (id : CalculatorId) (s : State)
    (i : BlockInterval) : Prop :=
  Spans i P ∨ Spans i (P ++ [b]) ∧ Reached g b s id

theorem Counted.completes (h : Counted g ts P s) (hg : Regular g) (hb : Clear ts.targets b)
    (hfits : .proofLimit ∈ g.syncAggregationTrigger → b.countProofs ≤ g.maxProofsPerAggregation)
    (hid : id ∈ g.syncAggregationTrigger) (hr : Reached g b s id) : Completes g ts.targets P b id := by
  cases id with
  | proofLimit =>
    show proofsOf (P ++ [b]) = _
    rw [← h.toNat_add hg hb hid (hfits hid)]
    exact congrArg UInt32.toNat hr
  | blobLimit =>
    show _ ≤ P.length + 1
    rw [← h.toNat_succ hid]
    exact UInt32.le_iff_toNat_le.mp hr
  | targetBlockNumbers =>
    show b.endBlockNumber ∈ ts.targets
    rw [← h.known]
    exact hr
  | timestampHardFork => exact hr

/-- The result of a check: a trigger for a leading part of `P ++ [b]`, or the calculator can take the blob. -/
def CheckResult (g : GlobalAggregationCalculator) (P : List BlobCounters) (b : BlobCounters) (id : CalculatorId)
    (s : State) (r : Option AggregationTrigger) (s' : State) : Prop :=
  Checked s s' ∧ (∀ t, r = some t → Asks g P b id s t.aggregation) ∧ (r = none → Ready g b s' id)

theorem checkResult_some {t : AggregationTrigger} (hs : Checked s s') (ht : Asks g P b id s t.aggregation) :
    CheckResult g P b id s (some t) s' :=
  ⟨hs, by rintro _ ⟨⟩; exact ht, nofun⟩

theorem checkResult_none (hs : Checked s s') (hr : Ready g b s' id) : CheckResult g P b id s none s' :=
  ⟨hs, nofun, fun _ => hr⟩

theorem extend_trigger {o : Option BlockInterval} (ho : InFlight o P) (ht : BlobTiles e (P ++ [b]) m)
    (type : AggregationTriggerType) (hid : Reached g b s id) :
    wp (do pure (some ⟨type, ← extend o b⟩)) (CheckResult g P b id s) (fun _ _ => False) s := by
  rw [wp_bind]
  exact extend_spec ho ht fun i hi => checkResult_some .refl (.inr ⟨hi, hid⟩)

theorem byProofLimit_check (hflight : InFlight (s.proofsInFlight.map (·.2)) P) (ht : BlobTiles e (P ++ [b]) m)
    (hle : b.countProofs ≤ g.maxProofsPerAggregation) :
    wp ((byProofLimit g.maxProofsPerAggregation).checkAggregationTrigger b) (CheckResult g P b .proofLimit s)
      (fun _ _ => False) s := by
  unfold byProofLimit
  simp only
  rw [if_neg (UInt32.not_lt.mpr hle), wp_bind, wp_get]
  cases hs : s.proofsInFlight with
  | none =>
    rw [hs] at hflight
    refine wp_ite (fun heq => extend_trigger hflight ht .proofLimit ?_)
      (fun _ => checkResult_none .refl ⟨hle, by simpa [hs] using hle⟩)
    simpa [Reached, count, hs] using heq
  | some p =>
    obtain ⟨n, i⟩ := p
    rw [hs] at hflight
    refine wp_ite (fun _ => checkResult_some .refl (.inl hflight.spans)) (fun hgt => ?_)
    refine wp_ite (fun heq => extend_trigger hflight ht .proofLimit ?_)
      (fun _ => checkResult_none .refl ⟨hle, by simpa [hs] using hgt⟩)
    simpa [Reached, count, hs] using heq

theorem byBlobLimit_check (hflight : InFlight (s.blobsInFlight.map (·.2)) P) (ht : BlobTiles e (P ++ [b]) m) :
    wp ((byBlobLimit g.maxBlobsPerAggregation).checkAggregationTrigger b) (CheckResult g P b .blobLimit s)
      (fun _ _ => False) s := by
  unfold byBlobLimit
  rw [wp_bind, wp_get]
  refine wp_ite (fun hge => extend_trigger hflight ht .blobLimit hge) (fun hlt => checkResult_none .refl ?_)
  exact UInt32.not_le.mp hlt

theorem le_getLast_mergeSort {l : List UInt64} {n last : UInt64} (hlast : l.mergeSort.getLast? = some last)
    (hn : n ∈ l.mergeSort) : n ≤ last := by
  have hle := (pairwise_mergeSort' (· ≤ ·) l).rel_getLast hn
  rwa [getLast_of_mem_getLast? hlast] at hle

theorem byTargetBlockNumbers_check (hflight : InFlight s.targetInFlight P) (ht : BlobTiles e (P ++ [b]) m) :
    wp (byTargetBlockNumbers.checkAggregationTrigger b) (CheckResult g P b .targetBlockNumbers s)
      (fun _ _ => False) s := by
  unfold byTargetBlockNumbers
  rw [wp_bind, wp_get]
  dsimp only
  have hmem {t : UInt64} : t ∈ s.targetEndBlockNumbers.mergeSort ↔ t ∈ s.targetEndBlockNumbers := mem_mergeSort
  split
  · next hnil =>
    refine checkResult_none .refl fun hb => ?_
    rw [getLast?_eq_none_iff.mp hnil] at hmem
    exact absurd (hmem.mpr hb) not_mem_nil
  · next last hlast =>
    refine wp_ite (fun hgt => ?_) (fun _ => wp_ite (fun hfind => ?_) (fun _ => ?_))
    · refine checkResult_none ⟨true, rfl⟩ fun hb => absurd (le_getLast_mergeSort hlast (hmem.mpr hb)) ?_
      exact UInt64.not_le.mpr hgt
    · refine checkResult_none .refl fun _ => ?_
      obtain ⟨t, ht, hin⟩ := find?_isSome.mp hfind
      exact ⟨t, hmem.mp ht, by simpa using hin⟩
    · exact wp_ite (fun hend => extend_trigger hflight ht .targetBlockNumber (hmem.mp hend))
        (fun hnot => checkResult_none .refl fun hb => absurd (hmem.mpr hb) hnot)

theorem byTimestampHardFork_check (hflight : InFlight s.forkInFlight P) :
    wp ((byTimestampHardFork g.hardForkTimestamps).checkAggregationTrigger b)
      (CheckResult g P b .timestampHardFork s) (fun _ _ => False) s := by
  unfold byTimestampHardFork
  rw [wp_bind, wp_get]
  dsimp only
  split
  · next hi =>
    rw [hi] at hflight
    exact checkResult_some .refl (.inl hflight.spans)
  · next hnot =>
    refine checkResult_none .refl fun f hf hlt hle => ?_
    cases hi : s.forkInFlight with
    | none => rfl
    | some i =>
      have happlies : (g.hardForkTimestamps.find? fun t =>
          s.lastProcessedTimestamp < t && t ≤ b.endBlockTimestamp).isSome :=
        find?_isSome.mpr ⟨f, hf, by simp [hlt, hle]⟩
      obtain ⟨f', hf'⟩ := Option.isSome_iff_exists.mp happlies
      exact (hnot f' i hf' hi).elim

theorem check_spec (hflight : InFlight ((g.calculator id).inFlight s) P) (ht : BlobTiles e (P ++ [b]) m)
    (hfits : id = .proofLimit → b.countProofs ≤ g.maxProofsPerAggregation) :
    wp ((g.calculator id).checkAggregationTrigger b) (CheckResult g P b id s) (fun _ _ => False) s := by
  cases id with
  | proofLimit => exact byProofLimit_check hflight ht (hfits rfl)
  | targetBlockNumbers => exact byTargetBlockNumbers_check hflight ht
  | blobLimit => exact byBlobLimit_check hflight ht
  | timestampHardFork => exact byTimestampHardFork_check hflight

/-- What the trigger calculators have no access to, and the targets, stay. -/
structure Framed (s s' : State) : Prop where
  pending : s'.pendingBlobs = s.pendingBlobs
  aggregations : s'.aggregations = s.aggregations
  last : s'.lastBlockNumber = s.lastBlockNumber
  deadlines : s'.deadlines = s.deadlines
  targets : s'.targetEndBlockNumbers = s.targetEndBlockNumbers

theorem Framed.trans {s'' : State} (h : Framed s s') (h' : Framed s' s'') : Framed s s'' :=
  ⟨h'.pending.trans h.pending, h'.aggregations.trans h.aggregations, h'.last.trans h.last,
    h'.deadlines.trans h.deadlines,
    h'.targets.trans h.targets⟩

theorem Checked.framed (h : Checked s s') : Framed s s' := by
  obtain ⟨flag, rfl⟩ := h
  exact ⟨rfl, rfl, rfl, rfl, rfl⟩

structure Registered (g : GlobalAggregationCalculator) (b : BlobCounters) (id : CalculatorId) (s s' : State) : Prop
    extends Framed s s' where
  inFlight : ∀ id', id' ≠ id → (g.calculator id').inFlight s' = (g.calculator id').inFlight s
  ready : ∀ id', id' ≠ id → Ready g b s id' → Ready g b s' id'
  count : ∀ id', id' ≠ id → count s' id' = count s id'
  time : id ≠ .timestampHardFork → s'.lastProcessedTimestamp = s.lastProcessedTimestamp
  deadline : s'.deadlineInFlight = s.deadlineInFlight

theorem registered_of (hproofs : id ≠ .proofLimit → s'.proofsInFlight = s.proofsInFlight)
    (hblobs : id ≠ .blobLimit → s'.blobsInFlight = s.blobsInFlight)
    (htarget : id ≠ .targetBlockNumbers → s'.targetInFlight = s.targetInFlight)
    (hfork : id ≠ .timestampHardFork →
      s'.forkInFlight = s.forkInFlight ∧ s'.lastProcessedTimestamp = s.lastProcessedTimestamp)
    (hdeadline : s'.deadlineInFlight = s.deadlineInFlight) (hframe : Framed s s') : Registered g b id s s' where
  toFramed := hframe
  inFlight := by
    intro id' hne
    cases id' with
    | proofLimit => exact congrArg (Option.map (·.2)) (hproofs hne.symm)
    | blobLimit => exact congrArg (Option.map (·.2)) (hblobs hne.symm)
    | targetBlockNumbers => exact htarget hne.symm
    | timestampHardFork => exact (hfork hne.symm).1
  ready := by
    intro id' hne hr
    cases id' with
    | proofLimit => simpa only [Ready, hproofs hne.symm] using hr
    | blobLimit => simpa only [Ready, blobCountWithOneMore, hblobs hne.symm] using hr
    | targetBlockNumbers => simpa only [Ready, hframe.targets] using hr
    | timestampHardFork => rwa [Ready, (hfork hne.symm).1, (hfork hne.symm).2]
  count := by
    intro id' hne
    cases id' with
    | proofLimit => simp only [Aggregation.count, hproofs hne.symm]
    | blobLimit => simp only [Aggregation.count, hblobs hne.symm]
    | targetBlockNumbers => rfl
    | timestampHardFork => rfl
  time := fun hne => (hfork hne).2
  deadline := hdeadline

theorem newBlob_spec (hflight : InFlight ((g.calculator id).inFlight s) P) (ht : BlobTiles e (P ++ [b]) m)
    (hready : Ready g b s id) :
    wp ((g.calculator id).newBlob b)
      (fun _ s' => InFlight ((g.calculator id).inFlight s') (P ++ [b]) ∧ count s' id = count s id + countOf b id ∧
        (id = .timestampHardFork → s'.lastProcessedTimestamp = b.endBlockTimestamp) ∧ Registered g b id s s')
      (fun _ _ => False) s := by
  cases id with
  | proofLimit =>
    obtain ⟨hle, hsum⟩ := hready
    unfold calculator byProofLimit
    simp only
    rw [if_neg (UInt32.not_lt.mpr hle), wp_bind, wp_get, if_neg (UInt32.not_lt.mpr hsum), wp_bind]
    exact extend_spec hflight ht fun i hi => ⟨.inr ⟨i, rfl, hi⟩, rfl, nofun, registered_of (fun h => absurd rfl h)
      (fun _ => rfl) (fun _ => rfl) (fun _ => ⟨rfl, rfl⟩) rfl ⟨rfl, rfl, rfl, rfl, rfl⟩⟩
  | targetBlockNumbers =>
    unfold calculator byTargetBlockNumbers
    simp only
    rw [wp_bind, wp_get, wp_bind]
    exact extend_spec hflight ht fun i hi => ⟨.inr ⟨i, rfl, hi⟩, rfl, nofun, registered_of (fun _ => rfl) (fun _ => rfl)
      (fun h => absurd rfl h) (fun _ => ⟨rfl, rfl⟩) rfl ⟨rfl, rfl, rfl, rfl, rfl⟩⟩
  | blobLimit =>
    unfold calculator byBlobLimit
    simp only
    rw [wp_bind, wp_get, if_neg (UInt32.not_le.mpr hready), wp_bind]
    exact extend_spec hflight ht fun i hi => ⟨.inr ⟨i, rfl, hi⟩, rfl, nofun, registered_of (fun _ => rfl)
      (fun h => absurd rfl h) (fun _ => rfl) (fun _ => ⟨rfl, rfl⟩) rfl ⟨rfl, rfl, rfl, rfl, rfl⟩⟩
  | timestampHardFork =>
    unfold calculator byTimestampHardFork
    simp only
    rw [wp_bind, wp_get, wp_bind]
    exact extend_spec hflight ht fun i hi => ⟨.inr ⟨i, rfl, hi⟩, rfl, fun _ => rfl, registered_of (fun _ => rfl)
      (fun _ => rfl) (fun _ => rfl) (fun h => absurd rfl h) rfl ⟨rfl, rfl, rfl, rfl, rfl⟩⟩

/-! ### The invariant -/

section

variable (g : GlobalAggregationCalculator)

/-- A blob that an aggregation of its own may hold. -/
structure Fits (b : BlobCounters) : Prop where
  start_ne_zero : b.startBlockNumber ≠ 0
  start_le_end : b.startBlockNumber ≤ b.endBlockNumber
  proofs : .proofLimit ∈ g.syncAggregationTrigger → b.countProofs ≤ g.maxProofsPerAggregation

section

variable (T : Option Watched) (e : Nat) (s : State)

/-- The pending blobs follow block `e`. An interval that the deadline calculator ever held is either aggregated by
now or a leading part of the pending blobs. -/
structure Pending : Prop where
  tiles : ∃ m, BlobTiles e s.pendingBlobs m
  fits : ∀ b ∈ s.pendingBlobs, Fits g b
  orderly : ∀ ts ∈ T, Orderly g ts s.pendingBlobs
  deadlines : ∀ i ∈ s.deadlines, i.lo ≤ e ∨ Leading s.pendingBlobs i

structure Consistent : Prop extends
    Pending g T e s where
  sync : ∀ id ∈ g.syncAggregationTrigger, InFlight ((g.calculator id).inFlight s) s.pendingBlobs
  deadline : g.deadline = true → InFlight (s.deadlineInFlight.map (·.2)) s.pendingBlobs
  counted : ∀ ts ∈ T, Counted g ts s.pendingBlobs s

/-- From `s`, where `blobs` were to be aggregated after block `e`, a program aggregated whole groups of them up to
block `e'` and left the rest pending. -/
structure Outcome (blobs : List BlobCounters) (e' : Nat) (s' : State) : Prop where
  consistent : Consistent g T e' s'
  last : s'.lastBlockNumber = s.lastBlockNumber
  groups : ∃ (intervals : List BlockInterval) (groups : List (List BlobCounters)),
    s'.aggregations = s.aggregations ++ intervals ∧ List.Forall₂ Spans intervals groups ∧
    blobs = groups.flatten ++ s'.pendingBlobs ∧ BlobTiles e groups.flatten e' ∧
    ∀ ts ∈ T, ∀ A ∈ groups, WithinLimits g ts A ∧ SizeOk g A

end

end

theorem Pending.of_framed (h : Pending g T e s) (hs : Framed s s') : Pending g T e s' := by
  obtain ⟨htiles, hfits, horderly, hdeadlines⟩ := h
  rw [← hs.pending] at htiles hfits horderly hdeadlines
  exact ⟨htiles, hfits, horderly, hs.deadlines ▸ hdeadlines⟩

theorem Outcome.refl (h : Consistent g T e s) : Outcome g T e s s.pendingBlobs e s :=
  ⟨h, rfl, [], [], by simp, .nil, by simp, rfl, nofun⟩

theorem Outcome.trans {s₁ s₂ : State} {blobs more : List BlobCounters} {e₁ e₂ : Nat}
    (h₁ : Outcome g T e s blobs e₁ s₁) (h₂ : Outcome g T e₁ s₁ (s₁.pendingBlobs ++ more) e₂ s₂) :
    Outcome g T e s (blobs ++ more) e₂ s₂ := by
  obtain ⟨is₁, gs₁, ha₁, hs₁, hb₁, ht₁, hl₁⟩ := h₁.groups
  obtain ⟨is₂, gs₂, ha₂, hs₂, hb₂, ht₂, hl₂⟩ := h₂.groups
  refine ⟨h₂.consistent, h₂.last.trans h₁.last, is₁ ++ is₂, gs₁ ++ gs₂, ?_, rel_append hs₁ hs₂, ?_, ?_,
    fun ts hts => forall_mem_append.mpr ⟨hl₁ ts hts, hl₂ ts hts⟩⟩
  · rw [ha₂, ha₁, append_assoc]
  · rw [hb₁, append_assoc, hb₂, flatten_append, append_assoc]
  · rw [flatten_append]
    exact tiles_append.mpr ⟨e₁, ht₁, ht₂⟩

/-! ### Adding a blob -/

theorem addPending_eq (ht : BlobTiles e (s.pendingBlobs ++ [b]) m) :
    addPending b s = { s with pendingBlobs := s.pendingBlobs ++ [b] } := by
  unfold addPending
  congr 1
  -- every pending blob starts before `b`
  have hlt : ∀ c ∈ s.pendingBlobs, ¬ b.startBlockNumber ≤ c.startBlockNumber := by
    intro c hc
    obtain ⟨k, hP, hk⟩ := tiles_append.mp ht
    have hc' := hP.mem_le hc
    have hb : b.lo = k + 1 := hk.1
    rw [UInt64.le_iff_toNat_le]
    show ¬ b.lo ≤ c.lo
    omega
  generalize s.pendingBlobs = P at hlt
  induction P with
  | nil => rfl
  | cons c P ih =>
    rw [orderedInsert, if_neg (hlt c (by simp)), ih fun c hc => hlt c (by simp [hc]), cons_append]

theorem deadlineNewBlob_spec (hflight : g.deadline = true → InFlight (s.deadlineInFlight.map (·.2)) P)
    (ht : BlobTiles e (P ++ [b]) m) (hg : g.deadline = true) :
    wp (deadlineNewBlob b)
      (fun _ s' => ∃ i t, Spans i (P ++ [b]) ∧
        s' = { s with deadlineInFlight := some (t, i), deadlines := s.deadlines ++ [i] })
      (fun _ _ => False) s := by
  unfold deadlineNewBlob
  rw [wp_bind, wp_get, wp_bind]
  exact extend_spec (hflight hg) ht fun i hi => ⟨i, _, hi, rfl⟩

/-- The forks that are watched are those of the calculator, which is in use. -/
def Watched.Known (g : GlobalAggregationCalculator) (ts : Watched) : Prop :=
  ∀ f ∈ ts.forks, f ∈ g.hardForkTimestamps ∧ .timestampHardFork ∈ g.syncAggregationTrigger

theorem Counted.apart_concat (h : Counted g ts P s) (hknown : ts.Known g) (hb : ComesAfter g ts P b)
    (hready : ∀ id ∈ g.syncAggregationTrigger, Ready g b s id)
    (hsync : ∀ id ∈ g.syncAggregationTrigger, InFlight ((g.calculator id).inFlight s) P) :
    Apart ts.forks (P ++ [b]) := by
  refine h.forks.concat hb fun f hf _ hend hbefore => ?_
  obtain ⟨hf', hid⟩ := hknown f hf
  rcases eq_nil_or_concat P with rfl | ⟨P, c, rfl⟩
  · rfl
  rw [concat_eq_append] at h hsync hbefore
  have htime := h.time (ne_nil_of_mem hf) c (by simp)
  -- the calculator by hard forks has seen `P` and would have asked for it
  have hnone := hready _ hid f hf' (by rw [htime]; exact (hbefore c (by simp)).2) hend
  rcases hsync _ hid with ⟨hnil, -⟩ | ⟨i, hi, -⟩
  · rw [concat_eq_append, hnil]
  · exact absurd (hnone.symm.trans hi) nofun

theorem Counted.concat (h : Counted g ts P s) (hg : Regular g) (hb : ComesAfter g ts P b)
    (hready : ∀ id ∈ g.syncAggregationTrigger, Ready g b s id)
    (hcount : ∀ id ∈ g.syncAggregationTrigger, count s' id = count s id + countOf b id)
    (htime : ts.forks ≠ [] → s'.lastProcessedTimestamp = b.endBlockTimestamp) (hforks : Apart ts.forks (P ++ [b]))
    (htargets : s'.targetEndBlockNumbers = s.targetEndBlockNumbers) : Counted g ts (P ++ [b]) s' where
  known := htargets.trans h.known
  proofs := fun hid => by
    obtain ⟨hle, hsum⟩ := hready _ hid
    have hadd := h.toNat_add hg hb.clear hid hle
    rw [hcount _ hid]
    refine ⟨hadd, ?_⟩
    rw [← hadd]
    exact UInt32.le_iff_toNat_le.mp hsum
  blobs := fun hid => by
    have hlt : (count s .blobLimit + 1).toNat < _ := UInt32.lt_iff_toNat_lt.mp (hready _ hid)
    have hadd := h.toNat_succ hid
    rw [hcount _ hid, length_append, length_singleton]
    exact ⟨hadd, hadd ▸ hlt⟩
  targets := fun hid => by
    refine forall_mem_append.mpr ⟨h.targets hid, forall_mem_singleton.mpr fun hend => ?_⟩
    have hr := hready _ hid
    unfold Ready at hr
    rw [h.known] at hr
    obtain ⟨t, ht, hlo, hhi⟩ := hr hend
    exact hb.clear.targets t ht hlo hhi hend
  forks := hforks
  time := fun hne c hc => by
    rw [getLast?_concat, Option.mem_some_iff] at hc
    rw [htime hne, hc]

theorem register_spec (hT : ∀ ts ∈ T, Regular g ∧ ts.Known g) (hp : Pending g T e s)
    (hpending : s.pendingBlobs = P ++ [b])
    (hsync : ∀ id ∈ g.syncAggregationTrigger, InFlight ((g.calculator id).inFlight s) P)
    (hdead : g.deadline = true → InFlight (s.deadlineInFlight.map (·.2)) P)
    (hcounted : ∀ ts ∈ T, Counted g ts P s) (hready : ∀ id ∈ g.syncAggregationTrigger, Ready g b s id) :
    wp (g.register b)
      (fun _ s' => Consistent g T e s' ∧ s'.pendingBlobs = s.pendingBlobs ∧ s'.aggregations = s.aggregations ∧
        s'.lastBlockNumber = s.lastBlockNumber)
      (fun _ _ => False) s := by
  obtain ⟨m, ht⟩ := hp.tiles
  rw [hpending] at ht
  unfold register
  rw [wp_bind]
  -- the calculators done have seen `b`, the others are still ready for it
  let I : List CalculatorId → State → Prop := fun done s' =>
    (∀ id ∈ done, InFlight ((g.calculator id).inFlight s') (P ++ [b]) ∧ count s' id = count s id + countOf b id) ∧
    (.timestampHardFork ∈ done → s'.lastProcessedTimestamp = b.endBlockTimestamp) ∧
    (∀ id ∈ g.syncAggregationTrigger, id ∉ done →
      InFlight ((g.calculator id).inFlight s') P ∧ Ready g b s' id ∧ count s' id = count s id) ∧
    Framed s s' ∧ s'.deadlineInFlight = s.deadlineInFlight
  refine wp_mono (wp_forM_done (I := I) ?_ ⟨nofun, nofun, fun id hid _ => ⟨hsync id hid, hready id hid, rfl⟩,
    ⟨rfl, rfl, rfl, rfl, rfl⟩, rfl⟩) (fun _ s₁ h₁ => ?_)
  · rintro done id rest hids s₁ ⟨hdone, htime, hrest, hframe, hdl⟩
    have hnew : id ∉ done := by
      have := g.sync_nodup
      rw [hids, nodup_append] at this
      exact fun hid => this.2.2 id hid id (by simp) rfl
    obtain ⟨hflight, hr, hn⟩ := hrest id (by simp [hids]) hnew
    refine wp_mono (newBlob_spec hflight ht hr) ?_
    rintro _ s₂ ⟨hflight', hn', htime', hreg⟩
    refine ⟨fun id' hid' => ?_, fun hid' => ?_, fun id' hid' hnot => ?_, hframe.trans hreg.toFramed,
      hreg.deadline.trans hdl⟩
    · by_cases heq : id' = id
      · rw [heq]
        exact ⟨hflight', by rw [hn', hn]⟩
      · rw [hreg.inFlight id' heq, hreg.count id' heq]
        exact hdone id' (by simpa [heq] using hid')
    · by_cases heq : id = .timestampHardFork
      · exact htime' heq
      · rw [hreg.time heq]
        exact htime (by simpa [Ne.symm heq] using hid')
    · rw [mem_append, mem_singleton, not_or] at hnot
      obtain ⟨hf, hr', hn''⟩ := hrest id' hid' hnot.1
      exact ⟨by rw [hreg.inFlight id' hnot.2]; exact hf, hreg.ready id' hnot.2 hr', (hreg.count id' hnot.2).trans hn''⟩
  · obtain ⟨hdone, htime, -, hframe, hdl⟩ := h₁
    have hp₁ := hp.of_framed hframe
    have hpen := hframe.pending
    have hsync₁ : ∀ id ∈ g.syncAggregationTrigger, InFlight ((g.calculator id).inFlight s₁) s₁.pendingBlobs := by
      rw [hpen, hpending]
      exact fun id hid => (hdone id hid).1
    have hcounted₁ : ∀ ts ∈ T, Counted g ts s₁.pendingBlobs s₁ := by
      intro ts hts
      obtain ⟨hreg, hknown⟩ := hT ts hts
      have hb : ComesAfter g ts P b := Orderly.last (hpending ▸ hp.orderly ts hts)
      rw [hpen, hpending]
      refine (hcounted ts hts).concat hreg hb hready (fun id hid => (hdone id hid).2) (fun hne => ?_)
        ((hcounted ts hts).apart_concat hknown hb hready hsync) hframe.targets
      obtain ⟨f, hf⟩ := exists_mem_of_ne_nil _ hne
      exact htime (hknown f hf).2
    refine wp_ite (fun hg => ?_) (fun hg => ⟨⟨hp₁, hsync₁, fun h => absurd h hg, hcounted₁⟩, hpen, hframe.aggregations,
      hframe.last⟩)
    refine wp_mono (deadlineNewBlob_spec (by rw [hdl]; exact hdead) ht hg) ?_
    rintro _ s₂ ⟨i, t, hi, rfl⟩
    have hi' : Spans i s₁.pendingBlobs := by rwa [hpen, hpending]
    refine ⟨⟨⟨hp₁.tiles, hp₁.fits, hp₁.orderly, fun j hj => ?_⟩, fun id hid => ?_, fun _ => .inr ⟨i, rfl, hi'⟩,
      fun ts hts => ?_⟩, hpen, hframe.aggregations, hframe.last⟩
    · rcases mem_append.mp hj with hj | hj
      · exact hp₁.deadlines j hj
      · rw [mem_singleton.mp hj]
        exact .inr (.whole hi')
    · cases id <;> exact hsync₁ _ hid
    · have hc := hcounted₁ ts hts
      exact ⟨hc.known, hc.proofs, hc.blobs, hc.targets, hc.forks, hc.time⟩

/-! ### Cutting an aggregation -/

theorem takeWhile_inAggregation (h : Spans i A) (ht : BlobTiles e (A ++ R) m) :
    (A ++ R).takeWhile (inAggregation i) = A ∧
      (A ++ R).dropWhile (inAggregation i) = R := by
  obtain ⟨hA, hR, -⟩ := h.bounds ht
  have hin : ∀ c ∈ A, inAggregation i c = true := by
    intro c hc
    obtain ⟨h₁, h₂⟩ := hA c hc
    simp only [inAggregation, Bool.and_eq_true, decide_eq_true_eq, UInt64.le_iff_toNat_le]
    exact ⟨h₁, h₂⟩
  have hout : ∀ c ∈ R, inAggregation i c = false := by
    intro c hc
    have hlt := hR c hc
    have hc' := (ht.mem_le (mem_append_right A hc)).2.1
    rw [← Bool.not_eq_true]
    simp only [inAggregation, Bool.and_eq_true, decide_eq_true_eq, UInt64.le_iff_toNat_le]
    rintro ⟨-, hle⟩
    replace hle : c.hi ≤ i.hi := hle
    omega
  rw [takeWhile_append_of_pos hin, dropWhile_append_of_pos hin]
  cases R with
  | nil => simp
  | cons c R => simp [hout c (by simp)]

theorem updatedSize_spec {size multiple : Nat} (hm : 0 < multiple) (hsize : 0 < size) :
    ∃ n, getUpdatedAggregationSize size multiple = pure n ∧ 0 < n ∧ n ≤ size ∧
      (n % multiple = 0 ∨ n ≤ multiple) := by
  unfold getUpdatedAggregationSize
  by_cases h : size > multiple
  · rw [if_pos h, if_neg (by omega)]
    have hmod := mod_lt size hm
    refine ⟨_, rfl, by omega, sub_le _ _, .inl ?_⟩
    rw [Nat.sub_eq_of_eq_add (Nat.div_add_mod size multiple).symm, Nat.mul_mod_right]
  · rw [if_neg h]
    exact ⟨_, rfl, hsize, le_rfl, .inr (Nat.not_lt.mp h)⟩

theorem interval_spec (hne : A ≠ []) (ht : BlobTiles e A m) (hQ : ∀ i, Spans i A → Q i s) : wp (interval A) Q E s := by
  have hf := head?_eq_some_head hne
  have hl := getLast?_eq_some_getLast hne
  unfold interval
  rw [hf, hl]
  refine blobsToAggregate_spec ?_ fun i hs he => hQ i ⟨_, _, hf, hl, hs, he⟩
  have hlast := ht.mem_le (getLast_mem hne)
  have hfirst : (A.head hne).lo = e + 1 := by
    obtain ⟨A', hA'⟩ := head?_eq_some_iff.mp hf
    rw [hA'] at ht
    exact ht.1
  rw [UInt64.le_iff_toNat_le]
  show (A.head hne).lo ≤ (A.getLast hne).hi
  omega

theorem mergeSort_tiles (ht : BlobTiles e A m) :
    A.mergeSort (fun b c => b.startBlockNumber ≤ c.startBlockNumber) = A := by
  refine mergeSort_of_pairwise ?_
  induction A generalizing e with
  | nil => exact .nil
  | cons b A ih =>
    obtain ⟨-, hle, ht⟩ := ht
    refine .cons (fun c hc => ?_) (ih ht)
    have hc' := ht.mem_le hc
    rw [decide_eq_true_eq, UInt64.le_iff_toNat_le]
    show b.lo ≤ c.lo
    omega

theorem reset_spec (s : State) :
    (∀ id ∈ g.syncAggregationTrigger, (g.calculator id).inFlight (g.resetTriggerCalculators s) = none) ∧
    (g.deadline = true → (g.resetTriggerCalculators s).deadlineInFlight = none) ∧
    Framed s (g.resetTriggerCalculators s) := by
  have hfold : ∀ (ids : List CalculatorId) (s : State),
      let s' := ids.foldl (fun s id => (g.calculator id).reset s) s
      (∀ id, (id ∈ ids ∨ (g.calculator id).inFlight s = none) → (g.calculator id).inFlight s' = none) ∧
        Framed s s' := by
    intro ids
    induction ids with
    | nil => exact fun s => ⟨fun id h => h.resolve_left (by simp), rfl, rfl, rfl, rfl, rfl⟩
    | cons id ids ih =>
      intro s
      obtain ⟨h₁, h₂⟩ := ih ((g.calculator id).reset s)
      refine ⟨fun id' h => h₁ id' ?_, Framed.trans (by cases id <;> exact ⟨rfl, rfl, rfl, rfl, rfl⟩) h₂⟩
      · by_cases heq : id' = id
        · right
          rw [heq]
          cases id <;> rfl
        · rcases h with h | h
          · exact .inl ((mem_cons.mp h).resolve_left heq)
          · right
            cases id <;> cases id' <;> first | exact h | exact absurd rfl heq
  obtain ⟨h₁, h₂⟩ := hfold g.syncAggregationTrigger s
  unfold resetTriggerCalculators
  dsimp only
  split
  · exact ⟨fun id hid => by cases id <;> exact h₁ _ (.inl hid), fun _ => rfl, h₂.trans ⟨rfl, rfl, rfl, rfl, rfl⟩⟩
  · next hg => exact ⟨fun id hid => h₁ id (.inl hid), fun h => absurd h hg, h₂⟩

theorem count_eq_zero (h : (g.calculator id).inFlight s = none) : count s id = 0 := by
  cases id with
  | proofLimit =>
    have : s.proofsInFlight = none := Option.map_eq_none_iff.mp h
    simp [count, this]
  | blobLimit =>
    have : s.blobsInFlight = none := Option.map_eq_none_iff.mp h
    simp [count, this]
  | targetBlockNumbers => rfl
  | timestampHardFork => rfl

theorem counted_nil (hg : Regular g) (hP : P = [])
    (hs : ∀ id ∈ g.syncAggregationTrigger, (g.calculator id).inFlight s = none)
    (hts : s.targetEndBlockNumbers = ts.targets) : Counted g ts P s := by
  subst hP
  refine ⟨hts, fun hid => ⟨?_, zero_le _⟩, fun hid => ⟨?_, hg.blobs hid⟩, fun _ => nofun, fun _ _ => .inl nofun,
    fun _ => nofun⟩
  · rw [count_eq_zero (hs _ hid)]
    rfl
  · rw [count_eq_zero (hs _ hid)]
    rfl

/-! ### Processing blobs again -/

/-- `process` takes a blob into a state with fewer than `n` pending blobs and does not throw. -/
def Processes (g : GlobalAggregationCalculator) (T : Option Watched) (process : BlobCounters → AggM Unit)
    (n : Nat) : Prop :=
  ∀ {e m : Nat} {s : State} {b : BlobCounters}, Consistent g T e s → BlobTiles e (s.pendingBlobs ++ [b]) m → Fits g b →
    (∀ ts ∈ T, Orderly g ts (s.pendingBlobs ++ [b])) → s.pendingBlobs.length < n →
    wp (process b) (fun _ s' => ∃ e', Outcome g T e s (s.pendingBlobs ++ [b]) e' s') (fun _ _ => False) s

variable {process : BlobCounters → AggM Unit} {n : Nat}

theorem reprocess_spec (hp : Processes g T process n) {L : List BlobCounters} (h : Consistent g T e s)
    (ht : BlobTiles e (s.pendingBlobs ++ L) m) (hfits : ∀ b ∈ L, Fits g b)
    (horderly : ∀ ts ∈ T, Orderly g ts (s.pendingBlobs ++ L)) (hlen : s.pendingBlobs.length + L.length ≤ n) :
    wp (L.forM process) (fun _ s' => ∃ e', Outcome g T e s (s.pendingBlobs ++ L) e' s') (fun _ _ => False) s := by
  induction L generalizing e s with
  | nil =>
    refine ⟨e, ?_⟩
    rw [append_nil]
    exact .refl h
  | cons b L ih =>
    rw [append_cons] at ht
    obtain ⟨k, htb, -⟩ := tiles_append.mp ht
    rw [length_cons] at hlen
    show wp (process b >>= fun _ => L.forM process) _ _ s
    rw [wp_bind]
    rw [append_cons] at horderly
    refine wp_mono (hp h htb (hfits b (by simp)) (fun ts hts => (horderly ts hts).left) (by omega)) ?_
    rintro _ s₁ ⟨e₁, h₁⟩
    obtain ⟨_, gs, -, -, hblobs, hgs, -⟩ := h₁.groups
    -- the blobs left pending are followed by the rest of the list
    have ht₁ : BlobTiles e₁ (s₁.pendingBlobs ++ L) m := by
      rw [hblobs, append_assoc] at ht
      obtain ⟨k', hk', hrest⟩ := tiles_append.mp ht
      rwa [← hgs.unique hk'] at hrest
    have hlen₁ : s₁.pendingBlobs.length + L.length ≤ n := by
      have := congrArg length hblobs
      rw [length_append, length_append, length_singleton] at this
      omega
    have horderly₁ : ∀ ts ∈ T, Orderly g ts (s₁.pendingBlobs ++ L) := by
      intro ts hts
      have := horderly ts hts
      rw [hblobs, append_assoc] at this
      exact this.right
    refine wp_mono (ih h₁.consistent ht₁ (fun b hb => hfits b (by simp [hb])) horderly₁ hlen₁)
      ?_
    rintro _ s₂ ⟨e₂, h₂⟩
    refine ⟨e₂, ?_⟩
    rw [append_cons]
    exact h₁.trans h₂

theorem find_isNone_false {p : BlobCounters → Bool} {l : List BlobCounters} {c : BlobCounters} (hc : c ∈ l)
    (hp : p c = true) : (l.find? p).isNone = false := by
  rw [Option.isNone_eq_false_iff, find?_isSome]
  exact ⟨c, hc, hp⟩

theorem handleAggregationTrigger_spec (hT : ∀ ts ∈ T, Regular g ∧ s.targetEndBlockNumbers = ts.targets)
    (hp : Processes g T process n) (hm : 0 < g.aggregationSizeMultipleOf) (h : Pending g T e s) {t : AggregationTrigger}
    (hpending : s.pendingBlobs = A ++ R) (hspan : Spans t.aggregation A) (hA : ∀ ts ∈ T, WithinLimits g ts A)
    (hlen : s.pendingBlobs.length ≤ n + 1) :
    wp (g.handleAggregationTrigger process t) (fun _ s' => ∃ e', Outcome g T e s s.pendingBlobs e' s')
      (fun _ _ => False) s := by
  obtain ⟨m, ht⟩ := h.tiles
  rw [hpending] at ht
  obtain ⟨first, last, hfirst, hlast, hstart, hend⟩ := id hspan
  have hfound₁ : (s.pendingBlobs.find? (·.startBlockNumber == t.aggregation.startBlockNumber)).isNone = false :=
    find_isNone_false (c := first) (by rw [hpending]; exact mem_append_left _ (mem_of_mem_head? hfirst))
      (by rw [hstart]; exact beq_self_eq_true _)
  have hfound₂ : (s.pendingBlobs.find? (·.endBlockNumber == t.aggregation.endBlockNumber)).isNone = false :=
    find_isNone_false (c := last) (by rw [hpending]; exact mem_append_left _ (mem_of_mem_getLast? hlast))
      (by rw [hend]; exact beq_self_eq_true _)
  obtain ⟨htake, hdrop⟩ := takeWhile_inAggregation hspan ht
  have hApos : 0 < A.length := length_pos_of_ne_nil hspan.ne_nil
  obtain ⟨u, hu, hupos, hule, hsize⟩ := updatedSize_spec hm hApos
  -- the aggregation takes the first `u` blobs, the rest goes round again
  have hsplit : A.take u ++ (A.drop u ++ R) = s.pendingBlobs := by
    rw [← append_assoc, take_append_drop, hpending]
  have hne : A.take u ≠ [] := by
    rw [← length_pos_iff, length_take]
    omega
  have ht' := ht
  rw [← hpending, ← hsplit] at ht'
  obtain ⟨e₁, ht₁, htrest⟩ := tiles_append.mp ht'
  unfold handleAggregationTrigger
  simp only [wp_bind, wp_get]
  rw [hfound₁, hfound₂, if_neg (by simp)]
  simp only [wp_bind, wp_set, hpending, htake, hdrop, hu, wp_pure]
  refine interval_spec hne ht₁ fun i hi => ?_
  rw [wp_bind, wp_modify, wp_bind, wp_modify, mergeSort_tiles htrest]
  obtain ⟨hsync, hdead, hframe⟩ := reset_spec (g := g) { s with pendingBlobs := [] }
  generalize g.resetTriggerCalculators { s with pendingBlobs := [] } = s₁ at hsync hdead hframe ⊢
  have hpen : s₁.pendingBlobs = [] := hframe.pending
  have hnone : ∀ id ∈ g.syncAggregationTrigger,
      (g.calculator id).inFlight { s₁ with aggregations := s₁.aggregations ++ [i] } = none := by
    intro id hid
    have := hsync id hid
    cases id <;> exact this
  have hcons : Consistent g T e₁ { s₁ with aggregations := s₁.aggregations ++ [i] } := by
    refine ⟨⟨⟨e₁, by rw [hpen]; rfl⟩, fun c hc => absurd (hpen ▸ hc) not_mem_nil,
      fun ts _ => hpen ▸ orderly_nil, fun j hj => .inl ?_⟩, fun id hid => .inl ⟨hpen, hnone id hid⟩,
      fun hg => .inl ⟨hpen, ?_⟩, fun ts hts => ?_⟩
    · -- whatever the deadline calculator held starts no later than the first pending blob
      rcases h.deadlines j (hframe.deadlines ▸ hj) with hle | ⟨A', R', hA', hj'⟩
      · exact hle.trans ht₁.le
      · obtain ⟨c, hc⟩ : ∃ c, (A.take u).head? = some c := ⟨_, head?_eq_some_head hne⟩
        have hcj : j.startBlockNumber = c.startBlockNumber := by
          refine hj'.start_eq (R := R') ?_
          rw [← hA', ← hsplit, head?_append, hc]
          rfl
        have hcle := ht₁.mem_le (mem_of_mem_head? hc)
        show j.startBlockNumber.toNat ≤ e₁
        rw [hcj]
        exact hcle.2.1.trans hcle.2.2
    · show s₁.deadlineInFlight.map _ = none
      rw [hdead hg]
      rfl
    · exact counted_nil (hT ts hts).1 hpen hnone (hframe.targets.trans (hT ts hts).2)
  have htrest' : BlobTiles e₁ (s₁.pendingBlobs ++ (A.drop u ++ R)) m := by rwa [hpen]
  have hfits : ∀ b ∈ A.drop u ++ R, Fits g b := by
    intro b hb
    refine h.fits b ?_
    rw [← hsplit]
    exact mem_append_right _ hb
  have horderly : ∀ ts ∈ T, Orderly g ts (s₁.pendingBlobs ++ (A.drop u ++ R)) := by
    intro ts hts
    rw [hpen]
    exact Orderly.right (A := A.take u) (by rw [nil_append, hsplit]; exact h.orderly ts hts)
  have hcount : s₁.pendingBlobs.length + (A.drop u ++ R).length ≤ n := by
    have hl := congrArg length hsplit
    rw [length_append, length_take, min_eq_left hule] at hl
    rw [hpen, length_nil]
    omega
  refine wp_mono (reprocess_spec hp hcons htrest' hfits horderly hcount) ?_
  rintro _ s₂ ⟨e₂, h₂⟩
  obtain ⟨is, gs, ha, hs, hb, hgs, hl⟩ := h₂.groups
  refine ⟨e₂, h₂.consistent, h₂.last.trans hframe.last, i :: is, A.take u :: gs, ?_, .cons hi hs, ?_, ?_,
    fun ts hts => forall_mem_cons.mpr ⟨⟨?_, ?_⟩, hl ts hts⟩⟩
  · rw [ha, hframe.aggregations]
    simp
  · rw [hpen, nil_append] at hb
    rw [← hpending, ← hsplit, hb, flatten_cons, append_assoc]
  · rw [flatten_cons]
    exact tiles_append.mpr ⟨e₁, ht₁, hgs⟩
  · refine WithinLimits.of_append (R := A.drop u) ?_
    rw [take_append_drop]
    exact hA ts hts
  · unfold SizeOk
    rwa [length_take, min_eq_left hule]

/-- A call of depth above the number of pending blobs is deep enough. -/
theorem processBlob_spec (hT : ∀ ts ∈ T, Regular g ∧ ts.Known g) (hm : 0 < g.aggregationSizeMultipleOf) (depth : Nat) :
    Processes g T (g.processBlob depth) depth := by
  induction depth with
  | zero => exact fun _ _ _ _ hlt => absurd hlt (not_lt_zero _)
  | succ depth ih =>
    intro e m s b h ht hfits horderly hlen
    unfold processBlob
    rw [wp_bind, wp_modify, addPending_eq ht]
    have hp : Pending g T e { s with pendingBlobs := s.pendingBlobs ++ [b] } := by
      refine ⟨⟨m, ht⟩, forall_mem_append.mpr ⟨h.fits, forall_mem_singleton.mpr hfits⟩, horderly, fun i hi => ?_⟩
      · refine (h.deadlines i hi).imp_right ?_
        rintro ⟨A, R, hAR, hA⟩
        exact ⟨A, R ++ [b], by rw [← append_assoc, ← hAR], hA⟩
    generalize hs₀ : { s with pendingBlobs := s.pendingBlobs ++ [b] } = s₀ at hp ⊢
    -- no check throws; a trigger asks for a leading part, and without one every calculator is ready
    have hchecks := wp_mapNotNull_post (l := g.syncAggregationTrigger) (s := s₀)
      (f := fun id => (g.calculator id).checkAggregationTrigger b) (E := fun _ _ => False) (I := Checked s₀)
      (P := fun id r s' => (∀ t, r = some t → Asks g s.pendingBlobs b id s₀ t.aggregation) ∧
        (r = none → Ready g b s' id)) ?_ .refl
    swap
    · intro id hid s₁ h₁
      have hflight : InFlight ((g.calculator id).inFlight s₁) s.pendingBlobs := by
        rw [h₁.inFlight, ← hs₀]
        have := h.sync id hid
        cases id <;> exact this
      refine wp_mono (check_spec hflight ht fun hpl => hfits.proofs (hpl ▸ hid)) ?_
      rintro r s₂ ⟨hc, htrig, hready⟩
      have hask : ∀ t, r = some t → Asks g s.pendingBlobs b id s₀ t.aggregation := by
        obtain ⟨flag, rfl⟩ := h₁
        cases id <;> exact htrig
      exact ⟨h₁.trans hc, ⟨hask, hready⟩, fun id' r' h' => ⟨h'.1, fun hr => hc.ready (h'.2 hr)⟩⟩
    rw [wp_bind]
    refine wp_mono hchecks ?_
    rintro ts s₁ ⟨hc, hall, hhead, -⟩
    have hp₁ := hp.of_framed hc.framed
    obtain ⟨hpen, hagg, hlast, hdl, hcounted⟩ : s₁.pendingBlobs = s.pendingBlobs ++ [b] ∧
        s₁.aggregations = s.aggregations ∧ s₁.lastBlockNumber = s.lastBlockNumber ∧
        s₁.deadlineInFlight = s.deadlineInFlight ∧ ∀ ts ∈ T, Counted g ts s.pendingBlobs s₁ := by
      obtain ⟨flag, rfl⟩ := hc
      subst hs₀
      refine ⟨rfl, rfl, rfl, rfl, fun ts hts => ?_⟩
      have := h.counted ts hts
      exact ⟨this.known, this.proofs, this.blobs, this.targets, this.forks, this.time⟩
    cases ts with
    | cons t ts =>
      obtain ⟨pre, id, post, hids, hpre, htrig, -⟩ := hhead t ts rfl
      -- the proof limit, which comes first, did not trigger or asks for a part that fits
      have hproofs : ∀ ts ∈ T, .proofLimit ∈ g.syncAggregationTrigger → Reached g b s₁ id →
          proofsOf (s.pendingBlobs ++ [b]) ≤ g.maxProofsPerAggregation.toNat := by
        intro ts hts hpl hreached
        rw [← (hcounted ts hts).toNat_add (hT ts hts).1 (horderly ts hts).last.clear hpl (hfits.proofs hpl)]
        obtain ⟨ids, hfirst⟩ := (hT ts hts).1.first hpl
        cases pre with
        | nil =>
          obtain ⟨rfl, -⟩ := List.cons.inj (hids.symm.trans hfirst)
          exact (congrArg UInt32.toNat hreached).le
        | cons id' pre =>
          obtain ⟨rfl, -⟩ := List.cons.inj (hids.symm.trans hfirst)
          have hr : Ready g b s₁ .proofLimit := (hpre _ (by simp)).2 rfl
          exact UInt32.le_iff_toNat_le.mp hr.2
      obtain ⟨A, R, hAR, hA, hlim⟩ : ∃ A R, s.pendingBlobs ++ [b] = A ++ R ∧ Spans t.aggregation A ∧
          ∀ ts ∈ T, WithinLimits g ts A := by
        rcases htrig t rfl with hspan | ⟨hspan, hreached⟩
        · exact ⟨_, _, rfl, hspan, fun ts hts => (hcounted ts hts).within⟩
        · have hreached₁ : Reached g b s₁ id := by
            obtain ⟨flag, rfl⟩ := hc
            cases id <;> exact hreached
          refine ⟨_, [], by simp, hspan, fun ts hts => (hcounted ts hts).within_concat
            (fun hpl => hproofs ts hts hpl hreached₁) ?_⟩
          -- a blob after a fork does not complete an aggregation with blobs before it
          have hb := (horderly ts hts).last
          refine (hcounted ts hts).forks.concat hb fun f hf hstart _ hbefore => by_contra fun hne => ?_
          exact hb.free f hf hstart _ hne suffix_rfl (fun c hc => (hbefore c hc).1) id (by simp [hids])
            ((hcounted ts hts).completes (hT ts hts).1 hb.clear hfits.proofs (by simp [hids]) hreached₁)
      have hlen₁ : s₁.pendingBlobs.length ≤ depth + 1 := by
        rw [hpen, length_append, length_singleton]
        exact hlen
      refine wp_mono (handleAggregationTrigger_spec (fun ts hts => ⟨(hT ts hts).1, (hcounted ts hts).known⟩) ih hm hp₁
        (hpen.trans hAR) hA hlim hlen₁) ?_
      rintro _ s₂ ⟨e₂, h₂⟩
      refine ⟨e₂, h₂.consistent, h₂.last.trans hlast, ?_⟩
      rw [← hagg, ← hpen]
      exact h₂.groups
    | nil =>
      have hsync : ∀ id ∈ g.syncAggregationTrigger, InFlight ((g.calculator id).inFlight s₁) s.pendingBlobs := by
        intro id hid
        rw [hc.inFlight, ← hs₀]
        have := h.sync id hid
        cases id <;> exact this
      have hready : ∀ id ∈ g.syncAggregationTrigger, Ready g b s₁ id := by
        intro id hid
        obtain ⟨r, hr, hnone⟩ := hall id hid
        exact hr.2 (hnone rfl)
      refine wp_mono (register_spec hT hp₁ hpen hsync (by rw [hdl]; exact h.deadline) hcounted hready)
        ?_
      rintro _ s₂ ⟨hcons, hpen₂, hagg₂, hlast₂⟩
      refine ⟨e, hcons, hlast₂.trans hlast, [], [], ?_, .nil, ?_, rfl, nofun⟩
      · rw [hagg₂, hagg, append_nil]
      · rw [hpen₂, hpen]
        rfl

end Lineth.Aggregation
