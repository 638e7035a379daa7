import Lineth.Aggregation.Partition

/-!
# The limits of an aggregation

The blobs of every aggregation stay within the limits if blobs fit, no target lies inside a blob which itself ends at
a target, and the calculators come in the order that the factory uses. The calculator by hard forks comes last and its
trigger is lost when another one completes the aggregation with the first blob after the fork. Where that does not
happen and no fork is inside a blob, none is inside an aggregation. -/

namespace Lineth.Aggregation

open Exec Intervals GlobalAggregationCalculator List
open Conflation (BlockInterval)

variable {g : GlobalAggregationCalculator} {A : List BlobCounters} {e m : Nat}

/-- The limits on the blobs of an aggregation. A target inside the aggregation is inside one of its blobs. -/
structure AggregationOk (g : GlobalAggregationCalculator) (targets : List UInt64) (A : List BlobCounters) : Prop where
  proofs : .proofLimit ∈ g.syncAggregationTrigger → proofsOf A ≤ g.maxProofsPerAggregation.toNat
  blobs : .blobLimit ∈ g.syncAggregationTrigger → A.length ≤ g.maxBlobsPerAggregation.toNat
  targets : .targetBlockNumbers ∈ g.syncAggregationTrigger → ∀ t ∈ targets, (∃ c ∈ A, c.startBlockNumber ≤ t) →
    (∃ c ∈ A, t < c.endBlockNumber) → ∃ c ∈ A, c.startBlockNumber ≤ t ∧ t < c.endBlockNumber
  size : A.length % g.aggregationSizeMultipleOf = 0 ∨ A.length ≤ g.aggregationSizeMultipleOf

/-- A block inside consecutive blobs that ends none of them but perhaps the last is inside one of them. -/
theorem exists_inside (ht : BlobTiles e A m) {n : UInt64} (hlo : e < n.toNat) (hhi : n.toNat < m)
    (hend : ∀ c ∈ A.dropLast, c.endBlockNumber ≠ n) : ∃ c ∈ A, c.startBlockNumber ≤ n ∧ n < c.endBlockNumber := by
  induction A generalizing e with
  | nil =>
    have : e = m := ht
    omega
  | cons c A ih =>
    obtain ⟨hstart, -, ht⟩ := ht
    rcases Nat.lt_trichotomy n.toNat c.hi with hlt | heq | hgt
    · refine ⟨c, by simp, UInt64.le_iff_toNat_le.mpr ?_, UInt64.lt_iff_toNat_lt.mpr hlt⟩
      show c.lo ≤ n.toNat
      omega
    · cases A with
      | nil =>
        have : c.hi = m := ht
        omega
      | cons d A => exact absurd (UInt64.toNat_inj.mp heq.symm) (hend c (by simp))
    · obtain ⟨d, hd, hin⟩ := ih ht hgt fun d hd => hend d (by
        rw [dropLast_cons_of_ne_nil (ne_nil_of_mem (mem_of_mem_dropLast hd))]
        exact mem_cons_of_mem c hd)
      exact ⟨d, mem_cons_of_mem c hd, hin⟩

theorem WithinLimits.aggregationOk {ts : Watched} (h : WithinLimits g ts A) (hsize : SizeOk g A)
    (ht : BlobTiles e A m) : AggregationOk g ts.targets A := by
  refine ⟨h.proofs, h.blobs, fun hid t htarget hlo hhi => ?_, hsize⟩
  obtain ⟨c, hc, hlo⟩ := hlo
  obtain ⟨d, hd, hhi⟩ := hhi
  have hcle := ht.mem_le hc
  have hdle := ht.mem_le hd
  have hlo' : c.lo ≤ t.toNat := UInt64.le_iff_toNat_le.mp hlo
  have hhi' : t.toNat < d.hi := UInt64.lt_iff_toNat_lt.mp hhi
  refine exists_inside ht (by omega) (by omega) fun c hc heq => h.targets hid c hc ?_
  rwa [heq]

theorem groups_within (hg : Regular g) (hm : 0 < g.aggregationSizeMultipleOf) (init : UInt64) (initialTimestamp : Int)
    (ts : Watched) (hknown : ts.Known g) {calls : List AggregationCall}
    (hblobs : g.Receives ⟨.initial init ts.targets initialTimestamp, []⟩ calls fun w b => Fits g b ∧
      ComesAfter g ts w.state.pendingBlobs b)
    (hadd : ∀ n, .addTarget n ∉ calls) :
    let w := g.run ⟨.initial init ts.targets initialTimestamp, []⟩ calls
    ∃ groups e, List.Forall₂ Spans w.state.aggregations groups ∧ w.received = groups.flatten ++ w.state.pendingBlobs ∧
      BlobTiles init.toNat groups.flatten e ∧ ∀ A ∈ groups, WithinLimits g ts A ∧ SizeOk g A := by
  intro w
  have hinit : RunInv g (some ts) init ⟨.initial init ts.targets initialTimestamp, []⟩ :=
    runInv_initial init (by simp [hg]) initialTimestamp
  obtain ⟨e, h⟩ := hinit.run (by simp [hg, hknown]) hm
    (fun pre b post heq hnext => (hblobs pre b post heq hnext).imp_right (by simp)) (fun n hn => absurd hn (hadd n))
  obtain ⟨groups, hspans, hrec, ht, hlim⟩ := h.groups
  exact ⟨groups, e, hspans, hrec, ht, hlim ts rfl⟩

/-- In every run of blobs and deadlines whose blobs in order fit, the blobs received are those of the aggregations, in
order, followed by the pending ones, and every aggregation stays within the limits. -/
theorem aggregations_within_limits (g : GlobalAggregationCalculator) (hg : Regular g)
    (hm : 0 < g.aggregationSizeMultipleOf) (lastBlockNumber : UInt64) (targets : List UInt64) (initialTimestamp : Int)
    (calls : List AggregationCall)
    (hfits : g.Receives ⟨.initial lastBlockNumber targets initialTimestamp, []⟩ calls fun _ b =>
      Fits g b ∧ Clear targets b)
    (hadd : ∀ n, .addTarget n ∉ calls) :
    let w := g.run ⟨.initial lastBlockNumber targets initialTimestamp, []⟩ calls
    ∃ groups, List.Forall₂ Spans w.state.aggregations groups ∧
      w.received = groups.flatten ++ w.state.pendingBlobs ∧ ∀ A ∈ groups, AggregationOk g targets A := by
  intro w
  obtain ⟨groups, k, hspans, hrec, ht, hlim⟩ := groups_within hg hm lastBlockNumber initialTimestamp ⟨targets, []⟩
    nofun (fun pre b post heq hnext => (hfits pre b post heq hnext).imp_right fun hclear =>
      ⟨hclear, nofun, nofun, nofun⟩) hadd
  refine ⟨groups, hspans, hrec, fun A hA => ?_⟩
  obtain ⟨hwithin, hsize⟩ := hlim A hA
  obtain ⟨pre, post, rfl⟩ := append_of_mem hA
  rw [flatten_append, flatten_cons] at ht
  obtain ⟨k, -, ht⟩ := tiles_append.mp ht
  obtain ⟨k', ht, -⟩ := tiles_append.mp ht
  exact hwithin.aggregationOk hsize ht

/-- Runs in which no blob after a fork completes an aggregation with blobs before the fork, and no fork is inside a blob
or out of order: no aggregation has blobs that start before and after a fork. -/
theorem no_fork_inside_aggregations (g : GlobalAggregationCalculator) (hg : Regular g)
    (hm : 0 < g.aggregationSizeMultipleOf)
    (hfork : g.hardForkTimestamps ≠ [] → .timestampHardFork ∈ g.syncAggregationTrigger) (lastBlockNumber : UInt64)
    (targets : List UInt64) (initialTimestamp : Int) (calls : List AggregationCall)
    (hblobs : g.Receives ⟨.initial lastBlockNumber targets initialTimestamp, []⟩ calls fun w b => Fits g b ∧
      ComesAfter g ⟨targets, g.hardForkTimestamps⟩ w.state.pendingBlobs b)
    (hadd : ∀ n, .addTarget n ∉ calls) :
    let w := g.run ⟨.initial lastBlockNumber targets initialTimestamp, []⟩ calls
    ∃ groups, List.Forall₂ Spans w.state.aggregations groups ∧
      w.received = groups.flatten ++ w.state.pendingBlobs ∧ ∀ A ∈ groups, ∀ f ∈ g.hardForkTimestamps,
        ∀ c ∈ A, ∀ d ∈ A, c.startBlockTimestamp < f → d.startBlockTimestamp < f := by
  intro w
  obtain ⟨groups, -, hspans, hrec, -, hlim⟩ := groups_within hg hm lastBlockNumber initialTimestamp
    ⟨targets, g.hardForkTimestamps⟩ (fun f hf => ⟨hf, hfork (ne_nil_of_mem hf)⟩) hblobs hadd
  refine ⟨groups, hspans, hrec, fun A hA f hf c hc d hd hlt => ?_⟩
  rcases (hlim A hA).1.forks f hf with hbefore | hafter
  · exact (hbefore d hd).1
  · exact absurd (hafter c hc).1 (not_le.mpr hlt)

theorem regular_sample : Regular GlobalAggregationCalculator.sample :=
  ⟨fun _ => ⟨_, rfl⟩, by decide, by decide⟩

theorem aggregations_within_limits_sample :
    let w := GlobalAggregationCalculator.sample.run ⟨.initial 0 [10] 0, []⟩ sampleAggregationCalls
    ∃ groups, List.Forall₂ Spans w.state.aggregations groups ∧
      w.received = groups.flatten ++ w.state.pendingBlobs ∧ ∀ A ∈ groups, AggregationOk .sample [10] A := by
  refine aggregations_within_limits .sample regular_sample (by decide) 0 [10] 0 sampleAggregationCalls
    (.of_mem fun b hb => ?_) (by simp [sampleAggregationCalls])
  simp only [sampleAggregationCalls, mem_cons, AggregationCall.newBlob.injEq, reduceCtorEq, false_or,
    not_mem_nil, or_false] at hb
  rcases hb with rfl | rfl | rfl | rfl <;> exact ⟨⟨by decide, by decide, by decide⟩, by decide, by simp⟩

/-- The second blob is the first one after the fork, and with it there would be three proofs of four. -/
theorem no_fork_inside_aggregations_sample :
    let w := GlobalAggregationCalculator.sample.run ⟨.initial 0 [] 0, []⟩
      [.newBlob ⟨1, 1, 5, 10, 14⟩, .newBlob ⟨0, 6, 10, 100, 104⟩]
    w.state.aggregations = [⟨1, 5, by decide⟩] ∧ ∃ groups, List.Forall₂ Spans w.state.aggregations groups ∧
      w.received = groups.flatten ++ w.state.pendingBlobs ∧ ∀ A ∈ groups,
        ∀ f ∈ GlobalAggregationCalculator.sample.hardForkTimestamps,
        ∀ c ∈ A, ∀ d ∈ A, c.startBlockTimestamp < f → d.startBlockTimestamp < f := by
  refine ⟨by decide +kernel, no_fork_inside_aggregations .sample regular_sample (by decide) (by decide) 0 [] 0 _
    (fun pre b post heq _ => ?_) (by simp)⟩
  rcases pre with - | ⟨x, - | ⟨y, pre⟩⟩
  · obtain ⟨rfl, -⟩ := by simpa using heq
    exact ⟨⟨by decide, by decide, by decide⟩, ⟨by decide, nofun⟩, by simp [Apart, sample], nofun, by simp [sample]⟩
  · obtain ⟨rfl, rfl, -⟩ := by simpa using heq
    have hpending : (GlobalAggregationCalculator.sample.run ⟨.initial 0 [] 0, []⟩
        [.newBlob ⟨1, 1, 5, 10, 14⟩]).state.pendingBlobs = [⟨1, 1, 5, 10, 14⟩] := by decide +kernel
    rw [hpending]
    refine ⟨⟨by decide, by decide, by decide⟩, ⟨by decide, nofun⟩, by simp [Apart, sample], by simp [sample],
      fun f hf _ Q hne hQ _ id _ => ?_⟩
    obtain rfl : Q = [⟨1, 1, 5, 10, 14⟩] := (suffix_cons_iff.mp hQ).resolve_right (by simpa using hne)
    cases id <;> simp [Completes, sample, proofsOf]
  · simp at heq

/-- With the first blob after the fork the proofs are exactly four, and that comes first. -/
theorem fork_inside_aggregation :
    (GlobalAggregationCalculator.sample.run ⟨.initial 0 [] 0, []⟩
      [.newBlob ⟨1, 1, 5, 10, 14⟩, .newBlob ⟨1, 6, 10, 100, 104⟩]).state.aggregations = [⟨1, 10, by decide⟩] ∧
    100 ∈ GlobalAggregationCalculator.sample.hardForkTimestamps := by
  decide +kernel

/-- Targets 7 and 10, at most two blobs: the blob of blocks 6 to 10 overlaps the first target and ends at the second,
which is then missed. At most four proofs: a blob with five is rejected but stays pending, and the next aggregation
takes it. -/
theorem aggregations_exceed_limits :
    (({ GlobalAggregationCalculator.sample with maxBlobsPerAggregation := 2 } : GlobalAggregationCalculator).run
      ⟨.initial 5 [7, 10] 0, []⟩ [.newBlob ⟨0, 6, 10, 10, 14⟩, .newBlob ⟨0, 11, 15, 15, 19⟩]).state.aggregations =
        [⟨6, 15, by decide⟩] ∧
    (GlobalAggregationCalculator.sample.run ⟨.initial 0 [] 0, []⟩
      [.newBlob ⟨1, 1, 5, 10, 14⟩, .newBlob ⟨4, 6, 10, 15, 19⟩, .newBlob ⟨0, 11, 15, 20, 24⟩,
        .deadline ⟨1, 15, by decide⟩]).state.aggregations = [⟨1, 10, by decide⟩] ∧
    proofsOf [⟨1, 1, 5, 10, 14⟩, ⟨4, 6, 10, 15, 19⟩] = 7 := by
  refine ⟨?_, by decide +kernel, by decide⟩
  -- `decide` evaluates an insertion sort, but not a merge sort
  simp only [run, foldl, step, newBlob, processBlob, mapNotNull, sample, calculator, byTargetBlockNumbers,
    mergeSort_eq_insertionSort]
  decide +kernel

end Lineth.Aggregation
