import Lineth.Conflation.BlobAware

/-!
# Blob assembly

`Assembly` ties the three lists the blob aware calculator keeps apart: the batches of the open blob, the contents of
the compressor and the counters of the blocks. Closing a conflation moves the blocks in flight into a batch of their
own, either inside the open blob or by closing it. -/

namespace Lineth.Conflation

open Exec Intervals List GlobalBlobAwareConflationCalculator

variable {κ M : Type}

def rlps (received : List (BlockCounters M)) (i : BlockInterval) : List (List UInt8) :=
  (received.filter (i.contains ·.blockNumber)).map (·.blockRLPEncoded)

/-- What a blob emitted by the calculator says of its conflations. -/
structure BlobOk (limit : UInt32) (Decodes : List UInt8 → List (List (List UInt8)) → Prop)
    (received : List (BlockCounters M)) (blob : Blob M) : Prop where
  ne_nil : blob.conflations ≠ []
  le_limit : blob.conflations.length ≤ limit.toNat
  data : Decodes blob.compressedData (blob.conflations.map fun c => rlps received c.toBlockInterval)
  startTime : ∀ c, blob.conflations.head? = some c →
    ∃ b ∈ received, b.blockNumber = c.startBlockNumber ∧ b.blockTimestamp = blob.startBlockTime
  endTime : ∀ c, blob.conflations.getLast? = some c →
    ∃ b ∈ received, b.blockNumber = c.endBlockNumber ∧ b.blockTimestamp = blob.endBlockTime

/-- The blocks of a run: one block for each number, later blocks have no earlier timestamps, and a block that the
compressor can read fits into an empty one. -/
structure BlockSource (C : BlobCompressor κ) (batches : κ → Batches) (B : Set (BlockCounters M)) : Prop where
  pos : ∀ b ∈ B, b.blockNumber ≠ 0
  unique : ∀ b ∈ B, ∀ b' ∈ B, b.blockNumber = b'.blockNumber → b = b'
  times : ∀ b ∈ B, ∀ b' ∈ B, b.blockNumber ≤ b'.blockNumber → b.blockTimestamp ≤ b'.blockTimestamp
  fits : ∀ b ∈ B, ∀ c, batches c = .empty → (C.canAppendBlock c b.blockRLPEncoded).1 ≠ some false

/-- The conflations tile the blocks after `init` up to `e`, and these blocks were received. -/
structure Conflated (B : Set (BlockCounters M)) (init : Nat) (received : List (BlockCounters M))
    (conflations : List (ConflationCalculationResult M)) (e : Nat) : Prop where
  tiles : Tiles (·.lo) (·.hi) init (conflations.map (·.toBlockInterval)) e
  mem : ∀ b ∈ received, b ∈ B
  exists_block : ∀ n, init < n → n ≤ e → ∃ b ∈ received, b.blockNumber.toNat = n

section

variable (a : GlobalBlobAwareConflationCalculator κ M) (batches : κ → Batches)
  (Decodes : List UInt8 → List (List (List UInt8)) → Prop) (B : Set (BlockCounters M))
  (received : List (BlockCounters M))

/-- The parts of the state that a blob is built from, whatever the compressor holds. -/
structure Batched (s : BlobState κ M) : Prop where
  partition : s.blobs.flatMap (·.conflations) ++ s.blobBatches = s.conflations
  blobs : ∀ blob ∈ s.blobs, BlobOk a.batchesLimit Decodes received blob
  count : s.numberOfBatches.toNat = s.blobBatches.length
  counters : ∀ b ∈ s.blobBlockCounters, b ∈ B
  covers : ∀ b ∈ received, (∀ blob ∈ s.blobs, ∀ c ∈ blob.conflations, c.contains b.blockNumber = false) →
    b ∈ s.blobBlockCounters

structure Assembly (inflight : List (List UInt8)) (s : BlobState κ M) : Prop extends
    Batched a Decodes B received s where
  lt_limit : s.blobBatches.length < a.batchesLimit.toNat
  contents : batches s.calculators.data.blobCompressor =
    ⟨s.blobBatches.map fun c => rlps received c.toBlockInterval, inflight⟩
  drained : s.calculators.data.dataDrained = true → s.blobBatches = [] ∧ inflight = []

end

variable {a : GlobalBlobAwareConflationCalculator κ M} {batches : κ → Batches}
  {Decodes : List UInt8 → List (List (List UInt8)) → Prop} {B : Set (BlockCounters M)}
  {received : List (BlockCounters M)} {s : BlobState κ M} {init e : Nat} {inflight : List (List UInt8)}

/-! ### Building a blob -/

theorem isAllConsecutive_of_tiles {cs : List (ConflationCalculationResult M)} {n m : Nat}
    (h : Tiles (·.lo) (·.hi) n (cs.map (·.toBlockInterval)) m) : isAllConsecutive cs = true := by
  induction cs generalizing n with
  | nil => rfl
  | cons c cs ih =>
    obtain ⟨-, -, h⟩ := h
    cases cs with
    | nil => rfl
    | cons d cs =>
      have hd : d.startBlockNumber = c.endBlockNumber + 1 := eq_succ_of_toNat h.1
      rw [isAllConsecutive, ih h, hd, beq_self_eq_true, Bool.true_and]

variable {b : BlockCounters M}

theorem findCounters_spec {C : BlobCompressor κ} (hB : BlockSource C batches B) (h : Batched a Decodes B received s)
    {n : UInt64} (hb : b ∈ received) (hbB : b ∈ B) (hn : b.blockNumber = n)
    (hcov : ∀ blob ∈ s.blobs, ∀ c ∈ blob.conflations, c.contains b.blockNumber = false) :
    findCounters n s = pure b := by
  rw [← hn]
  unfold findCounters
  have hmem := h.covers b hb hcov
  cases hf : s.blobBlockCounters.find? (·.blockNumber == b.blockNumber) with
  | none =>
    rw [find?_eq_none] at hf
    exact absurd (beq_self_eq_true _) (hf b hmem)
  | some b' =>
    have hnum : b'.blockNumber = b.blockNumber := by simpa using find?_some hf
    rw [hB.unique b' (h.counters b' (mem_of_find?_eq_some hf)) b hbB hnum]

theorem blob_create_spec {σ : Type} {r : σ} {cs : List (ConflationCalculationResult M)} {data : List UInt8}
    {t₁ t₂ : Int} (hc : isAllConsecutive cs = true) (ht : t₁ ≤ t₂) {Q : Blob M → σ → Prop} {E : Error → σ → Prop}
    (hQ : ∀ blob : Blob M, blob.conflations = cs → blob.compressedData = data → blob.startBlockTime = t₁ →
      blob.endBlockTime = t₂ → Q blob r) : wp (Blob.create cs data t₁ t₂) Q E r := by
  unfold Blob.create
  rw [dif_pos hc, dif_pos ht]
  exact hQ _ rfl rfl rfl rfl

theorem closeBlob_assembly (hC : a.compressor.Lawful batches Decodes) (hlimit : 0 < a.batchesLimit)
    (hs : Batched a Decodes B received s) (hdrained : s.calculators.data.dataDrained = true) {blob : Blob M}
    (hconf : blob.conflations = s.blobBatches) (hok : BlobOk a.batchesLimit Decodes received blob) :
    Assembly a batches Decodes B received [] (a.closeBlob blob s) where
  partition := by
    show (s.blobs ++ [blob]).flatMap _ ++ [] = _
    rw [append_nil, flatMap_append, flatMap_singleton, hconf]
    exact hs.partition
  blobs := by
    intro blob' hblob'
    rcases mem_append.mp hblob' with h | h
    · exact hs.blobs blob' h
    · rw [mem_singleton.mp h]
      exact hok
  count := rfl
  counters := fun b hb => hs.counters b (mem_of_mem_filter hb)
  covers := by
    intro b hb hcov
    have hnew : ∀ c ∈ s.blobBatches, c.contains b.blockNumber = false := by
      intro c hc
      exact hcov blob (by simp [closeBlob]) c (by rwa [hconf])
    refine mem_filter.mpr ⟨hs.covers b hb fun blob' h => hcov blob' ?_, ?_⟩
    · exact mem_append_left _ h
    · rw [Bool.not_eq_true', any_eq_false]
      intro c hc
      rw [hnew c hc]
      nofun
  lt_limit := UInt32.lt_iff_toNat_lt.mp hlimit
  contents := by
    show batches (DataCompressed.reset a.compressor s.calculators.data).blobCompressor = _
    rw [DataCompressed.reset, if_pos hdrained]
    exact hC.reset _
  drained := fun _ => ⟨rfl, rfl⟩

theorem Batched.setCalculators (h : Batched a Decodes B received s) (k : Calculators κ M) :
    Batched a Decodes B received { s with calculators := k } :=
  ⟨h.partition, h.blobs, h.count, h.counters, h.covers⟩

theorem not_covered {k : Nat}
    (hk : Tiles (·.lo) (·.hi) init ((s.blobs.flatMap (·.conflations)).map (·.toBlockInterval)) k) {n : UInt64}
    (hn : k < n.toNat) : ∀ blob ∈ s.blobs, ∀ c ∈ blob.conflations, c.contains n = false := by
  intro blob hblob c hc
  have hmem : c.toBlockInterval ∈ (s.blobs.flatMap (·.conflations)).map (·.toBlockInterval) :=
    mem_map_of_mem (mem_flatMap.mpr ⟨blob, hblob, hc⟩)
  have hle := (hk.mem_le hmem).2.2
  rw [← Bool.not_eq_true, BlockInterval.contains_iff]
  omega

theorem fireBlob_spec (hC : a.compressor.Lawful batches Decodes) (hlimit : 0 < a.batchesLimit)
    (hB : BlockSource a.compressor batches B) (hs : Batched a Decodes B received s)
    (hconf : Conflated B init received s.conflations e) (hne : s.blobBatches ≠ [])
    (hle : s.blobBatches.length ≤ a.batchesLimit.toNat)
    (hall : (batches s.calculators.data.blobCompressor).all =
      s.blobBatches.map fun c => rlps received c.toBlockInterval) :
    wp a.fireBlobTriggerAndResetState
      (fun _ s' => Assembly a batches Decodes B received [] s' ∧ s'.conflations = s.conflations ∧
        s'.blobBatches = [] ∧ s'.calculators.data.dataDrained = true ∧
        s'.calculators.data.lastValidatedBlock = s.calculators.data.lastValidatedBlock ∧
        ∀ b ∈ s.blobBlockCounters, (∀ c ∈ s.conflations, c.contains b.blockNumber = false) →
          b ∈ s'.blobBlockCounters)
      (fun _ _ => False) s := by
  -- the first and the last batch of the blob, and the blocks they start and end with
  obtain ⟨first, hfirst⟩ : ∃ c, s.blobBatches.head? = some c := ⟨_, head?_eq_some_head hne⟩
  obtain ⟨last, hlast⟩ : ∃ c, s.blobBatches.getLast? = some c := ⟨_, getLast?_eq_some_getLast hne⟩
  have htiles := hconf.tiles
  rw [← hs.partition, map_append, tiles_append] at htiles
  obtain ⟨k, hk, hbatches⟩ := htiles
  have hkinit := hk.le
  have hfirst_le := hbatches.mem_le (mem_map_of_mem (mem_of_mem_head? hfirst))
  have hlast_le := hbatches.mem_le (mem_map_of_mem (mem_of_mem_getLast? hlast))
  have hfirst_lo : first.lo = k + 1 := by
    obtain ⟨cs, hcs⟩ := head?_eq_some_iff.mp hfirst
    rw [hcs] at hbatches
    exact hbatches.1
  have hinterval : first.startBlockNumber ≤ last.endBlockNumber := by
    rw [UInt64.le_iff_toNat_le]
    show first.lo ≤ last.hi
    omega
  obtain ⟨b₁, hb₁, hn₁⟩ := hconf.exists_block first.lo (by omega) (by omega)
  obtain ⟨b₂, hb₂, hn₂⟩ := hconf.exists_block last.hi (by omega) (by omega)
  have hnum₁ : b₁.blockNumber = first.startBlockNumber := UInt64.toNat_inj.mp hn₁
  have hnum₂ : b₂.blockNumber = last.endBlockNumber := UInt64.toNat_inj.mp hn₂
  have htime : b₁.blockTimestamp ≤ b₂.blockTimestamp :=
    hB.times b₁ (hconf.mem b₁ hb₁) b₂ (hconf.mem b₂ hb₂) (by rw [hnum₁, hnum₂]; exact hinterval)
  -- run the method: the compressed data are read first, then the blob is built
  unfold fireBlobTriggerAndResetState
    getCompressedData
  simp only [onData, Calculators.onData, wp_bind, wp_zoom, wp_get, wp_set, wp_pure,
    hfirst, hlast]
  set s₁ : BlobState κ M := { s with
    calculators := s.calculators.setData { s.calculators.data with dataDrained := true } } with hs₁
  have hs₁' : Batched a Decodes B received s₁ := hs.setCalculators _
  have hf₁ := findCounters_spec hB hs₁' hb₁ (hconf.mem b₁ hb₁) hnum₁ (not_covered hk (by omega))
  have hf₂ := findCounters_spec hB hs₁' hb₂ (hconf.mem b₂ hb₂) hnum₂ (not_covered hk (by omega))
  unfold BlockInterval.create
  rw [dif_pos hinterval]
  simp only [wp_bind, wp_pure, hf₁, hf₂]
  refine blob_create_spec (isAllConsecutive_of_tiles hbatches) htime (fun blob hc hd ht₁ ht₂ => ?_)
  rw [wp_modify]
  refine ⟨closeBlob_assembly hC hlimit hs₁' rfl hc ⟨?_, ?_, ?_, ?_, ?_⟩, rfl, rfl, ?_, ?_, ?_⟩
  · rwa [hc]
  · rwa [hc]
  · rw [hd, hc, ← hall]
    exact hC.data _ (by rw [hall]; simpa using hne)
  · intro c hcc
    rw [hc, hfirst, Option.some.injEq] at hcc
    exact ⟨b₁, hb₁, by rw [hnum₁, hcc], ht₁.symm⟩
  · intro c hcc
    rw [hc, hlast, Option.some.injEq] at hcc
    exact ⟨b₂, hb₂, by rw [hnum₂, hcc], ht₂.symm⟩
  · rfl
  · rfl
  · intro b hb hcov
    refine mem_filter.mpr ⟨hb, ?_⟩
    rw [Bool.not_eq_true', any_eq_false]
    intro c hcc
    rw [hcov c (by rw [← hs.partition]; exact mem_append_right _ hcc)]
    exact Bool.false_ne_true

/-! ### Closing a conflation -/

theorem addBatch_batched (h : Assembly a batches Decodes B received inflight s) (c : ConflationCalculationResult M) :
    Batched a Decodes B received (addBatch c s) where
  partition := by
    show s.blobs.flatMap _ ++ (s.blobBatches ++ [c]) = s.conflations ++ [c]
    rw [← h.partition, append_assoc]
  blobs := h.blobs
  count := by
    show (s.numberOfBatches + 1).toNat = (s.blobBatches ++ [c]).length
    have hlt := h.lt_limit
    have hmax := a.batchesLimit.toNat_lt
    have hadd : (s.numberOfBatches + 1).toNat = (s.numberOfBatches.toNat + 1) % 2 ^ 32 :=
      UInt32.toNat_add s.numberOfBatches 1
    rw [hadd, h.count, length_append, length_singleton]
    omega
  counters := h.counters
  covers := h.covers

theorem addTargetEndBlock_calculators (c : ConflationCalculationResult M) (s : BlobState κ M) :
    ∃ k : Calculators κ M, addTargetEndBlock c s = { s with calculators := k } ∧
      k.data = s.calculators.data := by
  unfold addTargetEndBlock
  split
  · exact ⟨_, rfl, rfl⟩
  · exact ⟨s.calculators, rfl, rfl⟩

variable (a batches Decodes B received) in
/-- After a conflation is handled, either the blob was closed with it, or it stayed open and the block that comes
next was checked to fit. -/
structure Handled (c : ConflationCalculationResult M) (s s' : BlobState κ M) : Prop where
  assembly : Assembly a batches Decodes B received [] s'
  conflations : s'.conflations = s.conflations ++ [c]
  blob : (s'.blobBatches = [] ∧ s'.calculators.data.dataDrained = true ∧
      ∀ b, s.blobBlockCounters.getLast? = some b →
        s.calculators.data.lastValidatedBlock = some b.blockRLPEncoded →
        s'.calculators.data.lastValidatedBlock = some b.blockRLPEncoded) ∨
    (c.conflationTrigger ∉ blobCutOffTriggers ∧ s'.calculators.data.dataDrained = false ∧
      ∀ b, s.blobBlockCounters.getLast? = some b →
        s'.calculators.data.lastValidatedBlock = some b.blockRLPEncoded ∧
        (a.compressor.canAppendBlock s'.calculators.data.blobCompressor b.blockRLPEncoded).1 = some true)
  counters : ∀ b ∈ s.blobBlockCounters, (∀ c ∈ s'.conflations, c.contains b.blockNumber = false) →
    b ∈ s'.blobBlockCounters

theorem handleBatchTrigger_spec (hC : a.compressor.Lawful batches Decodes) (hlimit : 0 < a.batchesLimit)
    (hB : BlockSource a.compressor batches B) (h : Assembly a batches Decodes B received inflight s)
    {c : ConflationCalculationResult M} (hc : rlps received c.toBlockInterval = inflight) (hne : inflight ≠ [])
    (hconf : Conflated B init received (s.conflations ++ [c]) e)
    (hnext : c.conflationTrigger ∈ blobCutOffTriggers ∨ ∃ b, s.blobBlockCounters.getLast? = some b ∧
      a.compressor.Reads b.blockRLPEncoded) :
    wp (a.handleBatchTrigger c) (fun _ s' => Handled a batches Decodes B received c s s') (fun _ _ => False) s := by
  have hs₁ := addBatch_batched h c
  have hlen : (s.blobBatches ++ [c]).length ≤ a.batchesLimit.toNat := by
    rw [length_append, length_singleton]
    exact h.lt_limit
  have hsealed : (batches s.calculators.data.blobCompressor).startNewBatch =
      ⟨(s.blobBatches ++ [c]).map fun c => rlps received c.toBlockInterval, []⟩ := by
    rw [h.contents, Batches.startNewBatch_of_ne_nil hne, map_append, map_singleton, hc]
  have hdrained : s.calculators.data.dataDrained = false := by
    rw [← Bool.not_eq_true]
    exact fun hd => hne (h.drained hd).2
  unfold handleBatchTrigger
  rw [wp_bind, wp_modify, wp_bind, wp_get]
  refine wp_ite (fun hcut => ?_) (fun hcut => ?_)
  · obtain ⟨k, hk, hdata⟩ := addTargetEndBlock_calculators c (addBatch c s)
    rw [wp_bind, wp_modify, hk]
    refine wp_mono (fireBlob_spec hC hlimit hB (hs₁.setCalculators k) hconf (by simp [
      addBatch]) hlen ?_) (fun _ s' h' => ?_)
    · show (batches k.data.blobCompressor).all = _
      rw [hdata]
      exact congrArg Batches.closed hsealed
    · obtain ⟨h', hcs, hnil, hd, hv, hcounters⟩ := h'
      refine ⟨h', hcs, .inl ⟨hnil, hd, fun b _ hb => ?_⟩, by rw [hcs]; exact hcounters⟩
      rw [hv, ← hb]
      exact congrArg _ hdata
  · rw [not_or] at hcut
    obtain ⟨b, hb, hvalid⟩ := hnext.resolve_left hcut.1
    have hlast : (addBatch c s).blobBlockCounters.getLast? = some b := hb
    rw [wp_bind, hlast]
    simp only [onData, Calculators.onData, wp_zoom, wp_modify, wp_bind]
    refine wp_mono (Calculators.dataCheckOverflow_spec _ b.blockRLPEncoded) (fun r d h₂ => ?_)
      (fun _ d h₂ => absurd h₂.2.1 (hvalid _))
    obtain ⟨rfl, hcan⟩ := h₂
    have hcontents : batches (a.compressor.canAppendBlock
        (a.compressor.startNewBatch s.calculators.data.blobCompressor) b.blockRLPEncoded).2 =
        ⟨(s.blobBatches ++ [c]).map fun c => rlps received c.toBlockInterval, []⟩ := by
      rw [hC.check, hC.startNewBatch, hsealed]
    refine wp_ite (fun _ => ?_) (fun hfit => ?_)
    · refine wp_mono (fireBlob_spec hC hlimit hB (hs₁.setCalculators _) hconf (by simp [
        addBatch]) hlen ?_) (fun _ s' h' => ?_)
      · exact congrArg Batches.all hcontents
      · obtain ⟨h', hcs, hnil, hd, hv, hcounters⟩ := h'
        refine ⟨h', hcs, .inl ⟨hnil, hd, fun b' hb' _ => ?_⟩, by rw [hcs]; exact hcounters⟩
        rw [hb, Option.some.injEq] at hb'
        rw [hv, ← hb']
        rfl
    · rw [wp_pure]
      refine ⟨⟨hs₁.setCalculators _, ?_, hcontents, fun hd => ?_⟩, rfl, .inr ⟨hcut.1, hdrained, fun b' hb' => ?_⟩,
        fun _ hb _ => hb⟩
      · have hlt := hcut.2
        rw [UInt32.not_le, UInt32.lt_iff_toNat_lt, hs₁.count] at hlt
        exact hlt
      · exact absurd (hdrained.symm.trans hd) (by simp)
      · rw [hb, Option.some.injEq] at hb'
        subst hb'
        refine ⟨rfl, ?_⟩
        rw [Bool.not_eq_true, Option.isSome_eq_false_iff] at hfit
        rw [hfit] at hcan
        exact hC.check_again _ _ hcan

/-! ### Receiving a block -/

theorem rlps_concat {i : BlockInterval} (h : i.contains b.blockNumber = false) :
    rlps (received ++ [b]) i = rlps received i := by
  simp [rlps, h]

theorem BlobOk.concat {limit : UInt32} {blob : Blob M} (h : BlobOk limit Decodes received blob)
    (hb : ∀ c ∈ blob.conflations, c.contains b.blockNumber = false) :
    BlobOk limit Decodes (received ++ [b]) blob where
  ne_nil := h.ne_nil
  le_limit := h.le_limit
  data := by
    rw [map_congr_left fun c hc => rlps_concat (hb c hc)]
    exact h.data
  startTime := fun c hc => by
    obtain ⟨b', hb', h'⟩ := h.startTime c hc
    exact ⟨b', mem_append_left _ hb', h'⟩
  endTime := fun c hc => by
    obtain ⟨b', hb', h'⟩ := h.endTime c hc
    exact ⟨b', mem_append_left _ hb', h'⟩

theorem Assembly.receive (h : Assembly a batches Decodes B received inflight s)
    (hb : b ∈ s.blobBlockCounters) (habove : ∀ c ∈ s.conflations, c.contains b.blockNumber = false)
    {k : Calculators κ M} (hk : batches k.data.blobCompressor =
      (batches s.calculators.data.blobCompressor).append b.blockRLPEncoded) (hdrained : k.data.dataDrained = false) :
    Assembly a batches Decodes B (received ++ [b]) (inflight ++ [b.blockRLPEncoded]) { s with calculators := k } where
  partition := h.partition
  blobs := by
    intro blob hblob
    refine (h.blobs blob hblob).concat fun c hc => habove c ?_
    rw [← h.partition]
    exact mem_append_left _ (mem_flatMap.mpr ⟨blob, hblob, hc⟩)
  count := h.count
  counters := h.counters
  covers := by
    intro b' hb' hcov
    rcases mem_append.mp hb' with hb' | hb'
    · exact h.covers b' hb' hcov
    · rw [mem_singleton.mp hb']
      exact hb
  lt_limit := h.lt_limit
  contents := by
    show batches k.data.blobCompressor = _
    rw [hk, h.contents, Batches.append]
    congr 1
    refine map_congr_left fun c hc => (rlps_concat (habove c ?_)).symm
    rw [← h.partition]
    exact mem_append_right _ hc
  drained := fun hd => absurd (hdrained.symm.trans hd) (by simp)

end Lineth.Conflation
