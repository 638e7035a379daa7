import Lineth.Conflation.BlobAssembly

/-!
# Runs of the blob aware calculator

One block at a time: the checks of the calculators only look, closing a conflation is `handleBatchTrigger_spec`, and
every calculator is ready for the block that is then appended. The deadline callback may close a conflation, and
processed forced transactions may be queued, at any time. An exception is recorded with the call that threw it. -/

namespace Lineth.Conflation

open Exec Intervals Calculators List GlobalBlockConflationCalculator

variable {κ M : Type} {a : GlobalBlobAwareConflationCalculator κ M} {batches : κ → Batches}
  {Decodes : List UInt8 → List (List (List UInt8)) → Prop} {B : Set (BlockCounters M)}
  {received : List (BlockCounters M)} {s : BlockState (BlobState κ M) M} {b : BlockCounters M}

/-- A state that differs from `s` in the counters in flight and in the fields of the calculators, which are `k`. -/
structure Differ (s : BlockState (BlobState κ M) M) (k : Calculators κ M) (s' : BlockState (BlobState κ M) M) :
    Prop where
  same : BlockState.Same s s'
  env : s'.env = { s.env with calculators := k }

theorem Differ.refl : Differ s s.env.calculators s := ⟨.refl s, rfl⟩

variable {k : Calculators κ M}

theorem Differ.calculators {s' : BlockState (BlobState κ M) M} (h : Differ s k s') :
    s'.env.calculators = k := by
  rw [h.env]

theorem Differ.call {α : Type} {s' : BlockState (BlobState κ M) M} (h : Differ s k s')
    {x : EStateM Error (Calculators κ M) α} {Q : α → Calculators κ M → Prop} {E : Error → Calculators κ M → Prop}
    (hx : wp x Q E k) :
    wp (BlockState.call (zoom BlobState.calculators (fun k s => { s with calculators := k }) x))
      (fun r s'' => ∃ k', Differ s k' s'' ∧ Q r k') (fun e s'' => ∃ k', Differ s k' s'' ∧ E e k') s' := by
  unfold BlockState.call
  rw [wp_zoom, wp_zoom, h.calculators]
  refine wp_mono hx (fun r k' hr => ⟨k', ⟨⟨h.same.last, h.same.start, h.same.emitted⟩, ?_⟩, hr⟩)
    (fun e k' he => ⟨k', ⟨⟨h.same.last, h.same.start, h.same.emitted⟩, ?_⟩, he⟩)
  · rw [h.env]
  · rw [h.env]

/-! ### The invariant between calls -/

def inflightRlps (s : BlockState (BlobState κ M) M) (received : List (BlockCounters M)) : List (List UInt8) :=
  match s.inflightConflation.startBlockNumber with
  | none => []
  | some n => (received.filter (n ≤ ·.blockNumber)).map (·.blockRLPEncoded)

/-- The blob limits are positive, and so is the block limit when it is used. -/
structure LimitsOk (a : GlobalBlobAwareConflationCalculator κ M) : Prop where
  batches : 0 < a.batchesLimit
  blocks : .blocksLimit ∈ a.ids → 0 < a.config.blockLimit

variable (a batches Decodes B) in
/-- The state and the blocks received between two calls. -/
structure BlobRunInv (init : UInt64)
    (s : BlockState (BlobState κ M) M) (received : List (BlockCounters M)) : Prop where
  run : GlobalBlockConflationCalculator.RunInv init ⟨s, received⟩
  mem : ∀ b ∈ received, b ∈ B
  conflations : s.env.conflations = s.emitted
  assembly : Assembly a batches Decodes B received (inflightRlps s received) s.env
  idle : s.inflightConflation.startBlockNumber = none →
    s.env.blobBatches = [] ∧ ∀ id ∈ a.ids, Fresh s.env.calculators id
  started : ∀ n, s.inflightConflation.startBlockNumber = some n → n ≤ s.lastBlockNumber

variable {init : UInt64}

namespace BlobRunInv

section

variable (h : BlobRunInv a batches Decodes B init s received)

include h

theorem received_iff {n : Nat} :
    (∃ b ∈ received, b.blockNumber.toNat = n) ↔ init.toNat < n ∧ n ≤ s.lastBlockNumber.toNat := by
  have hmem := congrArg (fun l => n ∈ l) h.run.received
  simp only [mem_map, eq_iff_iff, mem_range'_1] at hmem
  rw [hmem]
  have := h.run.init_le
  omega

theorem received_le (hb : b ∈ received) :
    b.blockNumber ≤ s.lastBlockNumber :=
  UInt64.le_iff_toNat_le.mpr (h.received_iff.mp ⟨b, hb, rfl⟩).2

theorem inflight {c : ConflationCalculationResult M}
    (hstart : s.inflightConflation.startBlockNumber = some c.startBlockNumber)
    (hend : c.endBlockNumber = s.lastBlockNumber) :
    rlps received c.toBlockInterval = inflightRlps s received ∧ inflightRlps s received ≠ [] ∧
      Conflated B init.toNat received (s.env.conflations ++ [c]) s.lastBlockNumber.toNat := by
  obtain ⟨e, ht, he⟩ := h.run.partition.tiles
  obtain ⟨hlo, hle⟩ := (he _).2 hstart
  replace hlo : c.lo = e + 1 := hlo
  have hhi : c.hi = s.lastBlockNumber.toNat := congrArg UInt64.toNat hend
  have hflight : inflightRlps s received =
      (received.filter (c.startBlockNumber ≤ ·.blockNumber)).map (·.blockRLPEncoded) := by
    rw [inflightRlps, hstart]
  refine ⟨?_, ?_, ?_, h.mem, fun n hn hn' => h.received_iff.mpr ⟨hn, hn'⟩⟩
  · rw [hflight, rlps]
    congr 1
    refine filter_congr fun b hb => ?_
    have hle' := h.received_le hb
    rw [BlockInterval.contains, hend, decide_eq_true hle', Bool.and_true]
  · have hinit := ht.le
    have hc := c.lo_le_hi
    obtain ⟨b, hb, hn⟩ := h.received_iff.mpr (⟨by omega, by omega⟩ : init.toNat < c.lo ∧ c.lo ≤ s.lastBlockNumber.toNat)
    rw [hflight]
    refine ne_nil_of_mem (mem_map_of_mem (mem_filter.mpr ⟨hb, decide_eq_true ?_⟩))
    rw [UInt64.le_iff_toNat_le, hn]
    rfl
  · rw [h.conflations, map_append, map_singleton, tiles_concat]
    refine ⟨by rw [hlo]; exact ht, by omega, c.lo_le_hi, hhi⟩

theorem addCounters (hb : b ∈ B) :
    BlobRunInv a batches Decodes B init (GlobalBlobAwareConflationCalculator.addCounters b s) received where
  run := ⟨h.run.partition.of_same ⟨rfl, rfl, rfl⟩, h.run.init_le, h.run.received⟩
  mem := h.mem
  conflations := h.conflations
  assembly := by
    have ha := h.assembly
    refine ⟨⟨ha.partition, ha.blobs, ha.count, fun b' hb' => ?_, fun b' hb' hcov => ?_⟩, ha.lt_limit, ha.contents,
      ha.drained⟩
    · rcases mem_append.mp hb' with hb' | hb'
      · exact ha.counters b' hb'
      · rw [mem_singleton.mp hb']
        exact hb
    · exact mem_append_left _ (ha.covers b' hb' hcov)
  idle := h.idle
  started := h.started

theorem of_checked {s' : BlockState (BlobState κ M) M}
    {k : Calculators κ M} (hk : Differ s k s') (hc : Checked a.compressor b batches s.env.calculators k) :
    BlobRunInv a batches Decodes B init s' received where
  run := ⟨h.run.partition.of_same hk.same, by show _ ≤ UInt64.toNat _; rw [hk.same.last]; exact h.run.init_le,
    by rw [show s'.lastBlockNumber = _ from hk.same.last]; exact h.run.received⟩
  mem := h.mem
  conflations := by
    rw [hk.env, hk.same.emitted]
    exact h.conflations
  assembly := by
    have ha := h.assembly
    rw [inflightRlps, hk.same.start, ← inflightRlps, hk.env]
    refine ⟨ha.toBatched.setCalculators k, ha.lt_limit, ?_, fun hd => ha.drained ?_⟩
    · show batches k.data.blobCompressor = _
      rw [hc.compressor]
      exact ha.contents
    · rw [← hc.drained]
      exact hd
  idle := by
    rw [hk.same.start, hk.env]
    intro hnone
    exact ⟨(h.idle hnone).1, fun id hid => Fresh.of_checked hc ((h.idle hnone).2 id hid)⟩
  started := by
    rw [hk.same.start, hk.same.last]
    exact h.started

end

end BlobRunInv

/-! ### The calculators on the whole state -/

variable [Fintype M]

theorem checkOverflow_spec (hC : a.compressor.Lawful batches Decodes) {id : CalculatorId} :
    wp ((calculator a.config a.compressor id).checkOverflow b)
      (fun r k' => Checked a.compressor b batches k k' ∧ (r = none → Ready a.config a.compressor b k' id) ∧
        (id = .dataLimit → k'.data.lastValidatedBlock = some b.blockRLPEncoded ∧ a.compressor.Reads b.blockRLPEncoded))
      (fun e k' => Checked a.compressor b batches k k' ∧ e.isInternalCheck = false) k := by
  by_cases hid : id = .dataLimit
  · subst hid
    exact wp_mono (dataCheck_spec hC) (fun r k' h => ⟨h.1, h.2.1, fun _ => h.2.2⟩)
  · exact wp_mono (check_spec hid) (fun r k' h => ⟨h.1, h.2, fun h' => absurd h' hid⟩)

theorem overflowTriggers_spec (hC : a.compressor.Lawful batches Decodes) :
    wp (a.conflationCalculator.overflowTriggers b)
      (fun ts s' => ∃ k, Differ s k s' ∧ Checked a.compressor b batches s.env.calculators k ∧
        (ts = [] → ∀ id ∈ a.ids, Ready a.config a.compressor b k id) ∧
        k.data.lastValidatedBlock = some b.blockRLPEncoded ∧ a.compressor.Reads b.blockRLPEncoded)
      (fun e s' => ∃ k, Differ s k s' ∧ Checked a.compressor b batches s.env.calculators k ∧
        e.isInternalCheck = false) s := by
  unfold overflowTriggers
  rw [wp_bind, show a.conflationCalculator.calculators = a.ids.map fun id =>
    (calculator a.config a.compressor id).lift from rfl, mapNotNull_map]
  -- the result of each check stays true while the others run
  let I : BlockState (BlobState κ M) M → Prop := fun s' =>
    ∃ k, Differ s k s' ∧ Checked a.compressor b batches s.env.calculators k
  let P : CalculatorId → Option OverflowTrigger → BlockState (BlobState κ M) M → Prop := fun id r s' =>
    (r = none → Ready a.config a.compressor b s'.env.calculators id) ∧
    (id = .dataLimit → s'.env.calculators.data.lastValidatedBlock = some b.blockRLPEncoded ∧
      a.compressor.Reads b.blockRLPEncoded)
  have hpost := wp_mapNotNull_post (I := I) (P := P) (l := a.ids)
    (f := fun id => BlockState.call ((calculator a.config a.compressor id).lift.checkOverflow b))
    (E := fun e s' => ∃ k, Differ s k s' ∧ Checked a.compressor b batches s.env.calculators k ∧
      e.isInternalCheck = false)
    (s := s) ?_ ⟨_, .refl, .refl⟩
  · refine wp_mono hpost ?_
    rintro ts s' ⟨⟨k, hk, hcheck⟩, hall, -⟩
    rw [wp_pure]
    refine ⟨k, hk, hcheck, fun hnil id hid => ?_, ?_⟩
    · obtain ⟨r, hr, hnone⟩ := hall id hid
      have hts : ts = [] := by
        rw [← perm_nil, ← hnil]
        exact (mergeSort_perm ts _).symm
      rw [← hk.calculators]
      exact hr.1 (hnone hts)
    · obtain ⟨r, hr, -⟩ := hall .dataLimit a.dataLimit_mem
      rw [← hk.calculators]
      exact hr.2 rfl
  · rintro id - s' ⟨k, hk, hcheck⟩
    refine wp_mono (hk.call (checkOverflow_spec hC)) (fun r s'' h => ?_) (fun e s'' h => ?_)
    · obtain ⟨k', hk', hcheck', hready, hdata⟩ := h
      refine ⟨⟨k', hk', hcheck.trans hcheck'⟩, ⟨?_, ?_⟩, fun id' r' h' => ⟨fun hr => ?_, fun hid => ?_⟩⟩
      · rwa [hk'.calculators]
      · rwa [hk'.calculators]
      · rw [hk'.calculators]
        exact Ready.of_checked hcheck' (by rw [← hk.calculators]; exact h'.1 hr)
      · obtain ⟨hv, hreads⟩ := h'.2 hid
        rw [hk.calculators] at hv
        rw [hk'.calculators]
        refine ⟨?_, hreads⟩
        rcases hcheck'.validated with hv' | hv'
        · rw [hv', hv]
        · exact hv'
    · obtain ⟨k', hk', hcheck', herr⟩ := h
      exact ⟨k', hk', hcheck.trans hcheck', herr⟩

theorem appendBlock_spec (hC : a.compressor.Lawful batches Decodes)
    (hready : ∀ id ∈ a.ids, Ready a.config a.compressor b s.env.calculators id) :
    wp (a.conflationCalculator.appendBlock b)
      (fun _ s' => ∃ k, Differ s k s' ∧ k.data.dataDrained = false ∧
        batches k.data.blobCompressor = (batches s.env.calculators.data.blobCompressor).append b.blockRLPEncoded)
      (fun _ _ => False) s := by
  unfold appendBlock
  rw [show a.conflationCalculator.calculators = a.ids.map fun id =>
    (calculator a.config a.compressor id).lift from rfl, List.forM_eq_forM, List.forM_map]
  -- calculators still to come are ready, and the compressor changes when the data calculator is done
  let I : List CalculatorId → BlockState (BlobState κ M) M → Prop := fun done s' => ∃ k, Differ s k s' ∧
    (∀ id ∈ a.ids, id ∉ done → Ready a.config a.compressor b k id) ∧
    (.dataLimit ∉ done → k.data = s.env.calculators.data) ∧
    (.dataLimit ∈ done → k.data.dataDrained = false ∧
      batches k.data.blobCompressor = (batches s.env.calculators.data.blobCompressor).append b.blockRLPEncoded)
  refine wp_mono (wp_forM_done (I := I) ?_ ⟨_, .refl, fun id hid _ => hready id hid, fun _ => rfl, nofun⟩)
    (fun _ s' h => ?_)
  · rintro done id rest hids s₁ ⟨k, hk, hrest, hbefore, hafter⟩
    have hnew : id ∉ done := by
      have := a.ids_nodup
      rw [hids, nodup_append] at this
      exact fun hid => this.2.2 id hid id (by simp) rfl
    have hid : Ready a.config a.compressor b k id := hrest id (by simp [hids]) hnew
    have keep : ∀ k' : Calculators κ M, (∀ id', id' ≠ id → Ready a.config a.compressor b k id' →
        Ready a.config a.compressor b k' id') →
        ∀ id' ∈ a.ids, id' ∉ done ++ [id] → Ready a.config a.compressor b k' id' := by
      intro k' hk' id' hmem hnot
      rw [mem_append, mem_singleton, not_or] at hnot
      exact hk' id' hnot.2 (hrest id' hmem hnot.1)
    rw [wp_bind]
    by_cases hdata : id = .dataLimit
    · subst hdata
      refine wp_mono (hk.call (dataAppend_spec hC hid)) (fun _ s₂ h₂ => ?_) (fun _ _ h => h.elim fun _ h => h.2)
      obtain ⟨k', hk', ⟨hbatches, hdrained⟩, hothers⟩ := h₂
      rw [wp_modify]
      refine ⟨k', ⟨⟨hk'.same.last, hk'.same.start, hk'.same.emitted⟩, hk'.env⟩, keep k' hothers,
        fun hnot => absurd (by simp) hnot, fun _ => ⟨hdrained, ?_⟩⟩
      rw [hbatches, hbefore hnew]
    · refine wp_mono (hk.call (append_spec hdata hid)) (fun _ s₂ h₂ => ?_) (fun _ _ h => h.elim fun _ h => h.2)
      obtain ⟨k', hk', hd, hothers⟩ := h₂
      have hmem : .dataLimit ∈ done ++ [id] ↔ CalculatorId.dataLimit ∈ done := by
        rw [mem_append, mem_singleton, or_iff_left (Ne.symm hdata)]
      rw [wp_modify]
      refine ⟨k', ⟨⟨hk'.same.last, hk'.same.start, hk'.same.emitted⟩, hk'.env⟩, keep k' hothers, ?_, ?_⟩
      · rw [hmem, hd]
        exact hbefore
      · rw [hmem, hd]
        exact hafter
  · obtain ⟨k, hk, -, -, hafter⟩ := h
    exact ⟨k, hk, hafter a.dataLimit_mem⟩

theorem foldl_reset (e : BlobState κ M) :
    a.conflationCalculator.calculators.foldl (fun e c => c.reset e) e =
      { e with calculators := resetAll a.config a.compressor a.ids e.calculators } := by
  show (a.ids.map fun id => (calculator a.config a.compressor id).lift).foldl _ e = _
  generalize a.ids = ids
  induction ids generalizing e with
  | nil => rfl
  | cons id ids ih => exact ih _

/-! ### Closing a conflation and taking a block -/

variable (a batches Decodes B received) in
/-- What is left after a conflation was closed: nothing is in flight, and the block that comes next, if it was checked
and is the last one counted, fits into the compressor. -/
structure Closed (t : ConflationTrigger) (s s' : BlockState (BlobState κ M) M) : Prop where
  last : s'.lastBlockNumber = s.lastBlockNumber
  start : s'.inflightConflation.startBlockNumber = none
  conflations : s'.env.conflations = s'.emitted
  assembly : Assembly a batches Decodes B received [] s'.env
  fresh : ∀ id ∈ a.ids, Fresh s'.env.calculators id
  cutOff : t ∈ blobCutOffTriggers → s'.env.blobBatches = []
  next : ∀ b ∈ B, s.env.blobBlockCounters.getLast? = some b →
    s.env.calculators.data.lastValidatedBlock = some b.blockRLPEncoded → a.compressor.Reads b.blockRLPEncoded →
    Ready a.config a.compressor b s'.env.calculators .dataLimit
  counters : ∀ b ∈ s.env.blobBlockCounters, (∀ c ∈ s'.env.conflations, c.contains b.blockNumber = false) →
    b ∈ s'.env.blobBlockCounters

section Calls

variable (hC : a.compressor.Lawful batches Decodes) (hlim : LimitsOk a) (hB : BlockSource a.compressor batches B)

include hB in
omit [Fintype M] in
theorem canAppend_of_empty {k : κ} (hb : b ∈ B) (hreads : a.compressor.Reads b.blockRLPEncoded)
    (hk : batches k = .empty) : (a.compressor.canAppendBlock k b.blockRLPEncoded).1 = some true := by
  obtain ⟨r, hr⟩ := Option.ne_none_iff_exists'.mp (hreads k)
  have hfits := hB.fits b hb k hk
  rw [hr] at hfits ⊢
  cases r with
  | true => rfl
  | false => exact absurd rfl hfits

include hC hlim hB

theorem fire_closed (h : BlobRunInv a batches Decodes B init s received) {n : UInt64} {t : ConflationTrigger}
    (hstart : s.inflightConflation.startBlockNumber = some n)
    (hnext : t ∈ blobCutOffTriggers ∨ ∃ b, s.env.blobBlockCounters.getLast? = some b ∧
      a.compressor.Reads b.blockRLPEncoded) :
    wp (a.conflationCalculator.fireConflationAndResetState s.lastBlockNumber t)
      (fun _ s' => Closed a batches Decodes B received t s s') (fun _ _ => False) s := by
  have hcons : ∀ c : ConflationCalculationResult M, c.startBlockNumber = n → c.endBlockNumber = s.lastBlockNumber →
      c.conflationTrigger = t → wp (a.conflationCalculator.conflationConsumer c)
        (fun _ e => Handled a batches Decodes B received c s.env e ∧ c.conflationTrigger = t) (fun _ _ => False)
        s.env := by
    intro c hc hend ht
    obtain ⟨hrlps, hne, hconf⟩ := h.inflight (c := c) (by rw [hc, hstart]) hend
    refine wp_mono (handleBatchTrigger_spec hC hlim.batches hB h.assembly hrlps hne hconf (by rwa [ht]))
      (fun _ e he => ⟨he, ht⟩)
  refine wp_mono (fire_consumer hstart (h.started n hstart)
    (Q := fun c e => Handled a batches Decodes B received c s.env e ∧ c.conflationTrigger = t) hcons)
    (fun _ s' h' => ?_) (fun _ _ h => h.elim fun _ h => h)
  obtain ⟨hlast, hnone, c, e, hem, ⟨he, ht⟩, henv⟩ := h'
  rw [foldl_reset] at henv
  have ha := he.assembly
  have hempty : e.calculators.data.dataDrained = true → batches e.calculators.data.blobCompressor = .empty := by
    intro hd
    rw [ha.contents, (ha.drained hd).1]
    rfl
  -- resetting the data calculator keeps what the compressor holds
  have hkeep : ∀ d : DataCompressed κ, (d.dataDrained = true → batches d.blobCompressor = .empty) →
      batches (d.reset a.compressor).blobCompressor = batches d.blobCompressor ∧
      (d.reset a.compressor).dataDrained = d.dataDrained ∧
      (d.reset a.compressor).lastValidatedBlock = d.lastValidatedBlock := by
    intro d hd
    unfold DataCompressed.reset
    split
    · exact ⟨by rw [hd ‹_›]; exact hC.reset _, rfl, rfl⟩
    · exact ⟨rfl, rfl, rfl⟩
  let P : DataCompressed κ → Prop := fun d => batches d.blobCompressor = batches e.calculators.data.blobCompressor ∧
    d.dataDrained = e.calculators.data.dataDrained ∧
    d.lastValidatedBlock = e.calculators.data.lastValidatedBlock ∧ (d.dataDrained = false → d = e.calculators.data)
  have hP : P (resetAll a.config a.compressor a.ids e.calculators).data := by
    refine data_resetAll (fun d hd => ?_) ⟨rfl, rfl, rfl, fun _ => rfl⟩
    obtain ⟨h₁, h₂, h₃, h₄⟩ := hd
    obtain ⟨k₁, k₂, k₃⟩ := hkeep d (by rw [h₁, h₂]; exact hempty)
    refine ⟨k₁.trans h₁, k₂.trans h₂, k₃.trans h₃, fun hf => ?_⟩
    rw [k₂] at hf
    rw [DataCompressed.reset, if_neg (by simp [hf]), h₄ hf]
  obtain ⟨h₁, h₂, h₃, h₄⟩ := hP
  refine ⟨hlast, hnone, ?_, ?_, ?_, ?_, ?_, by rw [henv]; exact he.counters⟩
  · rw [henv, hem, ← h.conflations]
    exact he.conflations
  · rw [henv]
    refine ⟨ha.toBatched.setCalculators _, ha.lt_limit, h₁.trans ha.contents, fun hd => ha.drained ?_⟩
    rw [← h₂]
    exact hd
  · intro id hid
    rw [henv]
    exact fresh_resetAll (.inl hid)
  · intro hcut
    rw [henv]
    rcases he.blob with ⟨hnil, -⟩ | ⟨hnot, -⟩
    · exact hnil
    · exact absurd (ht ▸ hcut) hnot
  · intro b hb hbl hv hreads
    rw [henv]
    rcases he.blob with ⟨-, hd, hval⟩ | ⟨-, hd, hopen⟩
    · exact ⟨h₃.trans (hval b hbl hv), canAppend_of_empty hB hb hreads (h₁.trans (hempty hd))⟩
    · obtain ⟨hv', hcan⟩ := hopen b hbl
      exact ⟨h₃.trans hv', by rw [h₄ (h₂.trans hd)]; exact hcan⟩

variable (a batches Decodes B received) in
/-- The state in which a block is about to be appended. -/
structure Prepared (b : BlockCounters M) (s s' : BlockState (BlobState κ M) M) : Prop where
  last : s'.lastBlockNumber = s.lastBlockNumber
  start : s'.inflightConflation.startBlockNumber = s.inflightConflation.startBlockNumber ∨
    s'.inflightConflation.startBlockNumber = none
  conflations : s'.env.conflations = s'.emitted
  assembly : Assembly a batches Decodes B received (inflightRlps s' received) s'.env
  ready : ∀ id ∈ a.ids, Ready a.config a.compressor b s'.env.calculators id
  counters : ∀ b ∈ s.env.blobBlockCounters, (∀ c ∈ s'.env.conflations, c.contains b.blockNumber = false) →
    b ∈ s'.env.blobBlockCounters

theorem flush_prepared (h : BlobRunInv a batches Decodes B init s received) (hb : b ∈ B)
    (hlast : s.env.blobBlockCounters.getLast? = some b)
    (hv : s.env.calculators.data.lastValidatedBlock = some b.blockRLPEncoded)
    (hreads : a.compressor.Reads b.blockRLPEncoded)
    {ts : List OverflowTrigger} (hts : ts = [] → ∀ id ∈ a.ids, Ready a.config a.compressor b s.env.calculators id) :
    wp (a.conflationCalculator.flush ts) (fun _ s' => Prepared a batches Decodes B received b s s')
      (fun _ _ => False) s := by
  -- with calculators just reset, only the data calculator needs an argument
  have ready : ∀ s' : BlockState (BlobState κ M) M, (∀ id ∈ a.ids, Fresh s'.env.calculators id) →
      Ready a.config a.compressor b s'.env.calculators .dataLimit →
      ∀ id ∈ a.ids, Ready a.config a.compressor b s'.env.calculators id := by
    intro s' hfresh hdata id hid
    by_cases hd : id = .dataLimit
    · rw [hd]
      exact hdata
    · exact Ready.of_fresh (fun hbl => hlim.blocks (hbl ▸ hid)) hd (hfresh id hid)
  unfold flush
  rw [wp_bind, wp_get]
  cases ts with
  | nil => exact ⟨rfl, .inl rfl, h.conflations, h.assembly, hts rfl, fun _ h _ => h⟩
  | cons t ts =>
    cases hstart : s.inflightConflation.startBlockNumber with
    | none =>
      obtain ⟨hnil, hfresh⟩ := h.idle hstart
      refine ⟨rfl, .inl rfl, h.conflations, h.assembly, ready s hfresh ⟨hv, ?_⟩, fun _ h _ => h⟩
      refine canAppend_of_empty hB hb hreads ?_
      rw [h.assembly.contents, hnil, inflightRlps, hstart]
      rfl
    | some n =>
      refine wp_ite (fun _ => ?_) (fun hsome => absurd rfl hsome)
      refine wp_mono (fire_closed hC hlim hB h hstart (.inr ⟨b, hlast, hreads⟩)) (fun _ s' h' => ?_)
      refine ⟨h'.last, .inr h'.start, h'.conflations, ?_, ready s' h'.fresh (h'.next b hb hlast hv hreads),
        h'.counters⟩
      rw [inflightRlps, h'.start]
      exact h'.assembly

omit hC hlim hB [Fintype M] in
theorem inflightRlps_concat {s' s'' : BlockState (BlobState κ M) M}
    (hle : ∀ b' ∈ received, b'.blockNumber < b.blockNumber)
    (hstart : ∀ n, s'.inflightConflation.startBlockNumber = some n → n ≤ b.blockNumber)
    (h : s''.inflightConflation.startBlockNumber =
      some (s'.inflightConflation.startBlockNumber.getD b.blockNumber)) :
    inflightRlps s'' (received ++ [b]) = inflightRlps s' received ++ [b.blockRLPEncoded] := by
  rw [inflightRlps, h, inflightRlps]
  cases hs : s'.inflightConflation.startBlockNumber with
  | none =>
    have hnil : received.filter (fun b' => decide (b.blockNumber ≤ b'.blockNumber)) = [] := by
      rw [filter_eq_nil_iff]
      intro b' hb'
      rw [decide_eq_true_eq, UInt64.not_le]
      exact hle b' hb'
    simp [hnil]
  | some n => simp [hstart n hs]

theorem newBlock_blobRun (h : BlobRunInv a batches Decodes B init s received) (hb : b ∈ B) :
    wp (a.newBlock b) (fun _ s' => BlobRunInv a batches Decodes B init s' (received ++ [b]))
      (fun e s' => BlobRunInv a batches Decodes B init s' received ∧ e.isInternalCheck = false) s := by
  have h₀ := h.addCounters hb
  unfold GlobalBlobAwareConflationCalculator.newBlock
  rw [wp_bind, wp_modify]
  generalize hs₀ : GlobalBlobAwareConflationCalculator.addCounters b s = s₀ at h₀ ⊢
  have hlast₀ : s₀.env.blobBlockCounters.getLast? = some b := by
    rw [← hs₀]
    exact getLast?_concat
  have hrun := newBlock_runInv (g := a.conflationCalculator) (hB.pos b hb) h₀.run
  -- the invariant of the block numbers is known; what follows is about the blobs
  suffices henv : wp (a.conflationCalculator.newBlock b)
      (fun _ s' => s'.env.conflations = s'.emitted ∧
        Assembly a batches Decodes B (received ++ [b]) (inflightRlps s' (received ++ [b])) s'.env ∧
        s'.inflightConflation.startBlockNumber ≠ none ∧
        ∀ n, s'.inflightConflation.startBlockNumber = some n → n ≤ s'.lastBlockNumber)
      (fun e s' => BlobRunInv a batches Decodes B init s' received ∧ e.isInternalCheck = false) s₀ by
    refine wp_mono (wp_and hrun henv) (fun _ s' h' => ?_) (fun _ _ h' => h'.2)
    obtain ⟨hrun', hconf, hasm, hsome, hle⟩ := h'
    refine ⟨hrun', fun b' hb' => ?_, hconf, hasm, fun hnone => absurd hnone hsome, hle⟩
    rcases mem_append.mp hb' with hb' | hb'
    · exact h.mem b' hb'
    · rw [mem_singleton.mp hb']
      exact hb
  unfold newBlock ensureBlockIsInOrder
    conflateBlock
  rw [wp_bind, wp_bind, wp_get]
  refine wp_ite (fun _ => ⟨h₀, rfl⟩) (fun hseq => ?_)
  have hnum := toNat_of_eq_succ (not_not.mp hseq) (hB.pos b hb)
  rw [wp_pure, wp_bind]
  refine wp_mono (overflowTriggers_spec hC) (fun ts s₁ h₁ => ?_) (fun e s₁ h₁ => ?_)
  swap
  · obtain ⟨k, hk, hchecked, herr⟩ := h₁
    exact ⟨h₀.of_checked hk hchecked, herr⟩
  obtain ⟨k, hk, hchecked, hready, hv, hreads⟩ := h₁
  have hinv₁ := h₀.of_checked hk hchecked
  rw [← hk.calculators] at hready hv
  have hlast₁ : s₁.env.blobBlockCounters.getLast? = some b := by rw [hk.env]; exact hlast₀
  rw [← hk.same.last] at hnum
  rw [wp_bind]
  refine wp_mono (wp_and (flush_partition ts hinv₁.run.partition)
    (flush_prepared hC hlim hB hinv₁ hb hlast₁ hv hreads hready)) (fun _ s₂ h₂ => ?_) (fun _ _ h => h.2.elim)
  obtain ⟨⟨hpart, hlast₂⟩, h₂⟩ := h₂
  rw [wp_bind, wp_modify, wp_bind]
  refine wp_mono (appendBlock_spec hC h₂.ready) (fun _ s₃ h₃ => ?_) (fun _ _ h => h.elim)
  obtain ⟨k₃, hk₃, hdrained, hbatches⟩ := h₃
  rw [wp_modify]
  have hlt : ∀ b' ∈ received, b'.blockNumber < b.blockNumber := by
    intro b' hb'
    have := UInt64.le_iff_toNat_le.mp (hinv₁.received_le hb')
    rw [UInt64.lt_iff_toNat_lt]
    omega
  have hstart₂ : ∀ n, s₂.inflightConflation.startBlockNumber = some n → n ≤ b.blockNumber := by
    intro n hn
    rcases h₂.start with hs | hs
    · have := UInt64.le_iff_toNat_le.mp (hinv₁.started n (by rw [← hs, hn]))
      rw [UInt64.le_iff_toNat_le]
      omega
    · simp [hs] at hn
  have habove : ∀ c ∈ s₂.env.conflations, c.contains b.blockNumber = false := by
    intro c hc
    rw [h₂.conflations] at hc
    have hle := hpart.hi_le hc
    rw [hlast₂] at hle
    rw [← Bool.not_eq_true, BlockInterval.contains_iff]
    omega
  have hbmem : b ∈ s₂.env.blobBlockCounters := h₂.counters b (mem_of_mem_getLast? hlast₁) habove
  refine ⟨?_, ?_, ?_, ?_⟩
  · show s₃.env.conflations = s₃.emitted
    rw [hk₃.env, hk₃.same.emitted]
    exact h₂.conflations
  · show Assembly _ _ _ _ _ (inflightRlps s₃ (received ++ [b])) s₃.env
    rw [inflightRlps_concat hlt hstart₂ hk₃.same.start, hk₃.env]
    exact h₂.assembly.receive hbmem habove hbatches hdrained
  · show s₃.inflightConflation.startBlockNumber ≠ none
    rw [hk₃.same.start]
    nofun
  · show ∀ n, s₃.inflightConflation.startBlockNumber = some n → n ≤ b.blockNumber
    rw [hk₃.same.start]
    intro n hn
    obtain rfl := Option.some.inj hn
    cases hs : s₂.inflightConflation.startBlockNumber with
    | none => exact UInt64.le_refl _
    | some m => exact hstart₂ m hs

end Calls

end Lineth.Conflation
