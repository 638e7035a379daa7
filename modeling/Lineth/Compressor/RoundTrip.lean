import Lineth.Compressor.Write

/-!
# What a blob maker packs is what a blob unpacks to

A blob is unpacked, its header is read, its body is decompressed, and the payload is split at the ends of the blocks.
`decompressBlob_bytes` puts this together for every sequence of calls. -/

namespace Lineth.Compressor

open Evm (Byte Word beBytes ofBeBytes)
open Exec Bits List Header Nat

variable {κ : Type}

/-! ### Splitting the payload -/

variable {rlp : Rlp.Encoder}

theorem scanBatch_eq {bs : List (List Byte)} (hbs : ∀ b ∈ bs, IsEncoded rlp b ∧ b.length < 2 ^ 20)
    (pre post : List Byte) {rounds : Nat} (hr : bs.length < rounds) :
    scanBatch (pre ++ (bs.flatten ++ post)) rounds pre.length (pre.length + batchLen bs) =
      .ok (bs, pre.length + batchLen bs) := by
  induction bs generalizing pre rounds with
  | nil =>
    obtain ⟨rounds, rfl⟩ := exists_eq_succ_of_ne_zero (show rounds ≠ 0 by omega)
    rw [scanBatch, if_neg (by simp [batchLen])]
    rfl
  | cons b bs ih =>
    obtain ⟨rounds, rfl⟩ := exists_eq_succ_of_ne_zero (show rounds ≠ 0 by omega)
    obtain ⟨⟨block, henc⟩, hlt⟩ := hbs b mem_cons_self
    have hpos := length_encodeBlock henc
    have hlen : batchLen (b :: bs) = b.length + batchLen bs := by simp [batchLen]
    have hdrop : (pre ++ ((b :: bs).flatten ++ post)).drop pre.length = b ++ (bs.flatten ++ post) := by
      rw [drop_left, flatten_cons, append_assoc]
    have hnext : pre ++ ((b :: bs).flatten ++ post) = pre ++ b ++ (bs.flatten ++ post) := by
      rw [flatten_cons]
      simp only [append_assoc]
    have hr' : bs.length < rounds := by
      rw [length_cons] at hr
      omega
    have hrest := ih (fun c hc => hbs c (mem_cons_of_mem _ hc)) (pre ++ b) hr'
    rw [length_append, add_assoc, ← hlen] at hrest
    rw [scanBatch, if_pos (by omega), hdrop, scanBlockByteLen_encode henc hlt]
    simp only [take_left]
    rw [hnext, hrest]
    rfl

theorem scanBatches_eq {bss : List (List (List Byte))}
    (hbss : ∀ bs ∈ bss, ∀ b ∈ bs, IsEncoded rlp b ∧ b.length < 2 ^ 20) (pre : List Byte) :
    scanBatches (pre ++ bss.flatten.flatten) (bss.map batchLen) pre.length = .ok bss.flatten := by
  induction bss generalizing pre with
  | nil => rfl
  | cons bs bss ih =>
    have hbs := hbss bs mem_cons_self
    have hsplit : pre ++ (bs :: bss).flatten.flatten = pre ++ (bs.flatten ++ bss.flatten.flatten) := by
      rw [flatten_cons, flatten_append]
    -- every block has a byte, so there are rounds enough
    have hrounds : bs.length < (pre ++ (bs.flatten ++ bss.flatten.flatten)).length + 1 := by
      have hle := mul_length_le fun b hb => (hbs b hb).1.length_le
      rw [length_append, length_append]
      omega
    have hrest := ih (fun cs hcs => hbss cs (mem_cons_of_mem _ hcs)) (pre ++ bs.flatten)
    rw [length_append, ← batchLen_eq, append_assoc] at hrest
    rw [map_cons, scanBatches, hsplit, scanBatch_eq hbs pre _ hrounds]
    simp only [Except.ok_bind]
    rw [if_neg (fun h => h rfl), hrest]
    rfl

/-! ### The version -/

theorem packed_cons (n : Nat) {x : Nat} (hx : x < 2 ^ 16) (rest : List Bool) (hrest : 46 ≤ rest.length) :
    ∃ y tail, packed (n + 1) (ofNat 16 x ++ rest) = beBytes 3 (x * 64 + y) ++ tail ∧ y < 64 := by
  set w := toNat ((ofNat 16 x ++ rest).take 62) with hw
  have htake : (ofNat 16 x ++ rest).take 62 = ofNat 16 x ++ rest.take 46 := by
    rw [take_append, length_ofNat, take_of_length_le (by rw [length_ofNat]; omega)]
  have hlow : toNat (rest.take 46) < 2 ^ 46 := by
    have h := toNat_lt (rest.take 46)
    rwa [length_take, min_eq_left hrest] at h
  have hword : w = x * 2 ^ 46 + toNat (rest.take 46) := by
    rw [hw, htake, toNat_append, toNat_ofNat, length_take, min_eq_left hrest, mod_eq_of_lt hx]
  obtain ⟨tail, htail⟩ : ∃ tail, packed (n + 1) (ofNat 16 x ++ rest) = beBytes 8 w ++ tail := ⟨_, rfl⟩
  refine ⟨toNat (rest.take 46) / 2 ^ 40, beBytes 5 w ++ tail, ?_, by omega⟩
  rw [htail, ← append_assoc, show x * 64 + toNat (rest.take 46) / 2 ^ 40 = w / 256 ^ 5 by rw [hword]; omega,
    ← Evm.beBytes_add 3 5 w]

theorem getVersion_packed {n : Nat} {v : BitVec 16} (hv : 1 ≤ v.toNat ∧ v.toNat ≤ 4) (rest : List Bool)
    (hrest : 46 ≤ rest.length) : getVersion (packed (n + 1) (ofNat 16 (0xffff - v + 1).toNat ++ rest)) = v := by
  have hx : (0xffff - v + 1).toNat = 65536 - v.toNat := by bv_omega
  obtain ⟨y, tail, hpacked, hy⟩ := packed_cons n (0xffff - v + 1).isLt rest hrest
  rw [hpacked, hx]
  obtain ⟨hlo, hhi⟩ := hv
  show (if BitVec.ofNat 8 (((65536 - v.toNat) * 64 + y) / 256 / 256) = 0x3f ∧
      BitVec.ofNat 8 (((65536 - v.toNat) * 64 + y) / 256) = 0xff
    then (4 : BitVec 16) - (BitVec.ofNat 8 ((65536 - v.toNat) * 64 + y) >>> 6).setWidth 16 else 0) = v
  rw [if_pos]
  · bv_omega
  · constructor <;> bv_omega

/-! ### Decompression -/

namespace BlobMaker

variable {env : Env κ} {Valid : κ → Prop} {dict : List Byte} {checksum : Word} {v : BitVec 16} {limit : Int}
  {acc : Accepted} {bm : BlobMaker κ}

theorem IsBlob.getVersion {blob : List Byte} (h : IsBlob env dict checksum v acc blob)
    (hv : 1 ≤ v.toNat ∧ v.toNat ≤ 4) : getVersion blob = v := by
  obtain ⟨data, body, hdata, -, rfl⟩ := h
  obtain ⟨more, hmore, hlen⟩ : ∃ more, data = beBytes 2 (0xffff - v + 1).toNat ++ more ∧ 32 ≤ more.length := by
    rw [hdata, encoded]
    simp only [append_assoc]
    refine ⟨_, rfl, ?_⟩
    rw [length_append, Evm.length_toBytes]
    omega
  have hstream : dataStream data = ofNat 16 (0xffff - v + 1).toNat ++ (ofBytes (more ++ [0xff]) ++
      replicate (254 * nbElems data.length - 8 * (data.length + 1)) false) := by
    rw [dataStream]
    conv_lhs => rw [hmore]
    rw [append_assoc, ofBytes_append, ofBytes_beBytes, append_assoc, ← hmore]
  obtain ⟨n, hn⟩ : ∃ n, nbElems data.length = n + 1 := exists_eq_succ_of_ne_zero (by unfold nbElems; omega)
  rw [hn] at hstream ⊢
  rw [hstream]
  refine getVersion_packed hv _ ?_
  rw [length_append, length_ofBytes, length_append]
  omega

theorem Holds.decompress (h : Holds env Valid dict checksum v limit acc bm)
    (hblob : IsBlob env dict checksum v acc bm.currentBlob) {store : DictStore}
    (hstore : store.get env checksum v.toNat = .ok dict) :
    decompressBlobVersioned env v bm.currentBlob store =
      .ok ⟨⟨acc.all.map batchLen, [], checksum, v⟩, acc.all.flatten, acc.payload, dict⟩ := by
  obtain ⟨data, body, hdata, hbody, hpacked⟩ := hblob
  have hmax := h.bound
  unfold maxUncompressedBytes at hmax
  have hnb : (acc.all.map batchLen).length < 2 ^ 16 := by
    rw [length_map]
    exact lt_of_succ_lt h.nbBatches_lt
  have hread : readFrom v (encoded v checksum (acc.all.map batchLen) ++ body) = _ :=
    readFrom_encoded body (sizes_lt (hmax.trans (by decide))) hnb
  have hblocks : ∀ bs ∈ acc.all, ∀ b ∈ bs, IsEncoded env.rlp b ∧ b.length < 2 ^ 20 := by
    intro bs hbs b hb
    have hle := (sublist_flatten_of_mem hb).length_le
    have hbatch := batchLen_le_payload hbs
    rw [batchLen_eq] at hbatch
    exact ⟨h.blocks b (mem_flatten.mpr ⟨bs, hbs, hb⟩), by omega⟩
  have hscan := scanBatches_eq hblocks []
  rw [nil_append, length_nil, ← Accepted.payload] at hscan
  have hunpack := unpackAlign_packed env.bitio data
  rw [← hpacked, hdata] at hunpack
  unfold decompressBlobVersioned
  simp [hunpack, hread, hstore, hbody, hscan]

/-- The header of a blob equals the one it was written from, whether its last batch is sealed by now or not. -/
theorem equals_sizes {s : Header} (hcurr : s.currBatchBlocksLen = [] ∨ s.currBatchBlocksLen.sum ≠ 0)
    (version : BitVec 16) :
    (⟨s.sizes, [], s.dictChecksum, version⟩ : Header).equals s = true := by
  unfold equals
  rw [if_neg (fun h => h rfl)]
  rcases hcurr with hcurr | hcurr
  · rw [if_pos (by rw [hcurr]), sizes, if_pos hcurr]
    exact beq_self_eq_true _
  · have hne : s.currBatchBlocksLen ≠ [] := fun h => hcurr (by rw [h]; rfl)
    rw [if_neg (fun h => hcurr h.symm)]
    dsimp only
    rw [if_pos sum_nil, sizes, if_neg hne]
    simp [equals.openEquals]

theorem Holds.bytes (h : Holds env Valid dict checksum v limit acc bm) : bm.bytes env = some bm.currentBlob := by
  unfold BlobMaker.bytes
  split
  · rename_i hpos
    rcases h.blob with ⟨-, hnil⟩ | ⟨-, hblob⟩
    · rw [hnil] at hpos
      exact absurd hpos (lt_irrefl 0)
    have hcurr : bm.header.currBatchBlocksLen = [] ∨ bm.header.currBatchBlocksLen.sum ≠ 0 := by
      rw [h.current]
      by_cases hc : acc.current = []
      · exact .inl (map_eq_nil_iff.mpr hc)
      · -- an open batch has a block, which is not empty
        obtain ⟨b, bs, hbs⟩ := exists_cons_of_ne_nil hc
        have hb : b ∈ acc.all.flatten := by
          rw [Accepted.flatten_all, hbs]
          exact mem_append_right _ mem_cons_self
        have := (h.blocks b hb).length_le
        refine .inr ?_
        rw [hbs, map_cons, sum_cons]
        omega
    have hequals := equals_sizes hcurr v
    rw [h.sizes, h.dictChecksum] at hequals
    rw [h.version, h.decompress hblob h.store]
    dsimp only
    rw [hequals, h.written]
    simp
  · rfl

/-! ### Sequences of calls -/

inductive Call
  | write (rlpBlock : List Byte) (forceReset : Bool)
  | startNewBatch
  | reset

/-- A blob maker, with the blocks it has accepted since the last reset. -/
structure History (κ : Type) where
  maker : BlobMaker κ
  accepted : Accepted

/-- One call; after a panic there is no blob maker any more. A block is accepted when `Write` returns `true` and was
not told to reset. -/
def History.step (env : Env κ) (r : History κ) : Call → Option (History κ)
  | .startNewBatch => some ⟨r.maker.startNewBatch, r.accepted.startNewBatch⟩
  | .reset => some ⟨r.maker.reset env, {}⟩
  | .write rlpBlock forceReset =>
    match write env rlpBlock forceReset r.maker with
    | .ok ok maker =>
      some ⟨maker, if ok && !forceReset then r.accepted.append ((encoding env rlpBlock).getD []) else r.accepted⟩
    | .error err maker => if err.panics then none else some ⟨maker, r.accepted⟩

def History.run (env : Env κ) (r : History κ) (calls : List Call) : Option (History κ) :=
  calls.foldlM (History.step env) r

theorem step_holds (hZ : env.lzss.Lawful dict Valid) {r r' : History κ} {c : Call}
    (h : Holds env Valid dict checksum v limit r.accepted r.maker) (hstep : r.step env c = some r') :
    Holds env Valid dict checksum v limit r'.accepted r'.maker := by
  cases c with
  | startNewBatch =>
    cases hstep
    exact startNewBatch_holds h
  | reset =>
    cases hstep
    exact reset_holds hZ h
  | write rlpBlock forceReset =>
    have hspec := write_spec hZ h rlpBlock forceReset
    simp only [History.step] at hstep
    split at hstep
    · rename_i ok maker hwrite
      obtain ⟨e, henc, hholds⟩ := hspec.ok hwrite
      cases hstep
      rw [henc]
      exact hholds
    · rename_i err maker hwrite
      split at hstep
      · cases hstep
      · rename_i hpanic
        cases hstep
        rcases hspec.error hwrite with ⟨rfl, -⟩ | ⟨hholds, -⟩
        · exact absurd rfl hpanic
        · exact hholds

theorem run_holds (hZ : env.lzss.Lawful dict Valid) {r r' : History κ} {calls : List Call}
    (h : Holds env Valid dict checksum v limit r.accepted r.maker) (hrun : r.run env calls = some r') :
    Holds env Valid dict checksum v limit r'.accepted r'.maker := by
  induction calls generalizing r with
  | nil =>
    cases hrun
    exact h
  | cons c calls ih =>
    rw [History.run, foldlM_cons, Option.bind_eq_bind, Option.bind_eq_some_iff] at hrun
    obtain ⟨r₁, hstep, hrun⟩ := hrun
    exact ih (step_holds hZ h hstep) hrun

theorem new_holds {dictFile : List Byte} (hZ : env.lzss.Lawful (env.lzss.augmentDict dictFile) Valid)
    (hnew : newVersionedBlobMaker env v limit dictFile = some bm) :
    ∃ checksum, Holds env Valid (env.lzss.augmentDict dictFile) checksum v limit {} bm := by
  unfold newVersionedBlobMaker DictStore.singleton at hnew
  generalize env.lzss.augmentDict dictFile = dict at hZ hnew ⊢
  cases hsum : env.checksum dict v.toNat with
  | none => simp [hsum] at hnew
  | some checksum =>
    cases hk : env.lzss.newCompressor dict with
    | none => simp [hsum, hk] at hnew
    | some k =>
      simp only [hsum, hk, Except.pure_eq_ok, Option.some.injEq] at hnew
      subst hnew
      obtain ⟨hvalid, hempty⟩ := hZ.new k hk
      refine ⟨checksum, rfl, rfl, ?_, rfl, rfl, rfl, hvalid, hempty, rfl, rfl, ?_, ?_, zero_le _, .inl ⟨rfl, rfl⟩⟩
      · -- the dictionary is the only one of the newest version
        have hget : (replicate v.toNat [] ++ [[(checksum, dict)]] : DictStore).getD v.toNat
          [] = [(checksum, dict)] := by
          rw [getD_eq_getElem?_getD, getElem?_append_right (by rw [length_replicate]),
            length_replicate, Nat.sub_self]
          rfl
        unfold DictStore.get
        rw [if_neg (by rw [length_append, length_replicate, length_singleton]; omega), hget]
        simp
      · intro batch hb
        exact absurd hb not_mem_nil
      · intro b hb
        exact absurd hb not_mem_nil

theorem step_returns (hZ : env.lzss.Lawful dict Valid) (hlimit : limit ≤ maxOutputSize) {r : History κ} {c : Call}
    (h : Holds env Valid dict checksum v limit r.accepted r.maker)
    (hc : ∀ b f, c = .write b f → ¬ EncodingPanics env b) : ∃ r', r.step env c = some r' := by
  cases c with
  | startNewBatch => exact ⟨_, rfl⟩
  | reset => exact ⟨_, rfl⟩
  | write rlpBlock forceReset =>
    have hspec := write_spec hZ h rlpBlock forceReset
    simp only [History.step]
    split
    · exact ⟨_, rfl⟩
    · rename_i err maker hwrite
      rcases hspec.error hwrite with ⟨-, hlarge⟩ | ⟨-, hpanics⟩
      · omega
      · rw [if_neg (fun hp => hc _ _ rfl (hpanics hp))]
        exact ⟨_, rfl⟩

/-- If the limit fits the buffer and no block makes the encoding panic, every sequence of calls returns, and `Bytes`
returns the blob. -/
theorem run_returns {dataLimit : Int} {dictFile : List Byte}
    (hZ : env.lzss.Lawful (env.lzss.augmentDict dictFile) Valid)
    (hnew : newBlobMaker env dataLimit dictFile = some bm) (hlimit : dataLimit ≤ maxOutputSize) {calls : List Call}
    (hcalls : ∀ b f, .write b f ∈ calls → ¬ EncodingPanics env b) :
    ∃ r, History.run env ⟨bm, {}⟩ calls = some r ∧ r.maker.bytes env = some r.maker.currentBlob := by
  obtain ⟨checksum, h⟩ := new_holds hZ hnew
  clear hnew
  generalize ({} : Accepted) = acc at h ⊢
  induction calls generalizing bm acc with
  | nil => exact ⟨_, rfl, h.bytes⟩
  | cons c calls ih =>
    obtain ⟨r₁, hstep⟩ := step_returns (r := ⟨bm, acc⟩) hZ hlimit h fun b f hb => hcalls b f (hb ▸ mem_cons_self)
    rw [History.run, foldlM_cons, Option.bind_eq_bind, hstep, Option.bind_some]
    exact ih (fun b f hb => hcalls b f (mem_cons_of_mem _ hb)) _ (step_holds hZ h hstep)

/-- For every sequence of calls that returns: a blob is there as soon as a block was accepted, `Bytes` returns it, and
with a store that has the dictionary it decompresses to the blocks accepted since the last reset, in the batches in
which they were written. -/
theorem decompressBlob_bytes {env : Env κ} {Valid : κ → Prop} {dataLimit : Int}
    {dictFile : List Byte} {bm : BlobMaker κ}
    (hZ : env.lzss.Lawful (env.lzss.augmentDict dictFile) Valid) (hnew : newBlobMaker env dataLimit dictFile = some bm)
    (calls : List Call) {r : History κ} (hrun : History.run env ⟨bm, {}⟩ calls = some r) :
    (r.maker.currentBlob = [] ↔ r.accepted.all = []) ∧
    r.maker.dictStore.get env r.maker.header.dictChecksum 1 = .ok r.maker.dict ∧
    (r.maker.currentBlob ≠ [] → getVersion r.maker.currentBlob = 1 ∧ r.maker.bytes env = some r.maker.currentBlob ∧
      ∀ store : DictStore, store.get env r.maker.header.dictChecksum 1 = .ok r.maker.dict →
        ∃ resp, decompressBlob env r.maker.currentBlob store = .ok resp ∧ resp.blocks = r.accepted.all.flatten ∧
          resp.header.batchSizes = r.accepted.all.map batchLen ∧ resp.rawPayload = r.accepted.all.flatten.flatten) := by
  obtain ⟨checksum, hholds⟩ := new_holds hZ hnew
  have h := run_holds (r := ⟨bm, {}⟩) hZ hholds hrun
  have hne : ∀ blob, IsBlob env (env.lzss.augmentDict dictFile) checksum 1 r.accepted blob → blob ≠ [] := by
    rintro blob ⟨data, body, -, -, rfl⟩ hnil
    have hlen := length_packed (nbElems data.length) (dataStream data)
    rw [hnil, length_nil] at hlen
    unfold nbElems at hlen
    omega
  rw [h.dictChecksum, h.dictBytes]
  rcases h.blob with ⟨hacc, hnil⟩ | ⟨hacc, hblob⟩
  · exact ⟨⟨fun _ => hacc, fun _ => hnil⟩, h.store, fun hcontra => absurd hnil hcontra⟩
  · refine ⟨⟨fun hnil => absurd hnil (hne _ hblob), fun hnil => absurd hnil hacc⟩, h.store, fun _ =>
      ⟨hblob.getVersion (by decide), h.bytes, fun store hstore => ?_⟩⟩
    exact ⟨_, h.decompress hblob hstore, rfl, rfl, rfl⟩

/-- A compressor that stores its input as it is, and what it was before the last write. -/
def storing : Lzss (List Byte × List Byte) where
  newCompressor _ := some ([], [])
  reset _ := ([], [])
  write k d := if (k.1 ++ d).length ≤ maxInputSize then (true, k.1 ++ d, k.1) else (false, k.1, k.1)
  revert k := (true, k.2, k.2)
  considerBypassing k := (false, k)
  bytes k := k.1
  writtenBytes k := k.1
  decompress b _ := some b
  augmentDict d := d

theorem storing_lawful (dict : List Byte) : storing.Lawful dict (fun _ => True) where
  new := by
    rintro k ⟨⟩
    exact ⟨trivial, rfl⟩
  reset _ _ := ⟨trivial, rfl⟩
  write k d _ hle := by
    have hw : storing.write k d = (true, k.1 ++ d, k.1) := if_pos hle
    rw [hw]
    exact ⟨rfl, trivial, rfl⟩
  write_large k d _ hlt := by
    have hw : storing.write k d = (false, k.1, k.1) := if_neg (not_le.mpr hlt)
    rw [hw]
  revert k d _ := by
    have hw : (storing.write k d).2.2 = k.1 := by
      show (if (k.1 ++ d).length ≤ maxInputSize then (true, k.1 ++ d, k.1) else (false, k.1, k.1)).2.2 = k.1
      split <;> rfl
    exact ⟨rfl, trivial, hw, hw⟩
  bypass _ _ := ⟨trivial, rfl⟩
  decompress _ _ := rfl

/-- Two blocks can be decoded: one with a transfer, and one without transactions. -/
def sampleEnv : Env (List Byte × List Byte) where
  lzss := storing
  checksum _ version := if version = 1 then some 7 else none
  decodeBlock b :=
    if b = [1] then
      some ⟨12, 5, some [⟨2, true, some 9, 59144, 3, 0, 1, 2, 21000, some 8, 1000, [], [], []⟩]⟩
    else if b = [2] then some ⟨14, 6, some []⟩
    else none
  rlp := Rlp.encoder
  bitio := .ofLists

def sampleMaker : BlobMaker (List Byte × List Byte) :=
  ⟨131072, ([], []), [], [[], [(7, [])]], 1, ⟨[], [], 7, 1⟩, []⟩

/-- Two batches of one block; a block is only tried, and another one is not decoded. -/
def sampleCalls : List Call :=
  [.write [1] false, .startNewBatch, .write [2] true, .write [3] false, .write [2] false]

theorem run_returns_sample : ∃ r, History.run sampleEnv ⟨sampleMaker, {}⟩ sampleCalls = some r ∧
    r.maker.bytes sampleEnv = some r.maker.currentBlob := by
  refine run_returns (storing_lawful _) rfl (by decide) ?_
  rintro b f hb ⟨block, err, hblock, herr, -⟩
  simp only [sampleCalls, mem_cons, Call.write.injEq, reduceCtorEq, false_or, not_mem_nil, or_false] at hb
  rcases hb with ⟨rfl, -⟩ | ⟨rfl, -⟩ | ⟨rfl, -⟩ | ⟨rfl, -⟩ <;> cases hblock <;> cases herr

theorem decompressBlob_bytes_sample :
    ∃ r, History.run sampleEnv ⟨sampleMaker, {}⟩ sampleCalls = some r ∧ r.accepted.all.map batchLen = [95, 38] ∧
      getVersion r.maker.currentBlob = 1 ∧ r.maker.bytes sampleEnv = some r.maker.currentBlob ∧
      ∃ resp, decompressBlob sampleEnv r.maker.currentBlob r.maker.dictStore = .ok resp ∧
        resp.blocks = r.accepted.all.flatten ∧ resp.header.batchSizes = [95, 38] := by
  have hsizes : (History.run sampleEnv ⟨sampleMaker, {}⟩ sampleCalls).map (fun r => r.accepted.all.map batchLen) =
      some [95, 38] := by decide +kernel
  obtain ⟨r, hrun, hr⟩ := Option.map_eq_some_iff.mp hsizes
  obtain ⟨hiff, hstore, hblob⟩ := decompressBlob_bytes (storing_lawful _) rfl sampleCalls hrun
  have hne : r.maker.currentBlob ≠ [] := by
    rw [ne_eq, hiff]
    intro hnil
    rw [hnil] at hr
    cases hr
  obtain ⟨hversion, hbytes, hdecompress⟩ := hblob hne
  obtain ⟨resp, hresp, hblocks, hheader, -⟩ := hdecompress _ hstore
  exact ⟨r, hrun, hr, hversion, hbytes, resp, hresp, hblocks, hheader.trans hr⟩

end BlobMaker

end Lineth.Compressor
