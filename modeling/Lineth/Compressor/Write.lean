import Mathlib.Algebra.Order.BigOperators.Group.List
import Lineth.Compressor.BlobMaker

/-!
# What a blob maker keeps

`Accepted` are the blocks appended since the last reset, in batches. `Holds` says what a blob maker keeps between two
calls: its header lists the accepted blocks, its compressor has been given them, and its current blob is the packed
form of both. Every call preserves it, also one that undoes what it tried (`write_spec`). -/

namespace Lineth.Compressor

open Evm (Byte Word beBytes ofBeBytes)
open Exec Bits List Header

variable {κ : Type}

/-! ### The compression library -/

def maxInputSize : Nat := 2 ^ 21

/-- What is assumed of the compressors for one dictionary: they decompress to what was written, writing fails only
beyond the largest input, and a write can be reverted. -/
structure Lzss.Lawful (Z : Lzss κ) (dict : List Byte) (Valid : κ → Prop) : Prop where
  new : ∀ k, Z.newCompressor dict = some k → Valid k ∧ Z.writtenBytes k = []
  reset : ∀ k, Valid k → Valid (Z.reset k) ∧ Z.writtenBytes (Z.reset k) = []
  write : ∀ k d, Valid k → (Z.writtenBytes k ++ d).length ≤ maxInputSize →
    (Z.write k d).1 = true ∧ Valid (Z.write k d).2 ∧ Z.writtenBytes (Z.write k d).2 = Z.writtenBytes k ++ d
  write_large : ∀ k d, Valid k → maxInputSize < (Z.writtenBytes k ++ d).length → (Z.write k d).1 = false
  revert : ∀ k d, Valid k → (Z.revert (Z.write k d).2).1 = true ∧ Valid (Z.revert (Z.write k d).2).2 ∧
    Z.writtenBytes (Z.revert (Z.write k d).2).2 = Z.writtenBytes k ∧ Z.bytes (Z.revert (Z.write k d).2).2 = Z.bytes k
  bypass : ∀ k, Valid k → Valid (Z.considerBypassing k).2 ∧ Z.writtenBytes (Z.considerBypassing k).2 = Z.writtenBytes k
  decompress : ∀ k, Valid k → Z.decompress (Z.bytes k) dict = some (Z.writtenBytes k)

/-! ### The accepted blocks -/

structure Accepted where
  closed : List (List (List Byte)) := []
  current : List (List Byte) := []

namespace Accepted

def append (acc : Accepted) (block : List Byte) : Accepted := ⟨acc.closed, acc.current ++ [block]⟩

def startNewBatch (acc : Accepted) : Accepted :=
  if acc.current = [] then acc else ⟨acc.closed ++ [acc.current], []⟩

def all (acc : Accepted) : List (List (List Byte)) := acc.startNewBatch.closed

def payload (acc : Accepted) : List Byte := acc.all.flatten.flatten

variable (acc : Accepted)

@[simp] theorem all_startNewBatch : acc.startNewBatch.all = acc.all := by
  by_cases h : acc.current = []
  · rw [startNewBatch, if_pos h]
  · rw [startNewBatch, if_neg h, all, startNewBatch, if_pos rfl, all, startNewBatch, if_neg h]

theorem all_of_current_nil {acc : Accepted} (h : acc.current = []) : acc.all = acc.closed := by
  rw [all, startNewBatch, if_pos h]

theorem all_of_current_ne {acc : Accepted} (h : acc.current ≠ []) : acc.all = acc.closed ++ [acc.current] := by
  rw [all, startNewBatch, if_neg h]

theorem flatten_all : acc.all.flatten = acc.closed.flatten ++ acc.current := by
  by_cases h : acc.current = []
  · rw [all_of_current_nil h, h, append_nil]
  · rw [all_of_current_ne h, flatten_append, flatten_singleton]

theorem flatten_all_append (block : List Byte) :
    (acc.append block).all.flatten = acc.all.flatten ++ [block] := by
  rw [flatten_all, flatten_all, append_assoc]
  rfl

theorem payload_append (block : List Byte) : (acc.append block).payload = acc.payload ++ block := by
  rw [payload, flatten_all_append, flatten_append, flatten_singleton]
  rfl

end Accepted

def batchLen (batch : List (List Byte)) : Nat := (batch.map length).sum

theorem batchLen_eq (batch : List (List Byte)) : batchLen batch = batch.flatten.length := length_flatten.symm

theorem mul_length_le {α : Type} {ls : List (List α)} {k : Nat} (h : ∀ l ∈ ls, k ≤ l.length) :
    k * ls.length ≤ ls.flatten.length := by
  rw [length_flatten, mul_comm, ← ls.length_map length]
  exact card_nsmul_le_sum _ k (forall_mem_map.2 h)

def IsEncoded (rlp : Rlp.Encoder) (e : List Byte) : Prop := ∃ block, encodeBlockForCompression rlp block = .ok e

theorem IsEncoded.length_le {rlp : Rlp.Encoder} {e : List Byte} (h : IsEncoded rlp e) : 38 ≤ e.length := by
  obtain ⟨block, h⟩ := h
  exact length_encodeBlock h

/-! ### The state between calls -/

namespace BlobMaker

section

variable (env : Env κ) (Valid : κ → Prop) (dict : List Byte) (checksum : Word) (v : BitVec 16) (limit : Int)

/-- The blob of the accepted blocks: a header with the sizes of the batches, and compressed data. -/
def IsBlob (acc : Accepted) (blob : List Byte) : Prop :=
  ∃ data body, data = encoded v checksum (acc.all.map batchLen) ++ body ∧
    env.lzss.decompress body dict = some acc.payload ∧ blob = packed (nbElems data.length) (dataStream data)

structure Holds (acc : Accepted) (bm : BlobMaker κ) : Prop where
  limit : bm.limit = limit
  dictBytes : bm.dict = dict
  store : bm.dictStore.get env checksum v.toNat = .ok dict
  version : bm.version = v
  headerVersion : bm.header.version = v
  dictChecksum : bm.header.dictChecksum = checksum
  valid : Valid bm.compressor
  written : env.lzss.writtenBytes bm.compressor = acc.payload
  closed : bm.header.batchSizes = acc.closed.map batchLen
  current : bm.header.currBatchBlocksLen = acc.current.map length
  batches : ∀ batch ∈ acc.closed, batch ≠ []
  blocks : ∀ b ∈ acc.all.flatten, IsEncoded env.rlp b
  bound : acc.payload.length ≤ maxUncompressedBytes
  blob : acc.all = [] ∧ bm.currentBlob = [] ∨ acc.all ≠ [] ∧ IsBlob env dict checksum v acc bm.currentBlob

/-- A compressor that was given a block after those of `bm`; as long as nothing was compressed anew, by one write. -/
structure Attempt (bm : BlobMaker κ) (e : List Byte) (recompressionAttempted : Bool) (k : κ) : Prop where
  valid : Valid k
  written : env.lzss.writtenBytes k = env.lzss.writtenBytes bm.compressor ++ e
  once : recompressionAttempted = false → k = (env.lzss.write bm.compressor e).2

end

def withBlock (bm : BlobMaker κ) (e : List Byte) (k : κ) : BlobMaker κ :=
  { bm with header := bm.header.addBlock e.length, compressor := k }

variable {env : Env κ} {Valid : κ → Prop} {dict : List Byte} {checksum : Word} {v : BitVec 16} {limit : Int}
  {acc : Accepted} {bm : BlobMaker κ} {e : List Byte} {k : κ} {att : Bool}

theorem Holds.setCompressor (h : Holds env Valid dict checksum v limit acc bm) (hk : Valid k)
    (hw : env.lzss.writtenBytes k = env.lzss.writtenBytes bm.compressor) :
    Holds env Valid dict checksum v limit acc { bm with compressor := k } :=
  ⟨h.limit, h.dictBytes, h.store, h.version, h.headerVersion, h.dictChecksum, hk, hw.trans h.written, h.closed,
    h.current, h.batches, h.blocks, h.bound, h.blob⟩

theorem removeLastBlock_addBlock (s : Header) (n : Nat) : (s.addBlock n).removeLastBlock = s := by
  unfold Header.addBlock removeLastBlock
  rw [dropLast_concat]

variable {E : WriteError → BlobMaker κ → Prop}

@[simp]
theorem wp_onCompressor {Q : Bool → BlobMaker κ → Prop} (f : κ → Bool × κ) :
    wp (onCompressor f) Q E bm ↔ Q (f bm.compressor).1 { bm with compressor := (f bm.compressor).2 } := Iff.rfl

def packedSize (env : Env κ) (headerLen : Nat) (k : κ) : Int :=
  packAlignSize (headerLen + (env.lzss.bytes k).length) packingSizeU256 {}

theorem wp_fitsInBlob {α : Type} {x y : WriteM κ α} {Q : α → BlobMaker κ → Prop}
    {headerLen : Nat} (hx : packedSize env headerLen k ≤ bm.limit → wp x Q E (bm.withBlock e k))
    (hy : ¬ packedSize env headerLen k ≤ bm.limit → wp y Q E (bm.withBlock e k)) :
    wp (fitsInBlob env headerLen >>= fun fits => if fits = true then x else y) Q E (bm.withBlock e k) := by
  rw [wp_bind]
  exact wp_ite (fun h => hx (of_decide_eq_true h)) (fun h => hy fun hfits => h (decide_eq_true hfits))

/-- The blob fits when everything is compressed in one go, or not at all. -/
def FitsAnew (env : Env κ) (headerLen : Nat) (k : κ) (payload : List Byte) (limit : Int) : Prop :=
  packedSize env headerLen (env.lzss.write (env.lzss.reset k) payload).2 ≤ limit ∨
    (env.lzss.considerBypassing (env.lzss.write (env.lzss.reset k) payload).2).1 = true ∧
      packedSize env headerLen (env.lzss.considerBypassing (env.lzss.write (env.lzss.reset k) payload).2).2 ≤ limit

/-- With the block written after those before it, the blob exceeds the limit. -/
def Recompresses (env : Env κ) (bm : BlobMaker κ) (e : List Byte) : Prop :=
  ∃ header, (bm.header.addBlock e.length).writeTo = .ok header ∧
    bm.limit < packedSize env header.length (env.lzss.write bm.compressor e).2

/-- There is room for the block. -/
def Appendable (env : Env κ) (bm : BlobMaker κ) (e : List Byte) : Prop :=
  ∃ header, (bm.header.addBlock e.length).writeTo = .ok header ∧
    (env.lzss.writtenBytes bm.compressor ++ e).length + header.length ≤ maxUncompressedBytes ∧
    (packedSize env header.length (env.lzss.write bm.compressor e).2 ≤ bm.limit ∨
      FitsAnew env header.length (env.lzss.write bm.compressor e).2 (env.lzss.writtenBytes bm.compressor ++ e) bm.limit)

/-- A block was taken back: the compressor has been reverted, or the blocks before it were compressed in one go. -/
def Undone (env : Env κ) (Valid : κ → Prop) (bm : BlobMaker κ) (e : List Byte) (s : BlobMaker κ) : Prop :=
  ∃ k, s = { bm with compressor := k } ∧ Valid k ∧ env.lzss.writtenBytes k = env.lzss.writtenBytes bm.compressor ∧
    (k = (env.lzss.revert (env.lzss.write bm.compressor e).2).2 ∨
      Recompresses env bm e ∧
        ∃ k', Valid k' ∧ k = (env.lzss.write (env.lzss.reset k') (env.lzss.writtenBytes bm.compressor)).2)

theorem Undone.holds {s : BlobMaker κ} (hs : Undone env Valid bm e s)
    (h : Holds env Valid dict checksum v limit acc bm) :
    Holds env Valid dict checksum v limit acc s := by
  obtain ⟨k, rfl, hvalid, hwritten, -⟩ := hs
  exact h.setCompressor hvalid hwritten

theorem undone_revert (hZ : env.lzss.Lawful dict Valid) (hv : Valid bm.compressor) (e : List Byte) :
    Undone env Valid bm e { bm with compressor := (env.lzss.revert (env.lzss.write bm.compressor e).2).2 } := by
  obtain ⟨-, hvalid, hwritten, -⟩ := hZ.revert bm.compressor e hv
  exact ⟨_, rfl, hvalid, hwritten, .inl rfl⟩

theorem wp_removeLastBlock {Q : PUnit → BlobMaker κ → Prop} :
    wp (modifyHeader removeLastBlock) Q E (bm.withBlock e k) ↔ Q ⟨⟩ { bm with compressor := k } := by
  show Q ⟨⟩ { bm with header := (bm.header.addBlock e.length).removeLastBlock, compressor := k } ↔ _
  rw [removeLastBlock_addBlock]

theorem revert_spec (hZ : env.lzss.Lawful dict Valid) (h : Holds env Valid dict checksum v limit acc bm)
    (hk : Attempt env Valid bm e att k) (hanew : att = true → Recompresses env bm e) :
    wp (revert env (env.lzss.writtenBytes bm.compressor ++ e) (env.lzss.writtenBytes bm.compressor).length att)
      (fun _ s => Undone env Valid bm e s) (fun _ _ => False) (bm.withBlock e k) := by
  unfold revert
  rw [wp_bind, wp_removeLastBlock]
  cases att with
  | false =>
    obtain ⟨hok, -⟩ := hZ.revert bm.compressor e h.valid
    rw [hk.once rfl]
    simp only [Bool.not_false, if_true, wp_bind, wp_onCompressor, hok, Bool.not_true, Bool.false_eq_true, if_false,
      wp_pure]
    exact undone_revert hZ h.valid e
  | true =>
    obtain ⟨hreset, hempty⟩ := hZ.reset k hk.valid
    have hfit : (env.lzss.writtenBytes (env.lzss.reset k) ++ env.lzss.writtenBytes bm.compressor).length ≤
      maxInputSize := by
      rw [hempty, nil_append, h.written]
      exact h.bound.trans (by unfold maxUncompressedBytes maxInputSize; decide)
    obtain ⟨hok, hvalid, hwritten⟩ := hZ.write _ _ hreset hfit
    rw [hempty, nil_append] at hwritten
    simp only [Bool.not_true, Bool.false_eq_true, if_false, resetCompressor, wp_bind, wp_modify, wp_onCompressor,
      take_left, hok, wp_pure]
    exact ⟨_, rfl, hvalid, hwritten, .inr ⟨hanew rfl, k, hk.valid, rfl⟩⟩

theorem fit_spec (hZ : env.lzss.Lawful dict Valid) (hk : Attempt env Valid bm e false k) (headerLen prevLen : Nat)
    (hle : (env.lzss.writtenBytes bm.compressor ++ e).length ≤ maxInputSize) :
    wp (fit env headerLen (env.lzss.writtenBytes bm.compressor ++ e) prevLen)
      (fun r s => ∃ k', s = bm.withBlock e k' ∧ Attempt env Valid bm e r.2 k' ∧
        (r.1 = true → packedSize env headerLen k' ≤ bm.limit) ∧ (r.2 = true → bm.limit < packedSize env headerLen k) ∧
        (r.1 = true ↔ packedSize env headerLen k ≤ bm.limit ∨
          FitsAnew env headerLen k (env.lzss.writtenBytes bm.compressor ++ e) bm.limit))
      (fun _ _ => False) (bm.withBlock e k) := by
  obtain ⟨hreset, hempty⟩ := hZ.reset k hk.valid
  obtain ⟨hok, hvalid, hwritten⟩ := hZ.write (env.lzss.reset k) (env.lzss.writtenBytes bm.compressor ++ e) hreset
    (by rwa [hempty, nil_append])
  rw [hempty, nil_append] at hwritten
  unfold FitsAnew
  set k₁ := (env.lzss.write (env.lzss.reset k) (env.lzss.writtenBytes bm.compressor ++ e)).2 with hk₁
  have hatt₁ : Attempt env Valid bm e true k₁ := ⟨hvalid, hwritten, nofun⟩
  obtain ⟨hvalid₂, hwritten₂⟩ := hZ.bypass k₁ hvalid
  have hatt₂ : Attempt env Valid bm e true (env.lzss.considerBypassing k₁).2 :=
    ⟨hvalid₂, hwritten₂.trans hwritten, nofun⟩
  unfold fit
  refine wp_fitsInBlob (fun hfits => ⟨k, rfl, hk, fun _ => hfits, nofun, by simp [hfits]⟩) (fun hnot => ?_)
  rw [wp_bind]
  show wp _ _ _ (bm.withBlock e (env.lzss.reset k))
  rw [wp_bind, wp_onCompressor]
  show wp (if (!(env.lzss.write (env.lzss.reset k) _).1) = true then _ else _) _ _ (bm.withBlock e k₁)
  rw [hok, Bool.not_true, if_neg Bool.false_ne_true]
  dsimp only
  have hgt : bm.limit < packedSize env headerLen k := not_le.mp hnot
  refine wp_fitsInBlob (fun hfits => ⟨k₁, rfl, hatt₁, fun _ => hfits, fun _ => hgt, by simp [hfits]⟩) (fun hnot₁ => ?_)
  rw [wp_bind, wp_onCompressor]
  show wp (if (env.lzss.considerBypassing k₁).1 = true then _ else _) _ _
    (bm.withBlock e (env.lzss.considerBypassing k₁).2)
  refine wp_ite (fun hbypass => ?_) (fun hbypass => ⟨_, rfl, hatt₂, nofun,
    fun _ => hgt, by simp [hnot, hnot₁, hbypass]⟩)
  exact wp_fitsInBlob (fun hfits => ⟨_, rfl, hatt₂, fun _ => hfits, fun _ => hgt, by simp [hfits, hbypass]⟩)
    (fun hnot₂ => ⟨_, rfl, hatt₂, nofun, fun _ => hgt, by simp [hnot, hnot₁, hnot₂]⟩)

/-! ### Accepting a block -/

theorem Holds.sizes (h : Holds env Valid dict checksum v limit acc bm) : bm.header.sizes = acc.all.map batchLen := by
  unfold Header.sizes
  rw [h.current, h.closed]
  by_cases hc : acc.current = []
  · rw [if_pos (map_eq_nil_iff.mpr hc), Accepted.all_of_current_nil hc]
  · rw [if_neg (hc ∘ map_eq_nil_iff.mp), Accepted.all_of_current_ne hc, map_append]
    rfl

theorem Holds.nonempty (h : Holds env Valid dict checksum v limit acc bm) : ∀ batch ∈ acc.all, batch ≠ [] := by
  intro batch hb
  by_cases hc : acc.current = []
  · rw [Accepted.all_of_current_nil hc] at hb
    exact h.batches batch hb
  · rw [Accepted.all_of_current_ne hc, mem_append, mem_singleton] at hb
    rcases hb with hb | rfl
    · exact h.batches batch hb
    · exact hc

theorem all_append_ne_nil (acc : Accepted) (e : List Byte) : (acc.append e).all ≠ [] := by
  have hne : (acc.append e).current ≠ [] := append_ne_nil_of_right_ne_nil _ (cons_ne_nil _ _)
  rw [Accepted.all_of_current_ne hne]
  exact append_ne_nil_of_right_ne_nil _ (cons_ne_nil _ _)

theorem length_all_append (acc : Accepted) (e : List Byte) : (acc.append e).all.length ≤ acc.all.length + 1 := by
  have hne : (acc.append e).current ≠ [] := append_ne_nil_of_right_ne_nil _ (cons_ne_nil _ _)
  have hclosed : acc.closed.length ≤ acc.all.length := by
    by_cases hc : acc.current = []
    · rw [Accepted.all_of_current_nil hc]
    · rw [Accepted.all_of_current_ne hc, length_append]
      omega
  rw [Accepted.all_of_current_ne hne, length_append, length_singleton]
  exact Nat.succ_le_succ hclosed

theorem Holds.accept (h : Holds env Valid dict checksum v limit acc bm) (he : IsEncoded env.rlp e)
    (hk : Attempt env Valid bm e att k) (hbound : (acc.payload ++ e).length ≤ maxUncompressedBytes) {blob : List Byte}
    (hblob : IsBlob env dict checksum v (acc.append e) blob) :
    Holds env Valid dict checksum v limit (acc.append e) { bm.withBlock e k with currentBlob := blob } where
  limit := h.limit
  dictBytes := h.dictBytes
  store := h.store
  version := h.version
  headerVersion := h.headerVersion
  dictChecksum := h.dictChecksum
  valid := hk.valid
  written := by rw [Accepted.payload_append, ← h.written]; exact hk.written
  closed := h.closed
  current := by
    show bm.header.currBatchBlocksLen ++ [e.length] = (acc.current ++ [e]).map length
    rw [h.current, map_append]
    rfl
  batches := h.batches
  blocks := by
    intro b hb
    rw [Accepted.flatten_all_append, mem_append, mem_singleton] at hb
    rcases hb with hb | rfl
    · exact h.blocks b hb
    · exact he
  bound := by rwa [Accepted.payload_append]
  blob := .inr ⟨all_append_ne_nil acc e, hblob⟩

theorem batchLen_le_payload {batch : List (List Byte)} (hb : batch ∈ acc.all) :
    batchLen batch ≤ acc.payload.length := by
  obtain ⟨before, after, hall⟩ := append_of_mem hb
  rw [batchLen_eq, Accepted.payload, hall, flatten_append, flatten_cons, flatten_append,
    flatten_append]
  simp only [length_append]
  omega

theorem sizes_lt (hle : acc.payload.length ≤ maxInputSize) : ∀ n ∈ acc.all.map batchLen, n < 2 ^ 24 := by
  intro n hn
  obtain ⟨batch, hbatch, rfl⟩ := mem_map.mp hn
  exact Nat.lt_of_le_of_lt ((batchLen_le_payload hbatch).trans hle) (by decide)

section

variable (h : Holds env Valid dict checksum v limit acc bm)

include h

theorem Holds.nbBatches_le :
    38 * acc.all.length ≤ acc.payload.length := by
  have hbatches : 1 * acc.all.length ≤ acc.all.flatten.length :=
    mul_length_le fun batch hb => length_pos_iff.mpr (h.nonempty batch hb)
  have hblocks : 38 * acc.all.flatten.length ≤ acc.payload.length := mul_length_le fun b hb => (h.blocks b hb).length_le
  omega

theorem Holds.nbBatches_lt : acc.all.length + 1 < 2 ^ 16 := by
  have hle := h.nbBatches_le
  have hmax := h.bound
  unfold maxUncompressedBytes at hmax
  omega

theorem Holds.writeTo (hle : (acc.payload ++ e).length ≤ maxInputSize) :
    (bm.withBlock e k).header.writeTo = .ok (encoded v checksum ((acc.append e).all.map batchLen)) := by
  have hsizes : (bm.withBlock e k).header.sizes = (acc.append e).all.map batchLen := by
    have hne : (acc.append e).current ≠ [] := append_ne_nil_of_right_ne_nil _ (cons_ne_nil _ _)
    have hcurr : bm.header.currBatchBlocksLen ++ [e.length] ≠ [] :=
      append_ne_nil_of_right_ne_nil _ (cons_ne_nil _ _)
    show (bm.header.addBlock e.length).sizes = _
    unfold Header.sizes Header.addBlock
    rw [if_neg hcurr, h.closed, h.current, Accepted.all_of_current_ne hne, map_append]
    show _ ++ [(acc.current.map length ++ [e.length]).sum] = _ ++ [batchLen (acc.current ++ [e])]
    rw [batchLen, map_append]
    rfl
  have hsize := sizes_lt (show (acc.append e).payload.length ≤ maxInputSize by rwa [Accepted.payload_append])
  have hnb : ((acc.append e).all.map batchLen).length < 2 ^ 16 := by
    rw [length_map]
    exact Nat.lt_of_le_of_lt (length_all_append acc e) h.nbBatches_lt
  rw [← hsizes] at hsize hnb ⊢
  rw [writeTo_eq hsize hnb]
  show Except.ok (encoded bm.header.version bm.header.dictChecksum _) = _
  rw [h.headerVersion, h.dictChecksum]

end

section

variable (hZ : env.lzss.Lawful dict Valid) (h : Holds env Valid dict checksum v limit acc bm)

include hZ h

theorem pack_spec (he : IsEncoded env.rlp e)
    (hk : Attempt env Valid bm e att k) (hbound : (acc.payload ++ e).length ≤ maxUncompressedBytes)
    (hfits : packedSize env (encoded v checksum ((acc.append e).all.map batchLen)).length k ≤ bm.limit)
    (payload : List Byte) (prevLen : Nat) :
    wp (pack env (encoded v checksum ((acc.append e).all.map batchLen)) payload prevLen att)
      (fun _ s => Holds env Valid dict checksum v limit (acc.append e) s)
      (fun err _ => err = .currentBlobOutOfRange ∧ maxOutputSize < limit) (bm.withBlock e k) := by
  have hpack := packAlign_eq env.bitio (encoded v checksum ((acc.append e).all.map batchLen)) [env.lzss.bytes k]
  rw [flatten_singleton] at hpack
  set data := encoded v checksum ((acc.append e).all.map batchLen) ++ env.lzss.bytes k with hdata
  have hblob : IsBlob env dict checksum v (acc.append e) (packed (nbElems data.length) (dataStream data)) := by
    refine ⟨data, env.lzss.bytes k, hdata, ?_, rfl⟩
    rw [hZ.decompress k hk.valid, hk.written, h.written, Accepted.payload_append]
  unfold pack
  rw [wp_bind, wp_get]
  rw [show (bm.withBlock e k).compressor = k from rfl, hpack]
  refine wp_ite (fun hlarge => ⟨rfl, ?_⟩) (fun _ => ?_)
  · -- the size that was checked against the limit is the size of the result
    have hsize : packedSize env (encoded v checksum ((acc.append e).all.map batchLen)).length k =
        (32 * nbElems data.length : Nat) := by
      have h := packAlignSize_eq data []
      rw [flatten_nil, append_nil, hdata, length_append] at h
      rw [packedSize, h, hdata, length_append]
    rw [hsize, h.limit] at hfits
    omega
  dsimp only
  rw [wp_set, take_of_length_le (length_packed _ _).le]
  exact h.accept he hk hbound hblob

theorem writeEncoded_spec (he : IsEncoded env.rlp e) (hk : Attempt env Valid bm e false k)
    (hle : (acc.payload ++ e).length ≤ maxInputSize) (forceReset : Bool) :
    wp (writeEncoded env (encoded v checksum ((acc.append e).all.map batchLen))
        (env.lzss.writtenBytes bm.compressor).length forceReset)
      (fun ok s => (ok = true ↔ Appendable env bm e) ∧
        if ok && !forceReset then Holds env Valid dict checksum v limit (acc.append e) s else Undone env Valid bm e s)
      (fun err _ => err = .currentBlobOutOfRange ∧ maxOutputSize < limit) (bm.withBlock e k) := by
  have hwritten : env.lzss.writtenBytes (bm.withBlock e k).compressor = env.lzss.writtenBytes
    bm.compressor ++ e := hk.written
  have hheader : (bm.header.addBlock e.length).writeTo = .ok (encoded v checksum ((acc.append e).all.map batchLen)) :=
    h.writeTo (k := k) hle
  set header := encoded v checksum ((acc.append e).all.map batchLen)
  unfold writeEncoded
  rw [wp_bind, wp_get, hwritten]
  refine wp_ite (fun hlarge => ?_) (fun hsmall => ?_)
  · -- too long uncompressed: the block is taken back
    obtain ⟨hok, -⟩ := hZ.revert bm.compressor e h.valid
    rw [wp_bind, wp_onCompressor]
    show wp (if (!(env.lzss.revert k).1) = true then _ else _) _ _ (bm.withBlock e (env.lzss.revert k).2)
    rw [hk.once rfl, hok, Bool.not_true, if_neg Bool.false_ne_true]
    dsimp only
    rw [wp_bind, wp_removeLastBlock, wp_pure]
    refine ⟨⟨nofun, ?_⟩, undone_revert hZ h.valid e⟩
    rintro ⟨header', hheader', hsmall, -⟩
    cases hheader.symm.trans hheader'
    omega
  · have hbound : (acc.payload ++ e).length ≤ maxUncompressedBytes := by
      rw [h.written] at hsmall
      omega
    dsimp only
    rw [wp_bind, wp_get, hwritten, wp_bind]
    refine wp_mono (fit_spec hZ hk _ _ (by rwa [h.written])) ?_ (fun _ _ h => h.elim)
    rintro ⟨fits, att⟩ s ⟨k', rfl, hk', hfits, hanew, hiff⟩
    rw [hk.once rfl] at hanew hiff
    have happend : fits = true ↔ Appendable env bm e := by
      refine hiff.trans ⟨fun hroom => ⟨header, hheader, not_lt.mp hsmall, hroom⟩, ?_⟩
      rintro ⟨header', hheader', -, hroom⟩
      cases hheader.symm.trans hheader'
      exact hroom
    have hrevert := revert_spec hZ h hk' fun hatt => ⟨header, hheader, hanew hatt⟩
    dsimp only
    cases fits with
    | false =>
      rw [Bool.not_false, if_pos rfl, wp_bind]
      exact wp_mono hrevert (fun _ _ hundone => ⟨happend, hundone⟩) (fun _ _ h => h.elim)
    | true =>
      rw [Bool.not_true, if_neg Bool.false_ne_true]
      cases forceReset with
      | true =>
        rw [if_pos rfl, wp_bind]
        exact wp_mono hrevert (fun _ _ hundone => ⟨happend, hundone⟩) (fun _ _ h => h.elim)
      | false =>
        rw [if_neg Bool.false_ne_true, wp_bind]
        exact wp_mono (pack_spec hZ h he hk' hbound (hfits rfl) _ _) (fun _ _ h => ⟨happend, h⟩)

def encoding (env : Env κ) (rlpBlock : List Byte) : Option (List Byte) :=
  (env.decodeBlock rlpBlock).bind fun block => (encodeBlockForCompression env.rlp block).toOption

def EncodingPanics (env : Env κ) (rlpBlock : List Byte) : Prop :=
  ∃ block err, env.decodeBlock rlpBlock = some block ∧ encodeBlockForCompression env.rlp block = .error err ∧
    err.panics = true

/-- A write that returns `true` without `forceReset` appends the block; every other one that returns takes it back, or
fails before. It panics only if the block cannot be encoded, or if the limit exceeds the buffer of the blob maker. -/
theorem write_outcome (rlpBlock : List Byte) (forceReset : Bool) :
    wp (write env rlpBlock forceReset)
      (fun ok s => ∃ e, encoding env rlpBlock = some e ∧ (ok = true ↔ Appendable env bm e) ∧
        if ok && !forceReset then Holds env Valid dict checksum v limit (acc.append e) s else Undone env Valid bm e s)
      (fun err s => err = .currentBlobOutOfRange ∧ maxOutputSize < limit ∨
        (err.panics = true → EncodingPanics env rlpBlock) ∧
          (encoding env rlpBlock = none ∧ s = bm ∨
            ∃ e, encoding env rlpBlock = some e ∧ maxInputSize < (env.lzss.writtenBytes bm.compressor ++ e).length ∧
              s = { bm with compressor := (env.lzss.revert (env.lzss.write bm.compressor e).2).2 })) bm := by
  unfold write
  rw [wp_bind, wp_get]
  cases hdecode : env.decodeBlock rlpBlock with
  | none => exact .inr ⟨nofun, .inl ⟨by rw [encoding, hdecode]; rfl, rfl⟩⟩
  | some block =>
    dsimp only
    have henc : encoding env rlpBlock = (encodeBlockForCompression env.rlp block).toOption := by
      rw [encoding, hdecode]
      rfl
    cases hencode : encodeBlockForCompression env.rlp block with
    | error err =>
      exact .inr ⟨fun hpanics => ⟨block, err, hdecode, hencode, hpanics⟩, .inl ⟨by rw [henc, hencode]; rfl, rfl⟩⟩
    | ok e =>
      have he : IsEncoded env.rlp e := ⟨block, hencode⟩
      have henc : encoding env rlpBlock = some e := by
        rw [henc, hencode]
        rfl
      dsimp only
      rw [wp_bind, wp_onCompressor]
      rcases Nat.lt_or_ge maxInputSize (env.lzss.writtenBytes bm.compressor ++ e).length with hlarge | hle
      · -- the compressor takes no more, and is reverted
        obtain ⟨hok, -⟩ := hZ.revert bm.compressor e h.valid
        rw [hZ.write_large _ _ h.valid hlarge, Bool.not_false, if_pos rfl, wp_bind, wp_onCompressor]
        rw [hok, Bool.not_true, if_neg Bool.false_ne_true]
        exact .inr ⟨nofun, .inr ⟨e, henc, hlarge, rfl⟩⟩
      · obtain ⟨hok, hvalid, hwritten⟩ := hZ.write _ _ h.valid hle
        have hk : Attempt env Valid bm e false (env.lzss.write bm.compressor e).2 := ⟨hvalid, hwritten, fun _ => rfl⟩
        rw [h.written] at hle
        rw [hok, Bool.not_true, if_neg Bool.false_ne_true, wp_bind]
        show wp _ _ _ (bm.withBlock e (env.lzss.write bm.compressor e).2)
        rw [wp_bind, wp_get, h.writeTo hle]
        exact wp_mono (writeEncoded_spec hZ h he hk hle forceReset) (fun _ _ h => ⟨e, henc, h⟩) (fun _ _ h => .inl h)

theorem write_spec (rlpBlock : List Byte)
    (forceReset : Bool) :
    wp (write env rlpBlock forceReset)
      (fun ok s => ∃ e, encoding env rlpBlock = some e ∧
        Holds env Valid dict checksum v limit (if ok && !forceReset then acc.append e else acc) s)
      (fun err s => err = .currentBlobOutOfRange ∧ maxOutputSize < limit ∨
        Holds env Valid dict checksum v limit acc s ∧ (err.panics = true → EncodingPanics env rlpBlock)) bm := by
  refine wp_mono (write_outcome hZ h rlpBlock forceReset) ?_ ?_
  · rintro ok s ⟨e, henc, -, hs⟩
    refine ⟨e, henc, ?_⟩
    cases hacc : ok && !forceReset with
    | true =>
      rw [hacc] at hs
      exact hs
    | false =>
      rw [hacc] at hs
      exact Undone.holds hs h
  · rintro err s (hlarge | ⟨hpanics, ⟨-, rfl⟩ | ⟨e, -, -, rfl⟩⟩)
    · exact .inl hlarge
    · exact .inr ⟨h, hpanics⟩
    · exact .inr ⟨(undone_revert hZ h.valid e).holds h, hpanics⟩

end

theorem startNewBatch_holds (h : Holds env Valid dict checksum v limit acc bm) :
    Holds env Valid dict checksum v limit acc.startNewBatch bm.startNewBatch := by
  by_cases hc : acc.current = []
  · have hacc : acc.startNewBatch = acc := if_pos hc
    have hbm : bm.startNewBatch = bm := by
      unfold startNewBatch sealBatch
      rw [if_pos (by rw [h.current, hc]; rfl)]
    rwa [hacc, hbm]
  · have hpay : acc.startNewBatch.payload = acc.payload := by rw [Accepted.payload, Accepted.all_startNewBatch]; rfl
    have hacc : acc.startNewBatch = ⟨acc.closed ++ [acc.current], []⟩ := if_neg hc
    have hseal : bm.header.sealBatch =
        { bm.header with
          batchSizes := bm.header.batchSizes ++ [bm.header.currBatchBlocksLen.sum], currBatchBlocksLen := [] } :=
      if_neg (by rw [h.current]; exact hc ∘ map_eq_nil_iff.mp)
    refine ⟨h.limit, h.dictBytes, h.store, h.version, ?_, ?_, h.valid,
      h.written.trans hpay.symm, ?_, ?_, ?_, ?_, ?_, ?_⟩
    · show bm.header.sealBatch.version = v
      rw [hseal]
      exact h.headerVersion
    · show bm.header.sealBatch.dictChecksum = checksum
      rw [hseal]
      exact h.dictChecksum
    · show bm.header.sealBatch.batchSizes = _
      rw [hseal, hacc, map_append, h.closed, h.current]
      rfl
    · show bm.header.sealBatch.currBatchBlocksLen = _
      rw [hseal, hacc]
      rfl
    · intro batch hb
      rw [hacc, mem_append, mem_singleton] at hb
      rcases hb with hb | rfl
      · exact h.batches batch hb
      · exact hc
    · rw [Accepted.all_startNewBatch]
      exact h.blocks
    · rw [hpay]
      exact h.bound
    · rw [Accepted.all_startNewBatch]
      refine h.blob.imp_right (And.imp_right ?_)
      rintro ⟨data, body, hdata, hbody, hblob⟩
      exact ⟨data, body, by rwa [Accepted.all_startNewBatch], by rwa [hpay], hblob⟩

theorem reset_holds (hZ : env.lzss.Lawful dict Valid) (h : Holds env Valid dict checksum v limit acc bm) :
    Holds env Valid dict checksum v limit {} (bm.reset env) := by
  obtain ⟨hvalid, hempty⟩ := hZ.reset bm.compressor h.valid
  refine ⟨h.limit, h.dictBytes, h.store, h.version, h.headerVersion, h.dictChecksum, hvalid, hempty, rfl, rfl, ?_, ?_,
    Nat.zero_le _, .inl ⟨rfl, rfl⟩⟩
  · intro batch hb
    exact absurd hb not_mem_nil
  · intro b hb
    exact absurd hb not_mem_nil

end BlobMaker

end Lineth.Compressor
