import Lineth.Lib.ByteReader

/-!
# The header of a blob

A blob starts with its version, counted down from the largest 16-bit number, the checksum of the dictionary, and the
byte size of each batch. The batch that is being built is counted as sealed: `Header.sizes` are the sizes as they are
written. -/

namespace Lineth.Compressor

open Except List ByteReader
open Evm (Byte Word beBytes ofBeBytes)

structure Header where
  batchSizes : List Nat
  currBatchBlocksLen : List Nat
  dictChecksum : Word
  version : BitVec 16
  deriving DecidableEq, Repr

namespace Header

inductive Error
  | batchSizeOutOfRange
  | unsupportedVersion
  | eof
  deriving DecidableEq, Repr

/-- If there is a batch currently being built, finalize it and start a new one. -/
def sealBatch (s : Header) : Header :=
  if s.currBatchBlocksLen = [] then s
  else { s with batchSizes := s.batchSizes ++ [s.currBatchBlocksLen.sum], currBatchBlocksLen := [] }

def addBlock (s : Header) (blockLen : Nat) : Header :=
  { s with currBatchBlocksLen := s.currBatchBlocksLen ++ [blockLen] }

def removeLastBlock (s : Header) : Header := { s with currBatchBlocksLen := s.currBatchBlocksLen.dropLast }

def resetTable (s : Header) : Header := { s with batchSizes := [], currBatchBlocksLen := [] }

/-- `Equals`: the last batch may be sealed in one of the headers and still open in the other. -/
def equals (s other : Header) : Bool :=
  if s.dictChecksum ≠ other.dictChecksum then false
  else if s.currBatchBlocksLen.sum = other.currBatchBlocksLen.sum then s.batchSizes == other.batchSizes
  else if s.currBatchBlocksLen.sum = 0 then openEquals other s other.currBatchBlocksLen.sum
  else if other.currBatchBlocksLen.sum ≠ 0 then false
  else openEquals s other s.currBatchBlocksLen.sum
where
  /-- The sizes of `large` are those of `small` and the sum of its open batch. -/
  openEquals (small large : Header) (smallSum : Nat) : Bool :=
    large.batchSizes.length == small.batchSizes.length + 1 &&
      (small.batchSizes == large.batchSizes.take small.batchSizes.length &&
        large.batchSizes[small.batchSizes.length]? == some smallSum)

def writeLen (batchLen : Nat) : Except Error (List Byte) :=
  if batchLen ≥ 2 ^ 24 then throw .batchSizeOutOfRange else return beBytes 3 batchLen

def writeLens : List Nat → Except Error (List Byte)
  | [] => return []
  | n :: ns => do
    let l ← writeLen n
    let ls ← writeLens ns
    return l ++ ls

/-- The sizes of the batches, the current one included if it has a block. -/
def sizes (s : Header) : List Nat :=
  if s.currBatchBlocksLen = [] then s.batchSizes else s.batchSizes ++ [s.currBatchBlocksLen.sum]

/-- `WriteTo`; the number of batches is a 16-bit number. -/
def writeTo (s : Header) : Except Error (List Byte) := do
  let versionBytes := beBytes 2 (0xffff - s.version + 1).toNat
  let nbBatches : BitVec 16 := BitVec.ofNat 16 s.batchSizes.length
  let nbBatches := if s.currBatchBlocksLen ≠ [] then nbBatches + 1 else nbBatches
  let lens ← writeLens s.sizes
  return versionBytes ++ Evm.toBytes s.dictChecksum ++ beBytes 2 nbBatches.toNat ++ lens

def orEof {α : Type} (x : Except ByteReader.Error α) : Except Error α :=
  match x with
  | .ok a => .ok a
  | .error _ => .error .eof

def readLens : Nat → ByteReader → Except Error (List Nat × ByteReader)
  | 0, r => return ([], r)
  | n + 1, r => do
    let (buf, r) ← orEof (r.readFull 3)
    let (lens, r) ← readLens n r
    return (ofBeBytes buf :: lens, r)

/-- `ReadFrom`: the header and the number of bytes it took. -/
def readFrom (version : BitVec 16) (b : List Byte) : Except Error (Header × Nat) := do
  let (givenVersion, r) ← orEof (readFull ⟨b, 0⟩ 2)
  if BitVec.ofNat 16 (ofBeBytes givenVersion) + version ≠ 0 then throw .unsupportedVersion
  let (dictChecksum, r) ← orEof (r.readFull 32)
  let (nbBatches, r) ← orEof (r.readFull 2)
  let (batchSizes, _) ← readLens (ofBeBytes nbBatches) r
  return (⟨batchSizes, [], Evm.ofBytes dictChecksum, version⟩, 2 + 32 + 2 + 3 * ofBeBytes nbBatches)

/-! ### Reading what was written -/

def encoded (version : BitVec 16) (dictChecksum : Word) (sizes : List Nat) : List Byte :=
  beBytes 2 (0xffff - version + 1).toNat ++ Evm.toBytes dictChecksum ++ beBytes 2 sizes.length ++
    sizes.flatMap (beBytes 3)

theorem length_flatMap_beBytes_three (sizes : List Nat) : (sizes.flatMap (beBytes 3)).length = 3 * sizes.length := by
  induction sizes with
  | nil => rfl
  | cons n ns ih => rw [flatMap_cons, length_append, ih, Evm.length_beBytes, length_cons]; omega

theorem length_encoded (version : BitVec 16) (dictChecksum : Word) (sizes : List Nat) :
    (encoded version dictChecksum sizes).length = 36 + 3 * sizes.length := by
  rw [encoded, length_append, length_append, length_append, Evm.length_beBytes, Evm.length_toBytes,
    Evm.length_beBytes, length_flatMap_beBytes_three]

theorem writeLens_eq {ns : List Nat} (h : ∀ n ∈ ns, n < 2 ^ 24) : writeLens ns = .ok (ns.flatMap (beBytes 3)) := by
  induction ns with
  | nil => rfl
  | cons n ns ih =>
    have hn : writeLen n = .ok (beBytes 3 n) := if_neg (Nat.not_le.mpr (h n mem_cons_self))
    rw [writeLens, hn, ok_bind, ih fun m hm => h m (mem_cons_of_mem _ hm)]
    rfl

theorem writeTo_eq {s : Header} (hsize : ∀ n ∈ s.sizes, n < 2 ^ 24) (hnb : s.sizes.length < 2 ^ 16) :
    s.writeTo = .ok (encoded s.version s.dictChecksum s.sizes) := by
  unfold writeTo
  rw [writeLens_eq hsize, ok_bind]
  -- the counter is kept in 16 bits, which is enough here
  have hcount : (if s.currBatchBlocksLen ≠ [] then BitVec.ofNat 16 s.batchSizes.length + 1
      else BitVec.ofNat 16 s.batchSizes.length).toNat = s.sizes.length := by
    unfold sizes at hnb ⊢
    by_cases hcurr : s.currBatchBlocksLen = []
    · rw [if_pos hcurr] at hnb ⊢
      rw [if_neg (fun h => h hcurr)]
      exact Nat.mod_eq_of_lt hnb
    · rw [if_neg hcurr, length_append, length_singleton] at hnb
      rw [if_neg hcurr, if_pos hcurr, length_append, length_singleton]
      rw [BitVec.toNat_add, BitVec.toNat_ofNat]
      show (s.batchSizes.length % 2 ^ 16 + 1) % 2 ^ 16 = _
      omega
  rw [hcount]
  rfl

theorem readLens_between {ns : List Nat} {pre rest : List Byte} (h : ∀ n ∈ ns, n < 2 ^ 24) :
    readLens ns.length (between pre (ns.flatMap (beBytes 3) ++ rest)) =
      .ok (ns, between (pre ++ ns.flatMap (beBytes 3)) rest) := by
  induction ns generalizing pre with
  | nil =>
    rw [flatMap_nil, append_nil]
    rfl
  | cons n ns ih =>
    have hn : n < 256 ^ 3 := h n mem_cons_self
    rw [length_cons, flatMap_cons, readLens, append_assoc,
      readFull_between (Evm.length_beBytes 3 n)]
    simp only [orEof, ok_bind]
    rw [ih fun m hm => h m (mem_cons_of_mem _ hm)]
    simp only [ok_bind]
    rw [Evm.ofBeBytes_beBytes, Nat.mod_eq_of_lt hn, append_assoc]
    rfl

theorem readFrom_encoded {version : BitVec 16} {dictChecksum : Word} {sizes : List Nat} (rest : List Byte)
    (hsize : ∀ n ∈ sizes, n < 2 ^ 24) (hnb : sizes.length < 2 ^ 16) :
    readFrom version (encoded version dictChecksum sizes ++ rest) =
      .ok (⟨sizes, [], dictChecksum, version⟩, (encoded version dictChecksum sizes).length) := by
  obtain ⟨v, hv⟩ : ∃ v, v = beBytes 2 (0xffff - version + 1).toNat := ⟨_, rfl⟩
  obtain ⟨nb, hnbytes⟩ : ∃ nb, nb = beBytes 2 sizes.length := ⟨_, rfl⟩
  have hvlen : v.length = 2 := by rw [hv, Evm.length_beBytes]
  have hnblen : nb.length = 2 := by rw [hnbytes, Evm.length_beBytes]
  have hversion : BitVec.ofNat 16 (ofBeBytes v) + version = 0 := by
    have hlt : (0xffff - version + 1).toNat < 256 ^ 2 := (0xffff - version + 1).isLt
    rw [hv, Evm.ofBeBytes_beBytes, Nat.mod_eq_of_lt hlt, BitVec.ofNat_toNat, BitVec.setWidth_eq]
    bv_omega
  have hcount : ofBeBytes nb = sizes.length := by
    rw [hnbytes, Evm.ofBeBytes_beBytes]
    exact Nat.mod_eq_of_lt hnb
  have hsplit : encoded version dictChecksum sizes ++ rest =
      v ++ (Evm.toBytes dictChecksum ++ (nb ++ (sizes.flatMap (beBytes 3) ++ rest))) := by
    rw [encoded, ← hv, ← hnbytes]
    simp only [append_assoc]
  rw [length_encoded, hsplit]
  have hread : readFull ⟨v ++ (Evm.toBytes dictChecksum ++ (nb ++ (sizes.flatMap (beBytes 3) ++ rest))), 0⟩ 2 =
      .ok (v, between ([] ++ v) (Evm.toBytes dictChecksum ++ (nb ++ (sizes.flatMap (beBytes 3) ++ rest)))) :=
    @readFull_between [] _ _ _ hvlen
  unfold readFrom
  rw [hread]
  simp only [orEof, ok_bind]
  rw [if_neg (fun h => h hversion), readFull_between (Evm.length_toBytes dictChecksum)]
  simp only [ok_bind]
  rw [readFull_between hnblen]
  simp only [ok_bind]
  rw [hcount, readLens_between hsize]
  simp only [ok_bind, Evm.ofBytes_toBytes]
  rfl

end Header

end Lineth.Compressor
