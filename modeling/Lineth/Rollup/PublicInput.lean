import Lineth.Rollup.State

/-!
# Finalization calldata and the public input

`finalizeBlocks` receives its arguments as raw calldata. Members of `FinalizationDataV4` are read where the ABI puts
them: the static ones at fixed offsets, the arrays through an offset that the compiler's accessor bounds-checks.
`_computePublicInput` copies from the same places by hand; `publicInputImage_eq` shows that what it hashes is the
`abi.encode` of the eighteen documented values, whatever the calldata and the memory it starts from. -/

namespace Lineth.Rollup

open Evm Except List Nat Memory

structure Calldata where
  bytes : List Byte
  size_lt : bytes.length < 2 ^ 64

namespace Calldata

variable (cd : Calldata)

def size : Word := BitVec.ofNat 256 cd.bytes.length

def memory : Memory := Memory.ofList cd.bytes

def load (p : Word) : Word := ofBytes ((cd.bytes.drop p.toNat).takeD 32 0)

def copy (m : Memory) (dst : Nat) (src : Word) (n : Nat) : Memory :=
  m.write dst (cd.memory.read src.toNat n)

/-- The compiler's access to the dynamic member at `offset` of the struct at `base`: the position of its
first element and its length. Comparisons are signed where the compiler's are. -/
def tail (base offset elementSize : Word) : Except Error (Word × Word) := do
  let relOffset := cd.load (base + offset)
  if !relOffset.slt (cd.size - base - 31) then throw .invalidCalldata
  let position := base + relOffset
  let length := cd.load position
  if length > 0xffffffffffffffff then throw .invalidCalldata
  let position := position + 0x20
  if (cd.size - length * elementSize).slt position then throw .invalidCalldata
  return (position, length)

def wordArray (base offset : Word) : Except Error (List Word) := do
  let (position, length) ← cd.tail base offset 0x20
  return (range length.toNat).map fun i => cd.load (position + 0x20 * BitVec.ofNat 256 i)

/-- An `address[]` member; a word that is not an address reverts. -/
def addressArray (base offset : Word) : Except Error (List Address) := do
  let ws ← cd.wordArray base offset
  if ws.all fun w => w.toNat < 2 ^ 160 then return ws.map (BitVec.setWidth 160) else throw .invalidCalldata

def byteArray (base offset : Word) : Except Error (List Byte) := do
  let (position, length) ← cd.tail base offset 1
  return cd.memory.read position.toNat length.toNat

end Calldata

/-- The arguments of `finalizeBlocks`; `finalizationData` is where the struct starts. -/
structure FinalizeArgs where
  aggregatedProof : List Byte
  proofType : Word
  finalizationData : Word

section

variable (cd : Calldata)

/-- The decoder of `(bytes,uint256,FinalizationDataV4)` after the four bytes of the selector. -/
def FinalizeArgs.decode : Except Error FinalizeArgs := do
  if cd.bytes.length < 4 + 0x60 then throw .invalidCalldata
  let proofOffset := cd.load 4
  if proofOffset > 0xffffffffffffffff then throw .invalidCalldata
  let proof := 4 + proofOffset.toNat
  if ¬ proof + 0x1f < cd.bytes.length then throw .invalidCalldata
  let length := (cd.load (4 + proofOffset)).toNat
  if length > 0xffffffffffffffff then throw .invalidCalldata
  if proof + 0x20 + length > cd.bytes.length then throw .invalidCalldata
  let structOffset := cd.load (4 + 0x40)
  if structOffset > 0xffffffffffffffff then throw .invalidCalldata
  if cd.bytes.length < 4 + structOffset.toNat + 0x280 then throw .invalidCalldata
  return ⟨cd.memory.read (proof + 0x20) length, cd.load (4 + 0x20), 4 + structOffset⟩

def FinalizationData.decode (fd : Word) : FinalizationData where
  parentStateRootHash := cd.load fd
  endBlockNumber := cd.load (fd + 0x20)
  parentShnarf := cd.load (fd + 0x40)
  snarkHash := cd.load (fd + 0x60)
  finalStateRootHash := cd.load (fd + 0x80)
  dataEvaluationPoint := cd.load (fd + 0xa0)
  dataEvaluationClaim := cd.load (fd + 0xc0)
  lastFinalizedTimestamp := cd.load (fd + 0xe0)
  finalTimestamp := cd.load (fd + 0x100)
  lastFinalizedL1RollingHash := cd.load (fd + 0x120)
  l1RollingHash := cd.load (fd + 0x140)
  lastFinalizedL1RollingHashMessageNumber := cd.load (fd + 0x160)
  l1RollingHashMessageNumber := cd.load (fd + 0x180)
  l2MerkleTreesDepth := cd.load (fd + 0x1a0)
  lastFinalizedForcedTransactionNumber := cd.load (fd + 0x1c0)
  finalForcedTransactionNumber := cd.load (fd + 0x1e0)
  lastFinalizedForcedTransactionRollingHash := cd.load (fd + 0x200)

def l2MerkleRoots (fd : Word) : Except Error (List Word) := cd.wordArray fd 0x220

def filteredAddresses (fd : Word) : Except Error (List Address) := cd.addressArray fd 0x240

def l2MessagingBlocksOffsets (fd : Word) : Except Error (List Byte) := cd.byteArray fd 0x260

end

/-! ### Assembling the public input -/

variable (keccak : List Byte → Word)

/-- `abi.encodePacked` of an address array pads each element to a word. -/
def encodePackedAddresses (addresses : List Address) : List Byte := words (addresses.map (BitVec.setWidth 256))

section

variable (cd : Calldata) (fd : Word) (m : Memory) (mPtr : Nat)

/-- The assembly block of `_computePublicInput` up to the tree depth, from memory `m` with the free memory
pointer at `mPtr`. -/
def publicInputHead (lastFinalizedShnarf finalShnarf
    lastFinalizedBlockNumber finalForcedTransactionRollingHash : Word) : Memory :=
  let m := m.write mPtr (toBytes lastFinalizedShnarf)
  let m := m.write (mPtr + 0x20) (toBytes finalShnarf)
  let m := cd.copy m (mPtr + 0x40) (fd + 0xe0) 0x40
  let m := m.write (mPtr + 0x80) (toBytes lastFinalizedBlockNumber)
  let m := cd.copy m (mPtr + 0xa0) (fd + 0x20) 0x20
  let m := cd.copy m (mPtr + 0xc0) (fd + 0x120) 0x80
  let m := cd.copy m (mPtr + 0x140) (fd + 0x200) 0x20
  let m := m.write (mPtr + 0x160) (toBytes finalForcedTransactionRollingHash)
  let m := cd.copy m (mPtr + 0x180) (fd + 0x1c0) 0x40
  cd.copy m (mPtr + 0x1c0) (fd + 0x1a0) 0x20

/-- The rest of the assembly block: the roots are hashed above 0x200, which is then overwritten. -/
def publicInputMemory (verifierChainConfiguration
    hashedFilteredAddresses : Word) : Memory :=
  let mPtrMerkleRoot := mPtr + 0x200
  let merkleRootsLengthLocation := fd + cd.load (fd + 0x220)
  let merkleRootsLen := cd.load merkleRootsLengthLocation
  let m := cd.copy m mPtrMerkleRoot (merkleRootsLengthLocation + 0x20) (merkleRootsLen * 0x20).toNat
  let l2MerkleRootsHash := keccak (m.read mPtrMerkleRoot (merkleRootsLen * 0x20).toNat)
  let m := m.write (mPtr + 0x1e0) (toBytes l2MerkleRootsHash)
  let m := m.write (mPtr + 0x200) (toBytes verifierChainConfiguration)
  m.write (mPtr + 0x220) (toBytes hashedFilteredAddresses)

/-- The memory range that `_computePublicInput` hashes. -/
def publicInputImage (lastFinalizedShnarf finalShnarf
    lastFinalizedBlockNumber finalForcedTransactionRollingHash verifierChainConfiguration
    hashedFilteredAddresses : Word) : List Byte :=
  let m := publicInputHead cd fd m mPtr lastFinalizedShnarf finalShnarf lastFinalizedBlockNumber
    finalForcedTransactionRollingHash
  (publicInputMemory keccak cd fd m mPtr verifierChainConfiguration hashedFilteredAddresses).read mPtr 0x240

end

def moduloR : Nat := 21888242871839275222246405745257275088548364400416034343698204186575808495617

def publicInput (image : List Byte) : Word := BitVec.ofNat 256 ((keccak image).toNat % moduloR)

/-- The eighteen documented values of a finalization, in order. -/
def Finalization.publicInputs (f : Finalization) : List Word :=
  [f.lastFinalizedShnarf, f.finalShnarf, f.data.lastFinalizedTimestamp, f.data.finalTimestamp,
    f.lastFinalizedBlockNumber, f.data.endBlockNumber, f.data.lastFinalizedL1RollingHash, f.data.l1RollingHash,
    f.data.lastFinalizedL1RollingHashMessageNumber, f.data.l1RollingHashMessageNumber,
    f.data.lastFinalizedForcedTransactionRollingHash, f.finalForcedTransactionRollingHash,
    f.data.lastFinalizedForcedTransactionNumber, f.data.finalForcedTransactionNumber, f.data.l2MerkleTreesDepth,
    keccak (words f.l2MerkleRoots), f.verifierChainConfiguration, keccak (encodePackedAddresses f.filteredAddresses)]

/-! ### The assembled range -/

namespace Calldata

variable {cd : Calldata} {m : Memory} {base offset src : Word}

theorem load_eq_readWord (p : Word) : cd.load p = cd.memory.readWord p.toNat := by
  rw [load, Memory.readWord, memory, read_ofList]

theorem load_eq_zero {p : Word} (h : cd.bytes.length ≤ p.toNat) : cd.load p = 0 := by
  have hzero : cd.memory.read p.toNat 32 = replicate 32 0 := by
    refine ext_getElem (by simp) fun i _ _ => ?_
    have hout : cd.bytes.length ≤ p.toNat + i := by omega
    rw [getElem_replicate]
    simp [Memory.read, memory, Memory.ofList, getD, hout]
  rw [load_eq_readWord, Memory.readWord, hzero]
  rfl

theorem toNat_add_ofNat {i : Nat} (h : src.toNat + i < 2 ^ 256) : (src + BitVec.ofNat 256 i).toNat = src.toNat + i := by
  rw [BitVec.toNat_add, BitVec.toNat_ofNat, add_mod_mod, mod_eq_of_lt h]

theorem readWord_copy {dst q n : Nat} (hq : dst ≤ q) (hn : q - dst + 32 ≤ n) (h : src.toNat + (q - dst) < 2 ^ 256) :
    (cd.copy m dst src n).readWord q = cd.load (src + BitVec.ofNat 256 (q - dst)) := by
  obtain ⟨i, rfl⟩ := Nat.exists_eq_add_of_le hq
  rw [Nat.add_sub_cancel_left] at *
  rw [copy, readWord_write_read _ _ _ _ hn, load_eq_readWord, toNat_add_ofNat h]

theorem readWord_copy_of_disjoint {dst q n : Nat} (h : q + 32 ≤ dst ∨ dst + n ≤ q) :
    (cd.copy m dst src n).readWord q = m.readWord q :=
  readWord_write_of_disjoint (by rwa [length_read])

theorem tail_bounds {length : Word} (hpos : 0 < length.toNat) (hload : cd.load base = length)
    (hlen : ¬ length > 0xffffffffffffffff) (hend : ¬ (cd.size - length * 0x20).slt (base + 0x20) = true) :
    (base + 0x20).toNat = base.toNat + 0x20 ∧ base.toNat + 0x20 + 0x20 * length.toNat ≤ cd.bytes.length := by
  have hsize := cd.size_lt
  have hbase : base.toNat < cd.bytes.length := by
    by_contra hout
    rw [load_eq_zero (by omega)] at hload
    rw [← hload] at hpos
    simp at hpos
  have hl : length.toNat ≤ 0xffffffffffffffff := by simpa [BitVec.lt_def] using hlen
  have hn : (base + 0x20).toNat = base.toNat + 0x20 := by
    rw [BitVec.toNat_add]; exact mod_eq_of_lt (by simp; omega)
  refine ⟨hn, ?_⟩
  have hmul : (length * 0x20).toNat = length.toNat * 0x20 := by
    rw [BitVec.toNat_mul]; exact mod_eq_of_lt (by simp; omega)
  have hsz : cd.size.toNat = cd.bytes.length := by
    rw [size, BitVec.toNat_ofNat]; exact mod_eq_of_lt (by omega)
  rw [BitVec.slt_iff_toInt_lt, BitVec.toInt_eq_toNat_cond, BitVec.toInt_eq_toNat_cond, BitVec.toNat_sub, hmul, hsz,
    hn] at hend
  by_contra hout
  apply hend
  split <;> split <;> omega

theorem read_wordArray {ws : List Word} (h : cd.wordArray base offset = .ok ws) :
    cd.memory.read (base + cd.load (base + offset) + 0x20).toNat
      (cd.load (base + cd.load (base + offset)) * 0x20).toNat = words ws := by
  simp only [wordArray, tail, bind_eq_ok, throw_eq_error, pure_eq_ok, error_bind,
    ite_error_eq_ok, ok.injEq, Prod.exists, Prod.mk.injEq] at h
  obtain ⟨_, _, ⟨-, hlen, hend, rfl, rfl⟩, rfl⟩ := h
  generalize hbase : base + cd.load (base + offset) = position at *
  generalize hload : cd.load position = length at *
  rcases Nat.eq_zero_or_pos length.toNat with h0 | hpos
  · have hz : length = 0 := BitVec.eq_of_toNat_eq h0
    rw [hz]
    rfl
  · obtain ⟨hn, hbound⟩ := tail_bounds hpos hload hlen hend
    have hsize := cd.size_lt
    have hmul : (length * 0x20).toNat = 32 * length.toNat := by
      rw [BitVec.toNat_mul, mul_comm]; exact mod_eq_of_lt (by simp; omega)
    rw [hmul, read_eq_words, readWords]
    refine congrArg words (map_congr_left fun i hi => ?_)
    have hi' := mem_range.1 hi
    have hmul' : (0x20 * BitVec.ofNat 256 i : Word) = BitVec.ofNat 256 (32 * i) := by
      rw [show (0x20 : Word) = BitVec.ofNat 256 32 from rfl, ← BitVec.ofNat_mul]
    rw [load_eq_readWord, hmul', toNat_add_ofNat (by omega)]

end Calldata

variable {cd : Calldata}

/-- The first fifteen words, read back from the part of the block that writes them. -/
theorem readWords_publicInputHead {fd : Word} (hfd : fd.toNat + 0x280 < 2 ^ 256) (m : Memory)
    (mPtr : Nat) (lastShnarf finalShnarf lastBlock ftxHash : Word) :
    (publicInputHead cd fd m mPtr lastShnarf finalShnarf lastBlock ftxHash).readWords mPtr 15 =
      [lastShnarf, finalShnarf, cd.load (fd + 0xe0), cd.load (fd + 0x100), lastBlock, cd.load (fd + 0x20),
        cd.load (fd + 0x120), cd.load (fd + 0x140), cd.load (fd + 0x160), cd.load (fd + 0x180),
        cd.load (fd + 0x200), ftxHash, cd.load (fd + 0x1c0), cd.load (fd + 0x1e0), cd.load (fd + 0x1a0)] := by
  have htimes : (fd + 0xe0).toNat = fd.toNat + 0xe0 := Calldata.toNat_add_ofNat (i := 0xe0) (by omega)
  have hrolling : (fd + 0x120).toNat = fd.toNat + 0x120 := Calldata.toNat_add_ofNat (i := 0x120) (by omega)
  have hforced : (fd + 0x1c0).toNat = fd.toNat + 0x1c0 := Calldata.toNat_add_ofNat (i := 0x1c0) (by omega)
  simp only [readWords, range_succ, range_zero, map_cons, map_nil, nil_append,
    cons_append, reduceMul, add_zero, publicInputHead]
  simp (disch := omega) only [Calldata.readWord_copy_of_disjoint, readWord_write_toBytes_of_disjoint,
    readWord_write_toBytes, Calldata.readWord_copy]
  simp [BitVec.add_assoc]

/-- The last three words; what came before the roots is not touched. -/
theorem readWords_publicInputMemory {fd : Word} {roots : List Word}
    (hroots : l2MerkleRoots cd fd = .ok roots) (m : Memory) (mPtr : Nat) (chainConfiguration hashedAddresses : Word) :
    (publicInputMemory keccak cd fd m mPtr chainConfiguration hashedAddresses).readWords mPtr 18 =
      m.readWords mPtr 15 ++ [keccak (words roots), chainConfiguration, hashedAddresses] := by
  have hread := Calldata.read_wordArray hroots
  set n := (cd.load (fd + cd.load (fd + 0x220)) * 0x20).toNat with hn
  have hcopied : (cd.copy m (mPtr + 0x200) (fd + cd.load (fd + 0x220) + 0x20) n).read
    (mPtr + 0x200) n = words roots := by
    have := read_write_self m (mPtr + 0x200) (cd.memory.read (fd + cd.load (fd + 0x220) + 0x20).toNat n)
    rw [length_read] at this
    rw [Calldata.copy, this, hread]
  rw [publicInputMemory]
  simp only [← hn, hcopied]
  simp only [readWords, range_succ, range_zero, map_cons, map_nil, nil_append,
    cons_append, reduceMul, add_zero]
  simp (disch := omega) only [Calldata.readWord_copy_of_disjoint, readWord_write_toBytes_of_disjoint,
    readWord_write_toBytes]

/-- The public input is the hash of the documented `abi.encode`, for every calldata whose struct and roots the
compiler's accessors accept and for every memory it is assembled in. -/
theorem publicInputImage_eq {fd : Word} {roots : List Word} (hfd : fd.toNat + 0x280 < 2 ^ 256)
    (hroots : l2MerkleRoots cd fd = .ok roots) (m : Memory) (mPtr : Nat) (f : Finalization)
    (hdata : f.data = FinalizationData.decode cd fd) (hf : f.l2MerkleRoots = roots) :
    publicInputImage keccak cd fd m mPtr f.lastFinalizedShnarf f.finalShnarf f.lastFinalizedBlockNumber
      f.finalForcedTransactionRollingHash f.verifierChainConfiguration
      (keccak (encodePackedAddresses f.filteredAddresses)) = words (f.publicInputs keccak) := by
  rw [publicInputImage, show 0x240 = 32 * 18 from rfl, read_eq_words, readWords_publicInputMemory keccak hroots,
    readWords_publicInputHead hfd, Finalization.publicInputs, hdata, hf]
  rfl

end Lineth.Rollup
