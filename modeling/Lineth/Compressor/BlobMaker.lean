import Lineth.Lib.Exec
import Lineth.Compressor.Block
import Lineth.Compressor.Encode
import Lineth.Compressor.Header

/-!
# The blob maker

`BlobMaker` collects blocks, in batches, into one blob: the header and the compressed blocks, packed into field
elements. `Write` keeps a block only if the blob still fits; if not it compresses everything anew in one go, or not at
all, before it gives up. `DecompressBlob` unpacks a blob and splits it into its blocks. The compressor, the decoder of
blocks, the RLP encoder and the readers and writers of bits are libraries. A call that panics ends the program. -/

namespace Lineth.Compressor

open Header
open Evm (Byte Word beBytes ofBeBytes)

/-- The compression library: a compressor keeps what was written and its compressed form. -/
structure Lzss (κ : Type) where
  newCompressor : List Byte → Option κ
  reset : κ → κ
  /-- whether the data were accepted -/
  write : κ → List Byte → Bool × κ
  /-- undoes the last write -/
  revert : κ → Bool × κ
  /-- gives up compression if that makes the output smaller -/
  considerBypassing : κ → Bool × κ
  bytes : κ → List Byte
  writtenBytes : κ → List Byte
  decompress : List Byte → List Byte → Option (List Byte)
  augmentDict : List Byte → List Byte

/-! ### Dictionaries -/

abbrev DictStore := List (List (Word × List Byte))

inductive DictError
  | unrecognizedVersion
  | unsupportedVersion
  | unmatchingDictionary
  | notFound
  deriving DecidableEq, Repr

structure Env (κ : Type) where
  lzss : Lzss κ
  /-- the checksum of a dictionary according to a version -/
  checksum : List Byte → Nat → Option Word
  decodeBlock : List Byte → Option Block
  rlp : Rlp.Encoder
  bitio : Bits.BitIO

namespace DictStore

variable {κ : Type} (env : Env κ)

def singleton (dict : List Byte) (version : Nat) : Except DictError DictStore :=
  match env.checksum dict version with
  | none => throw .unsupportedVersion
  | some key => return List.replicate version [] ++ [[(key, dict)]]

def add (s : DictStore) (dict : List Byte) (version : Nat) : Except DictError DictStore :=
  match env.checksum dict version with
  | none => throw .unsupportedVersion
  | some key =>
    let entries := s.getD version []
    match entries.lookup key with
    | some existing => if dict ≠ existing then throw .unmatchingDictionary else return s
    | none => return s.set version ((key, dict) :: entries)

/-- `Get`: dictionaries are loaded for the newest version, and found for another one by loading them there. -/
def get (s : DictStore) (checksum : Word) (version : Nat) : Except DictError (List Byte) :=
  if version ≥ s.length then throw .unrecognizedVersion
  else
    match (s.getD version []).lookup checksum with
    | some dict => return dict
    | none =>
      let newest := s.getLastD []
      if (s.getD version []).length = newest.length then throw .notFound
      else do
        let s ← newest.foldlM (fun s entry => add env s entry.2 version) s
        match (s.getD version []).lookup checksum with
        | some dict => return dict
        | none => throw .notFound

end DictStore

/-! ### Decompression -/

inductive DecompressError
  | unpack (e : PackError)
  | header (e : Header.Error)
  | dictionary (e : DictError)
  | body
  | scan (e : ScanError)
  | incorrectBatchLength
  | diverges
  deriving DecidableEq, Repr

structure BlobDecompressionResponse where
  header : Header
  blocks : List (List Byte)
  rawPayload : List Byte
  dict : List Byte
  deriving DecidableEq, Repr

/-- The blocks from `offset` up to `stop`, and the offset behind them. A block of which the scanner finds the length
to be zero would be scanned forever; the number of rounds is bounded by more than can advance. -/
def scanBatch (payload : List Byte) : Nat → Nat → Nat → Except DecompressError (List (List Byte) × Nat)
  | 0, _, _ => throw .diverges
  | rounds + 1, offset, stop =>
    if offset < stop then do
      match scanBlockByteLen (payload.drop offset) with
      | .error e => throw (.scan e)
      | .ok blockLen =>
        let (blocks, offset') ← scanBatch payload rounds (offset + blockLen) stop
        return ((payload.drop offset).take blockLen :: blocks, offset')
    else return ([], offset)

/-- The blocks of the batches with the given lengths. -/
def scanBatches (payload : List Byte) : List Nat → Nat → Except DecompressError (List (List Byte))
  | [], _ => return []
  | batchLen :: batchLens, batchOffset => do
    let (blocks, offset) ← scanBatch payload (payload.length + 1) batchOffset (batchOffset + batchLen)
    if offset ≠ batchOffset + batchLen then throw .incorrectBatchLength
    let rest ← scanBatches payload batchLens offset
    return blocks ++ rest

variable {κ : Type}

def decompressBlobVersioned (env : Env κ) (version : BitVec 16) (b : List Byte) (dictStore : DictStore) :
    Except DecompressError BlobDecompressionResponse := do
  let b ← match unpackAlign env.bitio b packingSizeU256 false with
    | .error e => throw (.unpack e)
    | .ok b => pure b
  let (header, read) ← match readFrom version b with
    | .error e => throw (.header e)
    | .ok x => pure x
  let dict ← match dictStore.get env header.dictChecksum version.toNat with
    | .error e => throw (.dictionary e)
    | .ok dict => pure dict
  let rawPayload ← match env.lzss.decompress (b.drop read) dict with
    | none => throw .body
    | some p => pure p
  let blocks ← scanBatches rawPayload header.batchSizes 0
  return ⟨header, blocks, rawPayload, dict⟩

def decompressBlob (env : Env κ) (b : List Byte) (dictStore : DictStore) :
    Except DecompressError BlobDecompressionResponse :=
  decompressBlobVersioned env 1 b dictStore

/-- `GetVersion`: the first two bytes are packed into the upper bits of the first element. -/
def getVersion (blob : List Byte) : BitVec 16 :=
  match blob with
  | b₀ :: b₁ :: b₂ :: _ => if b₀ = 0x3f ∧ b₁ = 0xff then 4 - (b₂ >>> 6).setWidth 16 else 0
  | _ => 0

/-! ### The state -/

/-- The buffers that `Write` only uses while it runs are not part of the state; of `currentBlob` the part in use is
kept, so that its length is `currentBlobLength`. -/
structure BlobMaker (κ : Type) where
  limit : Int
  compressor : κ
  dict : List Byte
  dictStore : DictStore
  version : BitVec 16
  header : Header
  currentBlob : List Byte

def maxOutputSize : Nat := 2 ^ 20

@[irreducible] def maxUncompressedBytes : Nat := 780000

inductive WriteError
  | decodeBlock
  | encodeBlock (e : EncodeError)
  | compressorRevert
  | compressorWrite
  | writeHeader (e : Header.Error)
  | recompress
  | pack (e : PackError)
  | currentBlobOutOfRange
  deriving DecidableEq, Repr

/-- The errors that are panics and not returned to the caller. -/
def WriteError.panics : WriteError → Bool
  | .encodeBlock e => e.panics
  | .pack e => e == .indexOutOfRange
  | .currentBlobOutOfRange => true
  | _ => false

namespace BlobMaker

def newVersionedBlobMaker (env : Env κ) (version : BitVec 16) (dataLimit : Int) (dictFile : List Byte) :
    Option (BlobMaker κ) :=
  let dict := env.lzss.augmentDict dictFile
  match DictStore.singleton env dict version.toNat, env.checksum dict version.toNat, env.lzss.newCompressor dict with
  | .ok dictStore, some dictChecksum, some compressor =>
    some ⟨dataLimit, compressor, dict, dictStore, version, sealBatch ⟨[], [], dictChecksum, version⟩, []⟩
  | _, _, _ => none

def newBlobMaker (env : Env κ) (dataLimit : Int) (dictFile : List Byte) : Option (BlobMaker κ) :=
  newVersionedBlobMaker env 1 dataLimit dictFile

def startNewBatch (bm : BlobMaker κ) : BlobMaker κ := { bm with header := bm.header.sealBatch }

def reset (env : Env κ) (bm : BlobMaker κ) : BlobMaker κ :=
  { bm with
    header := bm.header.resetTable.sealBatch
    currentBlob := []
    compressor := env.lzss.reset bm.compressor }

/-- `Bytes`: nothing is returned when the sanity checks fail, which panic. -/
def bytes (env : Env κ) (bm : BlobMaker κ) : Option (List Byte) :=
  if bm.currentBlob.length > 0 then
    match decompressBlobVersioned env bm.version bm.currentBlob bm.dictStore with
    | .error _ => none
    | .ok resp =>
      if !resp.header.equals bm.header then none
      else if resp.rawPayload ≠ env.lzss.writtenBytes bm.compressor then none
      else some bm.currentBlob
  else some bm.currentBlob

/-! ### Writing -/

abbrev WriteM (κ : Type) := EStateM WriteError (BlobMaker κ)

variable (env : Env κ)

def modifyHeader (f : Header → Header) : WriteM κ Unit := modify fun bm => { bm with header := f bm.header }

def resetCompressor : WriteM κ Unit := modify fun bm => { bm with compressor := env.lzss.reset bm.compressor }

/-- A call that changes the compressor and returns a flag. -/
def onCompressor (f : κ → Bool × κ) : WriteM κ Bool := do
  let bm ← get
  set { bm with compressor := (f bm.compressor).2 }
  return (f bm.compressor).1

def fitsInBlob (headerLen : Nat) : WriteM κ Bool := do
  let bm ← get
  return decide
    ((packAlignSize (headerLen + (env.lzss.bytes bm.compressor).length) packingSizeU256 {} : Int) ≤ bm.limit)

/-- The closure `revert` of `Write`: after a recompression the compressor's own `Revert` cannot be used. -/
def revert (payload : List Byte) (prevLen : Nat) (recompressionAttempted : Bool) : WriteM κ Unit := do
  modifyHeader removeLastBlock
  if !recompressionAttempted then
    if !(← onCompressor env.lzss.revert) then throw .compressorRevert
  else
    resetCompressor env
    if !(← onCompressor fun k => env.lzss.write k (payload.take prevLen)) then throw .compressorRevert

/-- The attempts to make the blob fit: whether it does, and whether the payload was compressed anew. -/
def fit (headerLen : Nat) (payload : List Byte) (prevLen : Nat) : WriteM κ (Bool × Bool) := do
  if ← fitsInBlob env headerLen then
    return (true, false)
  resetCompressor env
  if !(← onCompressor fun k => env.lzss.write k payload) then
    revert env payload prevLen true
    throw .recompress
  if ← fitsInBlob env headerLen then
    return (true, true)
  if ← onCompressor env.lzss.considerBypassing then
    if ← fitsInBlob env headerLen then
      return (true, true)
  return (false, true)

/-- Packs the header and the compressed blocks and makes them the current blob. -/
def pack (header payload : List Byte) (prevLen : Nat) (recompressionAttempted : Bool) : WriteM κ Unit := do
  let bm ← get
  match packAlign env.bitio header packingSizeU256 { additionalInput := [env.lzss.bytes bm.compressor] } with
  | .error e =>
    revert env payload prevLen recompressionAttempted
    throw (.pack e)
  | .ok (packBuffer, n) =>
    if n > maxOutputSize then throw .currentBlobOutOfRange
    set { bm with currentBlob := packBuffer.take n }

/-- `Write` behind the checks on the block: `header` holds the block already. -/
def writeEncoded (header : List Byte) (prevLen : Nat) (forceReset : Bool) : WriteM κ Bool := do
  if (env.lzss.writtenBytes (← get).compressor).length + header.length > maxUncompressedBytes then
    if !(← onCompressor env.lzss.revert) then throw .compressorRevert
    modifyHeader removeLastBlock
    return false
  let payload := env.lzss.writtenBytes (← get).compressor
  let (fits, recompressionAttempted) ← fit env header.length payload prevLen
  if !fits then
    revert env payload prevLen recompressionAttempted
    return false
  if forceReset then
    revert env payload prevLen recompressionAttempted
    return true
  pack env header payload prevLen recompressionAttempted
  return true

def write (rlpBlock : List Byte) (forceReset : Bool) : WriteM κ Bool := do
  let prevLen := (env.lzss.writtenBytes (← get).compressor).length
  match env.decodeBlock rlpBlock with
  | none => throw .decodeBlock
  | some block =>
    match encodeBlockForCompression env.rlp block with
    | .error e => throw (.encodeBlock e)
    | .ok encoded =>
      if !(← onCompressor fun k => env.lzss.write k encoded) then
        if !(← onCompressor env.lzss.revert) then throw .compressorRevert
        throw .compressorWrite
      modifyHeader (·.addBlock encoded.length)
      match (← get).header.writeTo with
      | .error e =>
        modifyHeader removeLastBlock
        throw (.writeHeader e)
      | .ok header => writeEncoded env header prevLen forceReset

end BlobMaker

end Lineth.Compressor
