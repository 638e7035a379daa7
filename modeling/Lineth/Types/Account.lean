import Lineth.Koalabear.Field
import Lineth.Lib.Reads
import Lineth.Lib.Memory
import Lineth.StateManager.Traces

/-!
# The serialisations of an account (`utils/types`)

An account is written in three ways: for the hash, with two zero bytes before every two bytes of a number; as JSON,
with the keccak code hash packed; and as JSON in the format of the Shomei traces. A buffer is the list of the bytes
that are left in it. What `strconv` does with a string and the library of the field with an element are parameters,
with the laws that their documentation gives. -/

namespace Lineth.Types

open List
open Evm (Byte Word beBytes ofBeBytes toBytes ofBytes)

abbrev Octuplet := Fin 8 → Koalabear.Element

structure Account where
  nonce : BitVec 64
  balance : Option Int
  storageRoot : Octuplet
  lineaCodeHash : Octuplet
  keccakCodeHash : Word
  codeSize : BitVec 64
deriving DecidableEq

inductive Panic where
  | notEven | not16 | notMultipleOf4 | not64 | bufferTooSmall
deriving DecidableEq, Repr

inductive ReadError where
  | eof
  | could_not_read_64 (read : Nat)
  | could_not_read_32 (had : Nat)
  | octupletSize (size : Nat)
  | notCanonical (segment : List Byte)
  | panic (p : Panic)
deriving DecidableEq, Repr

inductive Field where
  | nonce | balance | storageRoot | codeHash | keccakCodehash | codesize
deriving DecidableEq, Repr

/-- `reading account : reading <field> : <cause>`. -/
structure AccountError where
  field : Field
  cause : ReadError
deriving DecidableEq, Repr

inductive JsonError where
  | notQuoted | notHex
  | account (e : AccountError)
deriving DecidableEq, Repr

/-! ### Padding -/

/-- Two zero bytes before every two bytes. -/
def padPairs : List Byte → List Byte
  | a :: b :: rest => 0 :: 0 :: a :: b :: padPairs rest
  | _ => []

def unpadPairs : List Byte → List Byte
  | _ :: _ :: a :: b :: rest => a :: b :: unpadPairs rest
  | _ => []

def leftPadded (b : List Byte) : Except Panic (List Byte) :=
  if b.length % 2 ≠ 0 then throw .notEven else return padPairs b

def leftPadded48Zeros (b : List Byte) : Except Panic (List Byte) :=
  if b.length ≠ 16 then throw .not16 else return replicate 48 0 ++ b

def removePadding (b : List Byte) : Except Panic (List Byte) :=
  if b.length % 4 ≠ 0 then throw .notMultipleOf4 else return unpadPairs b

def remove48Padding (b : List Byte) : Except Panic (List Byte) :=
  if b.length ≠ 64 then throw .not64 else return b.drop 48

/-! ### Numbers -/

def writeInt64On64Bytes (x : BitVec 64) : Except Panic (List Byte) := do
  let padded ← leftPadded (beBytes 8 x.toNat)
  leftPadded48Zeros padded

def writeInt64On32Bytes (x : BitVec 64) : List Byte := replicate 24 0 ++ beBytes 8 x.toNat

/-- `FillBytes` into 32 bytes: the absolute value. -/
def fillBytes (b : Int) : Except Panic (List Byte) :=
  if b.natAbs < 256 ^ 32 then return beBytes 32 b.natAbs else throw .bufferTooSmall

def writeBigIntOn64Bytes (b : Int) : Except Panic (List Byte) := do
  let balanceBig ← fillBytes b
  leftPadded balanceBig

def writeBigIntOn32Bytes (b : Int) : Except Panic (List Byte) := fillBytes b

abbrev Reader (α : Type) := StateT (List Byte) (Except ReadError) α

/-- `Read` on a buffer of `n` bytes: fewer, if fewer are left. -/
def read (n : Nat) : Reader (List Byte) := fun r => if r = [] then throw .eof else return (r.take n, r.drop n)

def filled (n : Nat) (bs : List Byte) : List Byte := bs ++ replicate (n - bs.length) 0

def orPanic {α : Type} : Except Panic α → Reader α
  | .ok a => return a
  | .error p => throw (.panic p)

def readInt64On64Bytes : Reader (BitVec 64) := do
  let buf ← read 64
  if buf.length ≠ 64 then throw (.could_not_read_64 buf.length)
  let unpadded ← orPanic (remove48Padding buf)
  let data ← orPanic (removePadding unpadded)
  -- the sign bit is cleared
  return BitVec.ofNat 64 (ofBeBytes data) &&& 0x7fffffffffffffff#64

def readInt64On32Bytes : Reader (BitVec 64) := do
  let buf ← read 32
  let bi := ofBeBytes (filled 32 buf)
  if 2 ^ 63 ≤ bi then throw (.could_not_read_32 bi)
  return BitVec.ofNat 64 bi

def readBigIntOn32Bytes : Reader Int := do
  let buf ← read 32
  return ofBeBytes (filled 32 buf)

def readBigIntOn64Bytes : Reader Int := do
  let buf ← read 64
  let res ← orPanic (removePadding (filled 64 buf))
  return ofBeBytes res

/-! ### Octuplets and code hashes -/

/-- The bytes of an element: four, from which `SetBytesCanonical` gets it back. -/
class ElementBytes where
  bytes : Koalabear.Element → List Byte
  setBytesCanonical : List Byte → Option Koalabear.Element
  length_bytes : ∀ x, (bytes x).length = 4
  setBytesCanonical_bytes : ∀ x, setBytesCanonical (bytes x) = some x

namespace Octuplet

variable [ElementBytes]

def toBytes (e : Octuplet) : List Byte := (ofFn e).flatMap ElementBytes.bytes

def setSegment (segment : List Byte) : Except ReadError Koalabear.Element :=
  Except.orThrow (ElementBytes.setBytesCanonical segment) (.notCanonical segment)

def setBytes (b : List Byte) : Except ReadError Octuplet := do
  if b.length ≠ 32 then throw (.octupletSize b.length)
  let xs ← (finRange 8).mapM fun (i : Fin 8) => setSegment ((b.drop (4 * i.val)).take 4)
  return fun i => xs.getD i.val 0

def readFrom : Reader Octuplet := do
  let buf ← read 32
  let e ← (setBytes (filled 32 buf) : Except ReadError Octuplet)
  return e

end Octuplet

namespace FullBytes32

def writeTo (f : Word) : Except Panic (List Byte) := leftPadded (toBytes f)

def write1Word (f : Word) : List Byte := toBytes f

/-- `Read` with its error ignored. -/
def readAny (n : Nat) : Reader (List Byte) := fun r => return (r.take n, r.drop n)

def readFrom : Reader Word := do
  let buf ← readAny 64
  let data ← orPanic (removePadding (filled 64 buf))
  return ofBytes data

def readPacked (f : Word) : Reader Word := do
  let buf ← readAny 32
  return ofBytes (buf ++ (toBytes f).drop buf.length)

end FullBytes32

/-! ### Accounts -/

abbrev AccountReader (α : Type) := StateT (List Byte) (Except AccountError) α

def reading {α : Type} (field : Field) (x : Reader α) : AccountReader α :=
  fun r => (x r).mapError (AccountError.mk field)

namespace Account

variable [ElementBytes]

/-- `writeTo`; `packed` is for the keccak code hash. -/
def writeTo (a : Account) (packed : Bool) : Except Panic (List Byte) := do
  let nonce ← writeInt64On64Bytes a.nonce
  let balance ← writeBigIntOn64Bytes (a.balance.getD 0)
  let keccakCodeHash ← (if packed then pure (FullBytes32.write1Word a.keccakCodeHash)
    else FullBytes32.writeTo a.keccakCodeHash)
  let codeSize ← writeInt64On64Bytes a.codeSize
  return nonce ++ (balance ++ (a.storageRoot.toBytes ++ (a.lineaCodeHash.toBytes ++ (keccakCodeHash ++ codeSize))))

def readFrom (a : Account) (packed : Bool) : AccountReader Account := do
  let nonce ← reading .nonce readInt64On64Bytes
  let balance ← reading .balance readBigIntOn64Bytes
  let storageRoot ← reading .storageRoot Octuplet.readFrom
  let lineaCodeHash ← reading .codeHash Octuplet.readFrom
  let keccakCodeHash ← reading .keccakCodehash (if packed then FullBytes32.readPacked a.keccakCodeHash
    else FullBytes32.readFrom)
  let codeSize ← reading .codesize readInt64On64Bytes
  return ⟨nonce, some balance, storageRoot, lineaCodeHash, keccakCodeHash, codeSize⟩

/-- `writeToShomeiTraces`: the code size takes 64 bytes. -/
def writeToShomeiTraces (a : Account) : Except Panic (List Byte) := do
  let balance ← writeBigIntOn32Bytes (a.balance.getD 0)
  let codeSize ← writeInt64On64Bytes a.codeSize
  return writeInt64On32Bytes a.nonce ++ (balance ++ (a.storageRoot.toBytes ++ (a.lineaCodeHash.toBytes ++
    (FullBytes32.write1Word a.keccakCodeHash ++ codeSize))))

/-- `readFromShomeiTraces`: the code size is read on 32 bytes. -/
def readFromShomeiTraces (a : Account) : AccountReader Account := do
  let nonce ← reading .nonce readInt64On32Bytes
  let balance ← reading .balance readBigIntOn32Bytes
  let storageRoot ← reading .storageRoot Octuplet.readFrom
  let lineaCodeHash ← reading .codeHash Octuplet.readFrom
  let keccakCodeHash ← reading .keccakCodehash (FullBytes32.readPacked a.keccakCodeHash)
  let codeSize ← reading .codesize readInt64On32Bytes
  return ⟨nonce, some balance, storageRoot, lineaCodeHash, keccakCodeHash, codeSize⟩

end Account

/-! ### JSON -/

/-- `strconv`: what was quoted is unquoted. -/
structure Strconv where
  quote : List Char → List Char
  unquote : List Char → Option (List Char)
  unquote_quote : ∀ s, unquote (quote s) = some s

def hexDigit (n : Nat) : Char := if n < 10 then Char.ofNat ('0'.toNat + n) else Char.ofNat ('a'.toNat + (n - 10))

def encodeHex (b : List Byte) : List Char := b.flatMap fun x => [hexDigit (x.toNat / 16), hexDigit (x.toNat % 16)]

def hexDecodeString (s : List Char) : Option (List Byte) :=
  (StateManager.decodeHex (StateManager.trimHexMark s)).map (map (BitVec.ofNat 8))

variable (sc : Strconv)

def decodeQuotedHexString (b : List Char) : Except JsonError (List Byte) := do
  let unquoted ← Except.orThrow (sc.unquote b) .notQuoted
  Except.orThrow (hexDecodeString unquoted) .notHex

def marshalHexBytesJSON (b : List Byte) : List Char := sc.quote ('0' :: 'x' :: encodeHex b)

namespace Account

/-- Reads the account from the decoded string, and leaves the rest of it. -/
def unmarshal (x : AccountReader Account) (data : List Char) : Except JsonError Account := do
  let decoded ← decodeQuotedHexString sc data
  let r ← (x decoded).mapError .account
  return r.1

variable [ElementBytes]

def marshalJSON (a : Account) : Except Panic (List Char) := do
  let buf ← a.writeTo true
  return marshalHexBytesJSON sc buf

def unmarshalJSON (a : Account) (data : List Char) : Except JsonError Account := unmarshal sc (a.readFrom true) data

def marshalJSONShomei (a : Account) : Except Panic (List Char) := do
  let buf ← a.writeToShomeiTraces
  return marshalHexBytesJSON sc buf

def unmarshalJSONShomei (a : Account) (data : List Char) : Except JsonError Account :=
  unmarshal sc a.readFromShomeiTraces data

end Account

end Lineth.Types
