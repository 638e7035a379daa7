import Lineth.Lib.Memory
import Lineth.Lib.Except

/-!
# Readers of a byte string

A reader is a position in a byte string. It may be moved past the end, where nothing can be read; a move to a negative
position fails. `between pre rest` is the reader that stands after `pre` and before `rest`. -/

open List
open Evm (Byte)

structure ByteReader where
  data : List Byte
  i : Nat

namespace ByteReader

inductive Error
  | eof
  | unreadAtStart
  deriving DecidableEq, Repr

section

variable (r : ByteReader)

def size : Nat := r.data.length

def len : Nat := r.data.length - r.i

def readByte : Except Error (Byte × ByteReader) :=
  match r.data.drop r.i with
  | [] => throw .eof
  | b :: _ => return (b, { r with i := r.i + 1 })

def unreadByte : Except Error ByteReader :=
  if r.i = 0 then throw .unreadAtStart else return { r with i := r.i - 1 }

/-- Up to `n` bytes; at the end none. -/
def read (n : Nat) : List Byte × ByteReader :=
  let bs := (r.data.drop r.i).take n
  (bs, { r with i := r.i + bs.length })

def readFull (n : Nat) : Except Error (List Byte × ByteReader) :=
  if n ≤ (r.data.drop r.i).length then return ((r.data.drop r.i).take n, { r with i := r.i + n }) else throw .eof

/-- Moves by a signed 64-bit offset; the sum is a 64-bit number, too. -/
def seekCurrent (offset : BitVec 64) : ByteReader :=
  let abs := (BitVec.ofNat 64 r.i + offset).toInt
  if abs < 0 then r else { r with i := abs.toNat }

end

/-- The reader between what was read and the rest. -/
def between (pre rest : List Byte) : ByteReader := ⟨pre ++ rest, pre.length⟩

variable {pre rest bs : List Byte} {b : Byte}

theorem drop_between : (between pre rest).data.drop (between pre rest).i = rest := drop_left

theorem between_advance :
    (⟨(between pre (bs ++ rest)).data, (between pre (bs ++ rest)).i + bs.length⟩ : ByteReader) =
      between (pre ++ bs) rest := by
  show (⟨pre ++ (bs ++ rest), pre.length + bs.length⟩ : ByteReader) = ⟨pre ++ bs ++ rest, (pre ++ bs).length⟩
  rw [append_assoc, length_append]

theorem readByte_between : (between pre (b :: rest)).readByte = .ok (b, between (pre ++ [b]) rest) := by
  unfold readByte
  rw [drop_between]
  exact congrArg (fun r => Except.ok (b, r)) (@between_advance pre rest [b])

theorem unreadByte_between : (between (pre ++ [b]) rest).unreadByte = .ok (between pre (b :: rest)) := by
  have hne : (between (pre ++ [b]) rest).i ≠ 0 := by
    show (pre ++ [b]).length ≠ 0
    rw [length_append]
    exact Nat.succ_ne_zero _
  unfold unreadByte
  rw [if_neg hne]
  show Except.ok (⟨pre ++ [b] ++ rest, (pre ++ [b]).length - 1⟩ : ByteReader) = _
  rw [append_assoc, length_append]
  rfl

theorem read_between : (between pre (bs ++ rest)).read bs.length = (bs, between (pre ++ bs) rest) := by
  unfold read
  rw [drop_between, take_left]
  exact congrArg (Prod.mk bs) between_advance

theorem readFull_between {n : Nat} (hn : bs.length = n) :
    (between pre (bs ++ rest)).readFull n = .ok (bs, between (pre ++ bs) rest) := by
  subst hn
  unfold readFull
  rw [drop_between, if_pos (by rw [length_append]; omega), take_left]
  exact congrArg (fun r => Except.ok (bs, r)) between_advance

theorem seekCurrent_between {n : Nat} (hn : bs.length = n) (hlt : (pre ++ bs).length < 2 ^ 63) :
    (between pre (bs ++ rest)).seekCurrent (BitVec.ofNat 64 n) = between (pre ++ bs) rest := by
  subst hn
  rw [length_append] at hlt
  have habs : (BitVec.ofNat 64 pre.length + BitVec.ofNat 64 bs.length).toInt = (pre.length + bs.length : Nat) := by
    have htoNat : (BitVec.ofNat 64 (pre.length + bs.length)).toNat = pre.length + bs.length := by
      rw [BitVec.toNat_ofNat, Nat.mod_eq_of_lt (by omega)]
    rw [← BitVec.ofNat_add, BitVec.toInt_eq_toNat_of_lt (by omega), htoNat]
  unfold seekCurrent
  show (if (BitVec.ofNat 64 pre.length + BitVec.ofNat 64 bs.length).toInt < 0 then _ else _) = _
  simp only [between, habs, append_assoc, length_append]
  rw [if_neg (by omega)]
  rfl

theorem size_sub_len_between : (between pre rest).size - (between pre rest).len = pre.length := by
  show (pre ++ rest).length - ((pre ++ rest).length - pre.length) = pre.length
  rw [length_append]
  omega

end ByteReader
