import Lineth.Lib.Memory

/-!
# Recursive length prefixes

Every item of nested lists of byte strings is preceded by its length, in the first byte when it is short, after it
otherwise. Numbers are encoded without leading zeros. An `Encoder` is given by what is used of this format; `encoder`
is one. -/

namespace Rlp

open Evm (Byte beBytes ofBeBytes)

inductive Item
  | bytes (bs : List Byte)
  | nat (n : Nat)
  | list (items : List Item)

/-- How many bytes a number has without leading zeros. -/
def byteLen (n : Nat) : Nat := if n = 0 then 0 else n.log2 / 8 + 1

def natBytes (n : Nat) : List Byte := beBytes (byteLen n) n

/-- The header of an item of `len` bytes: `offset` tells strings from lists. -/
def header (offset len : Nat) : List Byte :=
  if len ≤ 55 then [BitVec.ofNat 8 (offset + len)] else BitVec.ofNat 8 (offset + 55 + byteLen len) :: natBytes len

/-- No encoding is empty, and a list is encoded by the header for its content, the encodings of its items. -/
structure Encoder where
  encode : Item → List Byte
  encode_ne_nil (item : Item) : encode item ≠ []
  encode_list (items : List Item) :
    encode (.list items) = header 0xc0 (items.flatMap encode).length ++ items.flatMap encode

def encodeBytes (bs : List Byte) : List Byte :=
  match bs with
  | [b] => if b < 0x80 then [b] else header 0x80 1 ++ [b]
  | bs => header 0x80 bs.length ++ bs

mutual

def encode : Item → List Byte
  | .bytes bs => encodeBytes bs
  | .nat n => encodeBytes (natBytes n)
  | .list items => header 0xc0 (encodeAll items).length ++ encodeAll items

def encodeAll : List Item → List Byte
  | [] => []
  | item :: items => encode item ++ encodeAll items

end

theorem lt_pow_byteLen (n : Nat) : n < 256 ^ byteLen n := by
  unfold byteLen
  split
  · omega
  · rename_i hn
    calc n < 2 ^ (n.log2 + 1) := Nat.lt_log2_self
      _ ≤ 2 ^ (8 * (n.log2 / 8 + 1)) := Nat.pow_le_pow_right (by omega) (by omega)
      _ = 256 ^ (n.log2 / 8 + 1) := by rw [Nat.pow_mul]

theorem byteLen_le {n k : Nat} (h : n < 256 ^ k) : byteLen n ≤ k := by
  unfold byteLen
  split
  · omega
  · rename_i hn
    have hlog : n.log2 < 8 * k := (Nat.log2_lt hn).mpr (by rwa [Nat.pow_mul])
    omega

theorem byteLen_pos {n : Nat} (h : n ≠ 0) : 0 < byteLen n := by
  unfold byteLen
  rw [if_neg h]
  omega

theorem ofBeBytes_natBytes (n : Nat) : ofBeBytes (natBytes n) = n := by
  rw [natBytes, Evm.ofBeBytes_beBytes, Nat.mod_eq_of_lt (lt_pow_byteLen n)]

theorem header_ne_nil (offset len : Nat) : header offset len ≠ [] := by
  unfold header
  split <;> exact List.cons_ne_nil _ _

theorem encodeBytes_ne_nil (bs : List Byte) : encodeBytes bs ≠ [] := by
  unfold encodeBytes
  split
  · split
    · exact List.cons_ne_nil _ _
    · exact List.append_ne_nil_of_left_ne_nil (header_ne_nil _ _) _
  · exact List.append_ne_nil_of_left_ne_nil (header_ne_nil _ _) _

theorem encodeAll_eq (items : List Item) : encodeAll items = items.flatMap encode := by
  induction items with
  | nil => rfl
  | cons item items ih => rw [encodeAll, ih, List.flatMap_cons]

def encoder : Encoder where
  encode := encode
  encode_ne_nil item := by
    cases item with
    | bytes bs => exact encodeBytes_ne_nil bs
    | nat n => exact encodeBytes_ne_nil (natBytes n)
    | list items =>
      rw [encode]
      exact List.append_ne_nil_of_left_ne_nil (header_ne_nil _ _) _
  encode_list items := by rw [encode, encodeAll_eq]

end Rlp
