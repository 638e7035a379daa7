import Lineth.Lib.Memory

/-!
# Message hashing

The byte strings that `EfficientLeftRightKeccak` and `MessageHashing` lay out in memory and hash. The layouts are
injective; `keccak` is a parameter, and where a result needs it to have no collisions it says among which strings. -/

namespace Lineth.Messaging

open Evm List

def efficientKeccak (keccak : List Byte → Word) (left right : Word) : Word := keccak (words [left, right])

@[ext]
structure Message where
  from_ : Address
  to_ : Address
  fee : Word
  valueSent : Word
  messageNumber : Word
  calldata : List Byte
  deriving DecidableEq

/-- Zero bytes that fill calldata up to a multiple of 0x20. -/
def padding (calldata : List Byte) : List Byte :=
  let rem := calldata.length % 0x20
  replicate (if rem ≠ 0 then 0x20 - rem else 0) 0

/-- The words `_hashMessage` stores before the calldata; 0xc0 is the calldata's offset. -/
def Message.head (m : Message) : List Word :=
  [m.from_.setWidth 256, m.to_.setWidth 256, m.fee, m.valueSent, m.messageNumber, 0xc0,
    BitVec.ofNat 256 m.calldata.length]

/-- The memory range that `_hashMessage` hashes. -/
def Message.encode (m : Message) : List Byte := words m.head ++ (m.calldata ++ padding m.calldata)

def hashMessage (keccak : List Byte → Word) (m : Message) : Word := keccak m.encode

def hashMessageWithEmptyCalldata (keccak : List Byte → Word) (from_ to_ : Address)
    (fee valueSent messageNumber : Word) : Word :=
  keccak (words [from_.setWidth 256, to_.setWidth 256, fee, valueSent, messageNumber, 0xc0, 0x00])

theorem efficientKeccak_input_injective : Function.Injective fun p : Word × Word => words [p.1, p.2] := by
  rintro ⟨a, b⟩ ⟨c, d⟩ h
  simpa using words_injective h

theorem setWidth_address_injective : Function.Injective (BitVec.setWidth 256 : Address → Word) := by
  intro a b h
  have := congrArg (BitVec.setWidth 160) h
  simpa using this

theorem length_append_padding (bs : List Byte) :
    (bs ++ padding bs).length = 0x20 * ((bs.length + 0x1f) / 0x20) := by
  simp only [padding, length_append, length_replicate]
  split <;> omega

/-- Two messages laid out alike are equal: the length word and the padded length fix the calldata's length. -/
theorem Message.encode_injective : Function.Injective Message.encode := by
  intro m m' h
  obtain ⟨hhead, hdata⟩ := words_append_inj (by rfl) h
  simp only [Message.head, cons.injEq, and_true] at hhead
  obtain ⟨hfrom, hto, hfee, hvalue, hnumber, -, hlength⟩ := hhead
  have hpad := congrArg length hdata
  rw [length_append_padding, length_append_padding] at hpad
  have hmod := congrArg BitVec.toNat hlength
  rw [BitVec.toNat_ofNat, BitVec.toNat_ofNat] at hmod
  have hlen : m.calldata.length = m'.calldata.length := by omega
  have hcd := (append_inj hdata hlen).1
  exact Message.ext (setWidth_address_injective hfrom) (setWidth_address_injective hto) hfee hvalue hnumber hcd

end Lineth.Messaging
