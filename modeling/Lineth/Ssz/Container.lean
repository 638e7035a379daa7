import Lineth.Lib.Except
import Lineth.Lib.Memory

/-!
# Serialized containers

A container is written as its parts in order, with an offset of four bytes in the place of each variable part, and
then the variable parts; a list of variable parts in the same way. Both functions refuse what an offset cannot reach.
Where the sizes of the fixed parts are known, the parts are read back from the bytes. -/

namespace Lineth.Ssz

open Evm (Byte beBytes ofBeBytes)
open Except List

def maxSSZSerializedBytes : Nat := 2 ^ 32 - 1

def limitError (ctx : String) : String := ctx ++ ": serialized size exceeds uint32 offset limit"

def addSSZLength (ctx : String) (total n : Nat) : Except String Nat :=
  if n > maxSSZSerializedBytes ∨ total > maxSSZSerializedBytes - n then throw (limitError ctx) else return total + n

structure SszField where
  data : List Byte
  isVariable : Bool

def fixedField (data : List Byte) : SszField := ⟨data, false⟩

def variableField (data : List Byte) : SszField := ⟨data, true⟩

def putUint32 (x : Nat) : List Byte := (beBytes 4 x).reverse

/-- What a part takes in the first section. -/
def SszField.headLen (f : SszField) : Nat := if f.isVariable then 4 else f.data.length

def writeField (ctx : String) : List Byte × List Byte × Nat → SszField → Except String (List Byte × List Byte × Nat)
  | (head, heap, offset), f =>
    if f.isVariable then do
      let nextOffset ← addSSZLength ctx offset f.data.length
      return (head ++ putUint32 offset, heap ++ f.data, nextOffset)
    else return (head ++ f.data, heap, offset)

/-- The two passes, which differ between containers and lists in the texts of their errors only. -/
def sszSections (ctx : String) (fields : List SszField) : Except String (List Byte) := do
  let fixedLen ← fields.foldlM (fun n f => addSSZLength (ctx ++ " fixed section") n f.headLen) 0
  let (head, heap, _) ← fields.foldlM (writeField ctx) ([], [], fixedLen)
  return head ++ heap

def sszContainer (fields : List SszField) : Except String (List Byte) := sszSections "container" fields

def sszListVariable (elems : List (List Byte)) : Except String (List Byte) :=
  sszSections "variable list" (elems.map variableField)

/-! ### What is written -/

def headLen : List SszField → Nat
  | [] => 0
  | f :: fs => f.headLen + headLen fs

/-- The first section, with the first variable part at the given offset. -/
def head : Nat → List SszField → List Byte
  | _, [] => []
  | offset, f :: fs =>
    if f.isVariable then putUint32 offset ++ head (offset + f.data.length) fs else f.data ++ head offset fs

def heap : List SszField → List Byte
  | [] => []
  | f :: fs => if f.isVariable then f.data ++ heap fs else heap fs

/-- Where the variable parts start, and where the last one ends. -/
def bounds : Nat → List SszField → List Nat
  | offset, [] => [offset]
  | offset, f :: fs => if f.isVariable then offset :: bounds (offset + f.data.length) fs else bounds offset fs

def size (fields : List SszField) : Nat := headLen fields + (heap fields).length

variable {ctx : String} {fields : List SszField} {bytes : List Byte}

theorem addSSZLength_eq (total n : Nat) : addSSZLength ctx total n =
    if maxSSZSerializedBytes < total + n then .error (limitError ctx) else .ok (total + n) := by
  unfold addSSZLength
  exact if_congr (by omega) rfl rfl

theorem foldlM_headLen {n : Nat} (hn : n ≤ maxSSZSerializedBytes) :
    fields.foldlM (fun n f => addSSZLength ctx n f.headLen) n =
      if maxSSZSerializedBytes < n + headLen fields then .error (limitError ctx) else .ok (n + headLen fields) := by
  induction fields generalizing n with
  | nil => exact (if_neg (Nat.not_lt.mpr hn)).symm
  | cons f fs ih =>
    rw [foldlM_cons, addSSZLength_eq, headLen, ← Nat.add_assoc]
    split
    · rw [if_pos (by omega)]
      rfl
    · exact ih (by omega)

theorem foldlM_writeField {h t : List Byte} {offset : Nat} (ho : offset ≤ maxSSZSerializedBytes) :
    fields.foldlM (writeField ctx) (h, t, offset) =
      if maxSSZSerializedBytes < offset + (heap fields).length then .error (limitError ctx)
      else .ok (h ++ head offset fields, t ++ heap fields, offset + (heap fields).length) := by
  induction fields generalizing h t offset with
  | nil => simp [head, heap, Nat.not_lt.mpr ho]
  | cons f fs ih =>
    rw [foldlM_cons, writeField, head, heap]
    split
    · rw [addSSZLength_eq, length_append, ← Nat.add_assoc]
      split
      · rw [if_pos (by omega)]
        rfl
      · rw [← append_assoc, ← append_assoc]
        exact ih (by omega)
    · rw [← append_assoc]
      exact ih ho

theorem sszSections_eq (ctx : String) (fields : List SszField) : ∃ e, sszSections ctx fields =
    if maxSSZSerializedBytes < size fields then .error e else .ok (head (headLen fields) fields ++ heap fields) := by
  unfold sszSections size
  rw [foldlM_headLen (Nat.zero_le _), Nat.zero_add]
  by_cases hhead : maxSSZSerializedBytes < headLen fields
  · refine ⟨limitError (ctx ++ " fixed section"), ?_⟩
    rw [if_pos hhead, if_pos (by omega)]
    rfl
  · refine ⟨limitError ctx, ?_⟩
    rw [if_neg hhead, ok_bind, foldlM_writeField (Nat.not_lt.mp hhead)]
    split <;> rfl

theorem sszSections_error_iff : (∃ e, sszSections ctx fields = .error e) ↔ 2 ^ 32 ≤ size fields := by
  obtain ⟨e, he⟩ := sszSections_eq ctx fields
  rw [he, show 2 ^ 32 ≤ size fields ↔ maxSSZSerializedBytes < size fields from Iff.rfl]
  split <;> simp [*]

theorem of_sszSections (h : sszSections ctx fields = .ok bytes) :
    size fields ≤ maxSSZSerializedBytes ∧ head (headLen fields) fields ++ heap fields = bytes := by
  obtain ⟨e, he⟩ := sszSections_eq ctx fields
  rw [he] at h
  split at h
  · cases h
  · rename_i hsize
    exact ⟨Nat.not_lt.mp hsize, Except.ok.inj h⟩

/-! ### Reading it back -/

def readUint32 (bs : List Byte) : Nat := ofBeBytes (bs.take 4).reverse

/-- The offsets in a first section whose fixed parts have the given sizes. -/
def offsetsIn : List (Option Nat) → List Byte → List Nat
  | [], _ => []
  | some n :: shape, bs => offsetsIn shape (bs.drop n)
  | none :: shape, bs => readUint32 bs :: offsetsIn shape (bs.drop 4)

/-- The parts, with each variable one between an offset and the next. -/
def partsIn (bytes : List Byte) : List (Option Nat) → List Byte → List Nat → List SszField
  | some n :: shape, bs, offsets => fixedField (bs.take n) :: partsIn bytes shape (bs.drop n) offsets
  | none :: shape, bs, start :: stop :: offsets =>
    variableField ((bytes.take stop).drop start) :: partsIn bytes shape (bs.drop 4) (stop :: offsets)
  | _, _, _ => []

def decode (shape : List (Option Nat)) (bytes : List Byte) : List SszField :=
  partsIn bytes shape bytes (offsetsIn shape bytes ++ [bytes.length])

def SszField.shape (f : SszField) : Option Nat := if f.isVariable then none else some f.data.length

theorem length_head (offset : Nat) (fields : List SszField) : (head offset fields).length = headLen fields := by
  induction fields generalizing offset with
  | nil => rfl
  | cons f fs ih =>
    rw [head, headLen, SszField.headLen]
    split <;> simp [ih, putUint32]

theorem readUint32_putUint32 {x : Nat} (h : x ≤ maxSSZSerializedBytes) (bs : List Byte) :
    readUint32 (putUint32 x ++ bs) = x := by
  unfold readUint32 putUint32 maxSSZSerializedBytes at *
  rw [take_left' (by simp), reverse_reverse, Evm.ofBeBytes_beBytes, Nat.mod_eq_of_lt (by omega)]

theorem drop_putUint32 (x : Nat) (bs : List Byte) : (putUint32 x ++ bs).drop 4 = bs :=
  drop_left' (by simp [putUint32])

theorem bounds_eq_cons (offset : Nat) (fields : List SszField) : ∃ tail, bounds offset fields = offset :: tail := by
  induction fields with
  | nil => exact ⟨[], rfl⟩
  | cons f fs ih =>
    rw [bounds]
    split
    · exact ⟨_, rfl⟩
    · exact ih

theorem bounds_sorted (offset : Nat) (fields : List SszField) :
    (bounds offset fields).Pairwise (· ≤ ·) ∧ ∀ b ∈ bounds offset fields, offset ≤ b := by
  induction fields generalizing offset with
  | nil => simp [bounds]
  | cons f fs ih =>
    rw [bounds]
    split
    · obtain ⟨hsorted, hle⟩ := ih (offset + f.data.length)
      have hle' : ∀ b ∈ bounds (offset + f.data.length) fs, offset ≤ b :=
        fun b hb => (Nat.le_add_right _ _).trans (hle b hb)
      exact ⟨hsorted.cons hle', forall_mem_cons.mpr ⟨Nat.le_refl _, hle'⟩⟩
    · exact ih offset

theorem offsetsIn_head {offset : Nat} (h : offset + (heap fields).length ≤ maxSSZSerializedBytes) (rest : List Byte) :
    offsetsIn (fields.map SszField.shape) (head offset fields ++ rest) ++ [offset + (heap fields).length] =
      bounds offset fields := by
  induction fields generalizing offset with
  | nil => rfl
  | cons f fs ih =>
    rw [map_cons, head, bounds, SszField.shape]
    rw [heap] at h ⊢
    cases hv : f.isVariable with
    | true =>
      simp only [hv, if_true, length_append] at h ⊢
      rw [offsetsIn, append_assoc, readUint32_putUint32 (by omega), drop_putUint32, cons_append, ← Nat.add_assoc,
        ih (by omega)]
    | false =>
      simp only [hv, Bool.false_eq_true, if_false] at h ⊢
      rw [offsetsIn, append_assoc, drop_left, ih h]

/-- Of the bytes before the parts that are left, only the number matters. -/
theorem partsIn_head (fields : List SszField) (before rest : List Byte) :
    partsIn (before ++ heap fields) (fields.map SszField.shape) (head before.length fields ++ rest)
      (bounds before.length fields) = fields := by
  induction fields generalizing before with
  | nil => rfl
  | cons f fs ih =>
    rw [map_cons, head, bounds, heap, SszField.shape]
    split
    · rename_i hv
      obtain ⟨tail, hbounds⟩ := bounds_eq_cons (before.length + f.data.length) fs
      have ih' := ih (before ++ f.data)
      rw [length_append, hbounds] at ih'
      rw [hbounds, partsIn, append_assoc, drop_putUint32, ← append_assoc, ih', take_left' length_append,
        drop_left, variableField, ← hv]
    · rename_i hv
      rw [partsIn, append_assoc, take_left, drop_left, ih, fixedField, ← Bool.eq_false_iff.mpr hv]

/-- The offsets start after the first section, never decrease and end with the bytes, and the parts between them are
those written. Offsets are equal where a part is empty. -/
structure Decodes (fields : List SszField) (bytes : List Byte) : Prop where
  length : bytes.length = size fields
  first : (offsetsIn (fields.map SszField.shape) bytes ++ [bytes.length]).head? = some (headLen fields)
  sorted : (offsetsIn (fields.map SszField.shape) bytes ++ [bytes.length]).Pairwise (· ≤ ·)
  decode : decode (fields.map SszField.shape) bytes = fields

theorem decodes_of_ok (h : sszSections ctx fields = .ok bytes) : Decodes fields bytes := by
  obtain ⟨hsize, hbytes⟩ := of_sszSections h
  have hlen := length_head (headLen fields) fields
  have hlength : bytes.length = size fields := by rw [← hbytes, length_append, hlen, size]
  have hoffsets := offsetsIn_head hsize (heap fields)
  have hparts := partsIn_head fields (head (headLen fields) fields) (heap fields)
  rw [hbytes, ← size, ← hlength] at hoffsets
  rw [hlen, hbytes, ← hoffsets] at hparts
  obtain ⟨tail, hbounds⟩ := bounds_eq_cons (headLen fields) fields
  exact ⟨hlength, by rw [hoffsets, hbounds, head?_cons], hoffsets ▸ (bounds_sorted _ _).1, hparts⟩

/-- An empty list has no bytes; of others the first offset gives the number of elements. -/
def decodeList (bytes : List Byte) : List (List Byte) :=
  (decode (replicate (if bytes = [] then 0 else readUint32 bytes / 4) none) bytes).map SszField.data

theorem headLen_variable (es : List (List Byte)) : headLen (es.map variableField) = 4 * es.length := by
  induction es with
  | nil => rfl
  | cons e es ih => simp [headLen, ih, SszField.headLen, variableField]; omega

theorem length_of_list {es : List (List Byte)} (h : sszListVariable es = .ok bytes) :
    (if bytes = [] then 0 else readUint32 bytes / 4) = es.length := by
  obtain ⟨hsize, hbytes⟩ := of_sszSections h
  rw [size, headLen_variable] at hsize
  rw [headLen_variable] at hbytes
  subst hbytes
  cases es with
  | nil => rfl
  | cons e es =>
    simp only [map_cons, head, variableField, if_true, append_assoc]
    rw [if_neg (by simp [putUint32, beBytes]), readUint32_putUint32 (by omega), Nat.mul_div_cancel_left _ (by decide)]

theorem decodeList_eq {es : List (List Byte)} (h : sszListVariable es = .ok bytes) : decodeList bytes = es := by
  have hshape : (es.map variableField).map SszField.shape = replicate es.length none := by
    rw [map_map]
    exact map_const'
  rw [decodeList, length_of_list h, ← hshape, (decodes_of_ok h).decode, map_map]
  exact map_id _

end Lineth.Ssz
