import Mathlib.Algebra.BigOperators.Group.Finset.Basic
import Lineth.Lib.Horner
import Lineth.Rollup.DataSubmission

/-!
# The evaluation claim of calldata

`_calculateY` takes the chunks of the data as the coefficients of a polynomial and evaluates it by Horner's rule, from
the last chunk to the first. -/

namespace Lineth.Rollup

open Evm Messaging Except List Nat

/-- The `j`-th chunk of 32 bytes. -/
def calldataChunk (data : List Byte) (j : Nat) : List Byte := (data.drop (32 * j)).take 32

variable {data : List Byte}

theorem read_ofList_chunk {j : Nat} (hj : j < data.length / 32) :
    (Memory.ofList data).read (0 + 32 * j) 32 = calldataChunk data j := by
  rw [Memory.read_ofList, zero_add, takeD_eq_take _ (by rw [length_drop]; omega)]
  rfl

theorem toNat_readWord_ofList {j : Nat} (hj : j < data.length / 32) :
    ((Memory.ofList data).readWord (0 + 32 * j)).toNat = ofBeBytes (calldataChunk data j) := by
  rw [← read_ofList_chunk hj, ← Memory.toBytes_readWord, toBytes, ofBeBytes_beBytes]
  exact (mod_eq_of_lt (BitVec.isLt _)).symm

theorem head?_toBytes_iff (w : Word) : (toBytes w).head? = some 0 ↔ w >>> 248 = 0 := by
  have hhead : (toBytes w).head? = some (BitVec.ofNat 8 (w.toNat / 2 ^ 248)) := by
    rw [toBytes, beBytes_add 1 31]
    rfl
  have hlt := w.isLt
  rw [hhead, Option.some_inj, ← BitVec.toNat_inj, ← BitVec.toNat_inj, BitVec.toNat_ofNat, BitVec.toNat_ushiftRight,
    shiftRight_eq_div_pow]
  show w.toNat / 2 ^ 248 % 2 ^ 8 = 0 ↔ w.toNat / 2 ^ 248 = 0
  omega

theorem head?_calldataChunk_iff {j : Nat} (hj : j < data.length / 32) :
    (calldataChunk data j).head? = some 0 ↔ (Memory.ofList data).readWord (0 + 32 * j) >>> 248 = 0 := by
  rw [← read_ofList_chunk hj, ← Memory.toBytes_readWord, head?_toBytes_iff]

/-- The body of the loop. -/
def hornerStep (x : Word) (chunk : Word) (y : Nat) : Except Error Nat := do
  if chunk >>> 248 ≠ 0 then throw .firstByteIsNotZero
  pure ((y * x.toNat % blsCurveModulus + chunk.toNat) % blsCurveModulus)

theorem foldrM_hornerStep (x : Word) (chunks : List Word) :
    ((∀ c ∈ chunks, c >>> 248 = 0) →
      chunks.foldrM (hornerStep x) 0 = .ok (Horner.eval x.toNat (chunks.map BitVec.toNat) % blsCurveModulus)) ∧
    (¬ (∀ c ∈ chunks, c >>> 248 = 0) → chunks.foldrM (hornerStep x) 0 = .error .firstByteIsNotZero) := by
  induction chunks with
  | nil => exact ⟨fun _ => rfl, fun h => absurd (fun c hc => by cases hc) h⟩
  | cons c cs ih =>
    rw [foldrM_cons, forall_mem_cons]
    by_cases hcs : ∀ c ∈ cs, c >>> 248 = 0
    · rw [ih.1 hcs, ok_bind, and_iff_left hcs, hornerStep]
      refine ⟨fun hc => ?_, fun hc => if_pos hc⟩
      rw [if_neg (not_not_intro hc), map_cons, Horner.eval_cons, mod_mul_mod, mod_add_mod, mul_comm, add_comm]
      rfl
    · rw [ih.2 hcs]
      exact ⟨fun h => absurd h.2 hcs, fun _ => rfl⟩

/-- `y` is the value at the evaluation point of the polynomial whose coefficients are the chunks; there is none
exactly if the data is not made of whole chunks whose first byte is zero. -/
theorem calculateY_eq_eval (data : List Byte) (x : Word) :
    (∀ y, calculateY data x = .ok y → y.toNat =
      (∑ j ∈ Finset.range (data.length / 32), ofBeBytes (calldataChunk data j) * x.toNat ^ j) % blsCurveModulus) ∧
    ((∃ e, calculateY data x = .error e) ↔
      data.length % 32 ≠ 0 ∨ ∃ j < data.length / 32, (calldataChunk data j).head? ≠ some 0) := by
  have hwords : ((Memory.ofList data).readWords 0 (data.length / 32)).map BitVec.toNat =
      (range (data.length / 32)).map fun j => ofBeBytes (calldataChunk data j) := by
    rw [Memory.readWords, map_map]
    exact map_congr_left fun j hj => toNat_readWord_ofList (mem_range.1 hj)
  have hbytes : (∀ c ∈ (Memory.ofList data).readWords 0 (data.length / 32), c >>> 248 = 0) ↔
      ∀ j < data.length / 32, (calldataChunk data j).head? = some 0 := by
    rw [Memory.readWords, forall_mem_map]
    simp only [mem_range]
    exact forall₂_congr fun j hj => (head?_calldataChunk_iff hj).symm
  have hfold : calculateY data x = if data.length % 32 ≠ 0 then .error .bytesLengthNotMultipleOf32 else
      ((Memory.ofList data).readWords 0 (data.length / 32)).foldrM (hornerStep x) 0 >>= fun y =>
        pure (BitVec.ofNat 256 y) := rfl
  obtain ⟨hgood, hbad⟩ := foldrM_hornerStep x ((Memory.ofList data).readWords 0 (data.length / 32))
  rw [hbytes] at hgood hbad
  rw [hfold]
  by_cases hlen : data.length % 32 ≠ 0
  · rw [if_pos hlen]
    exact ⟨fun y h => (by cases h), fun _ => .inl hlen, fun _ => ⟨_, rfl⟩⟩
  rw [if_neg hlen, or_iff_right hlen]
  by_cases hzero : ∀ j < data.length / 32, (calldataChunk data j).head? = some 0
  · rw [hgood hzero, hwords]
    refine ⟨fun y h => ?_, ?_, ?_⟩
    · cases h
      rw [BitVec.toNat_ofNat, mod_eq_of_lt ((mod_lt _ (by decide)).trans (by decide)), Horner.eval_eq_sum,
        length_map, length_range]
      refine congrArg (· % blsCurveModulus) (congrArg sum (map_congr_left fun j hj => ?_))
      rw [getD_eq_getElem?_getD, getElem?_map, getElem?_range (mem_range.1 hj)]
      rfl
    · rintro ⟨e, h⟩
      cases h
    · rintro ⟨j, hj, h⟩
      exact absurd (hzero j hj) h
  · rw [hbad hzero]
    refine ⟨fun y h => (by cases h), fun _ => ?_, fun _ => ⟨_, rfl⟩⟩
    simpa using hzero

end Lineth.Rollup
