import Mathlib.Data.List.Induction
import Mathlib.Tactic.IntervalCases
import Lineth.Lib.LittleEndian

/-!
# The memory of the guest program

The interpreter keeps its memory in words of 32 bits and reads and writes 1, 2, 4 or 8 bytes at any address. It
implements a memory of bytes: a read gives the little-endian number of the bytes that were last written. Sums are
checked in the type of their operands, so an access past the end of the address space has no trace. -/

namespace Lineth.Riscv

open LittleEndian List Nat

abbrev Address := BitVec 32

abbrev Ram := Address → BitVec 32

def checkedAdd {w : Nat} (a b : BitVec w) : Option (BitVec w) :=
  if a.toNat + b.toNat < 2 ^ w then some (a + b) else none

/-- `woffset::boffset = address`. -/
def woffset (address : Address) : BitVec 30 := address.extractLsb' 2 30

def boffset (address : Address) : BitVec 2 := address.extractLsb' 0 2

namespace Ram

variable (ram : Ram)

def word (woffset : BitVec 30) : BitVec 32 := ram (woffset.setWidth 32)

def setWord (woffset : BitVec 30) (value : BitVec 32) : Ram := Function.update ram (woffset.setWidth 32) value

/-! ### Reads -/

section

variable (address : Address)

def read8 : BitVec 8 :=
  let word := ram.word (woffset address)
  match (boffset address).toNat with
  | 0 => word.setWidth 8
  | 1 => (word >>> 8).setWidth 8
  | 2 => (word >>> 16).setWidth 8
  | _ => (word >>> 24).setWidth 8

def read16 : Option (BitVec 16) := do
  let lo := ram.word (woffset address)
  match (boffset address).toNat with
  | 0 => return lo.setWidth 16
  | 1 => return (lo >>> 8).setWidth 16
  | 2 => return (lo >>> 16).setWidth 16
  | _ =>
    let hi := ram.word (← checkedAdd (woffset address) 1)
    return ((hi ++ lo) >>> 24).setWidth 16

def read32 : Option (BitVec 32) := do
  if boffset address = 0 then
    return ram.word (woffset address)
  let dw := ram.word (← checkedAdd (woffset address) 1) ++ ram.word (woffset address)
  let shift := (boffset address).setWidth 5 <<< 3
  return (dw >>> shift).setWidth 32

def read64 : Option (BitVec 64) := do
  if boffset address = 0 then
    return ram.word (← checkedAdd (woffset address) 1) ++ ram.word (woffset address)
  let lo ← ram.read32 address
  let hi ← ram.read32 (← checkedAdd address 4)
  return hi ++ lo

/-! ### Writes -/

def write8 (value : BitVec 8) : Ram :=
  let old := ram.word (woffset address)
  let tmp0 := old.extractLsb' 0 8
  let tmp1 := old.extractLsb' 8 8
  let tmp2 := old.extractLsb' 16 8
  let tmp3 := old.extractLsb' 24 8
  ram.setWord (woffset address) (match (boffset address).toNat with
    | 0 => tmp3 ++ tmp2 ++ tmp1 ++ value
    | 1 => tmp3 ++ tmp2 ++ value ++ tmp0
    | 2 => tmp3 ++ value ++ tmp1 ++ tmp0
    | _ => value ++ tmp2 ++ tmp1 ++ tmp0)

def write16 (value : BitVec 16) : Option Ram := do
  let old := ram.word (woffset address)
  match (boffset address).toNat with
  | 0 => return ram.setWord (woffset address) (old.extractLsb' 16 16 ++ value)
  | 2 => return ram.setWord (woffset address) (value ++ old.extractLsb' 0 16)
  | _ =>
    let ram := ram.write8 address (value.extractLsb' 0 8)
    return ram.write8 (← checkedAdd address 1) (value.extractLsb' 8 8)

def write32 (value : BitVec 32) : Option Ram := do
  if boffset address = 0 then
    return ram.setWord (woffset address) value
  let ram ← ram.write16 address (value.extractLsb' 0 16)
  ram.write16 (← checkedAdd address 2) (value.extractLsb' 16 16)

def write64 (value : BitVec 64) : Option Ram := do
  let lo := value.extractLsb' 0 32
  let hi := value.extractLsb' 32 32
  if boffset address = 0 then
    let ram := ram.setWord (woffset address) lo
    return ram.setWord (← checkedAdd (woffset address) 1) hi
  let ram ← ram.write32 address lo
  ram.write32 (← checkedAdd address 4) hi

end

end Ram

/-! ### The bytes of the memory -/

/-- The bytes below the end of the address space. -/
def Ram.bytes (ram : Ram) (b : Nat) : Nat := (ram.word (BitVec.ofNat 30 (b / 4))).toNat / 256 ^ (b % 4) % 256

theorem checkedAdd_eq {w : Nat} (a b : BitVec w) :
    checkedAdd a b = if a.toNat + b.toNat < 2 ^ w then some (BitVec.ofNat w (a.toNat + b.toNat)) else none := by
  rw [checkedAdd]
  refine if_congr Iff.rfl (congrArg some ?_) rfl
  rw [BitVec.ofNat_add, BitVec.ofNat_toNat, BitVec.ofNat_toNat, BitVec.setWidth_eq, BitVec.setWidth_eq]

theorem exists_offsets (address : Address) : ∃ w k, w < 2 ^ 30 ∧ k < 4 ∧ address.toNat = 4 * w + k ∧
    woffset address = BitVec.ofNat 30 w ∧ (boffset address).toNat = k ∧ (boffset address = 0 ↔ k = 0) := by
  have hlt := address.isLt
  have hbo : (boffset address).toNat = address.toNat % 4 := by
    rw [boffset, BitVec.extractLsb'_toNat, shiftRight_zero]
  refine ⟨address.toNat / 4, address.toNat % 4, by omega, by omega, by omega, ?_, hbo, ?_⟩
  · apply BitVec.eq_of_toNat_eq
    rw [woffset, BitVec.extractLsb'_toNat, BitVec.toNat_ofNat, shiftRight_eq_div_pow]
  · rw [← hbo, ← BitVec.toNat_inj]
    rfl

theorem toNat_append {m n : Nat} (hi : BitVec m) (lo : BitVec n) : (hi ++ lo).toNat = hi.toNat * 2 ^ n + lo.toNat := by
  rw [BitVec.toNat_append, ← shiftLeft_add_eq_or_of_lt lo.isLt, shiftLeft_eq]

variable {ram : Ram}

theorem bytes_of_word {w j : Nat} (hj : j < 4) :
    ram.bytes (4 * w + j) = (ram.word (BitVec.ofNat 30 w)).toNat / 256 ^ j % 256 := by
  rw [Ram.bytes, show (4 * w + j) / 4 = w by omega, show (4 * w + j) % 4 = j by omega]

theorem bytes_setWord {w b : Nat} (hw : w < 2 ^ 30) (hb : b < 2 ^ 32) (v : BitVec 32) :
    (ram.setWord (BitVec.ofNat 30 w) v).bytes b = if b / 4 = w then v.toNat / 256 ^ (b % 4) % 256 else ram.bytes b := by
  have hne : b / 4 ≠ w → (BitVec.ofNat 30 (b / 4)).setWidth 32 ≠ (BitVec.ofNat 30 w).setWidth 32 := by
    intro h heq
    have := congrArg BitVec.toNat heq
    simp only [BitVec.toNat_setWidth, BitVec.toNat_ofNat] at this
    omega
  rw [Ram.bytes, Ram.bytes, Ram.word, Ram.word, Ram.setWord]
  by_cases h : b / 4 = w
  · rw [if_pos h, h, Function.update_self]
  · rw [if_neg h, Function.update_of_ne (hne h)]

/-! ### What is read -/

/-- The number in two words that follow each other. -/
def Ram.doubleWord (ram : Ram) (w : Nat) : Nat :=
  (ram.word (BitVec.ofNat 30 w)).toNat + 2 ^ 32 * (ram.word (BitVec.ofNat 30 (w + 1))).toNat

theorem bytes_of_doubleWord {w j : Nat} (hj : j < 8) : ram.bytes (4 * w + j) = ram.doubleWord w / 256 ^ j % 256 := by
  have hlo := (ram.word (BitVec.ofNat 30 w)).isLt
  rw [Ram.doubleWord]
  by_cases h : j < 4
  · rw [bytes_of_word h]
    interval_cases j <;> omega
  · rw [show 4 * w + j = 4 * (w + 1) + (j - 4) by omega, bytes_of_word (by omega)]
    interval_cases j <;> omega

theorem load_bytes {w k n : Nat} (h : k + n ≤ 8) :
    load ram.bytes (4 * w + k) n = ram.doubleWord w / 256 ^ k % 256 ^ n := by
  refine load_of_bytes fun i hi => ?_
  rw [Nat.add_assoc, bytes_of_doubleWord (by omega), Nat.pow_add, Nat.div_div_eq_div_mul]

theorem checkedAdd_woffset {w : Nat} (hw : w < 2 ^ 30) :
    checkedAdd (BitVec.ofNat 30 w) 1 = if w + 1 < 2 ^ 30 then some (BitVec.ofNat 30 (w + 1)) else none := by
  rw [checkedAdd_eq, BitVec.toNat_ofNat, mod_eq_of_lt hw]
  rfl

/-- A read of two words, the second of which is there unless the read passes the end of the address space. -/
theorem map_next {W w a n v : Nat} {f : BitVec 30 → BitVec W} (hw : w < 2 ^ 30)
    (hfits : a + n ≤ 2 ^ 32 ↔ w + 1 < 2 ^ 30) (hv : (f (BitVec.ofNat 30 (w + 1))).toNat = v) :
    ((checkedAdd (BitVec.ofNat 30 w) 1).bind fun next => some (f next)).map BitVec.toNat =
      if a + n ≤ 2 ^ 32 then some v else none := by
  rw [checkedAdd_woffset hw]
  by_cases hlast : w + 1 < 2 ^ 30
  · rw [if_pos hlast, if_pos (hfits.2 hlast)]
    exact congrArg some hv
  · rw [if_neg hlast, if_neg (mt hfits.1 hlast)]
    rfl

section

variable (ram : Ram) (address : Address)

theorem toNat_read8 : (ram.read8 address).toNat = load ram.bytes address.toNat 1 := by
  obtain ⟨w, k, hw, hk, ha, hwo, hbo, -⟩ := exists_offsets address
  have hlo := (ram.word (BitVec.ofNat 30 w)).isLt
  rw [ha, load_bytes (by omega), Ram.doubleWord, Ram.read8, hwo, hbo]
  interval_cases k <;>
    simp only [BitVec.toNat_setWidth, BitVec.toNat_ushiftRight, shiftRight_eq_div_pow] <;> omega

theorem toNat_read16 : (ram.read16 address).map BitVec.toNat =
    if address.toNat + 2 ≤ 2 ^ 32 then some (load ram.bytes address.toNat 2) else none := by
  obtain ⟨w, k, hw, hk, ha, hwo, hbo, -⟩ := exists_offsets address
  have hlo := (ram.word (BitVec.ofNat 30 w)).isLt
  rw [ha, load_bytes (by omega), Ram.doubleWord, Ram.read16, hwo, hbo]
  by_cases hk3 : k = 3
  · subst hk3
    refine map_next (f := fun next => ((ram.word next ++ ram.word (BitVec.ofNat 30 w)) >>> 24).setWidth 16)
      hw (by omega) ?_
    rw [BitVec.toNat_setWidth, BitVec.toNat_ushiftRight, toNat_append, shiftRight_eq_div_pow]
    omega
  · have hk2 : k < 3 := by omega
    rw [if_pos (by omega)]
    interval_cases k
    all_goals
      refine congrArg some ?_
      simp only [BitVec.toNat_setWidth, BitVec.toNat_ushiftRight, shiftRight_eq_div_pow]
      omega

theorem toNat_read32 : (ram.read32 address).map BitVec.toNat =
    if address.toNat + 4 ≤ 2 ^ 32 then some (load ram.bytes address.toNat 4) else none := by
  obtain ⟨w, k, hw, hk, ha, hwo, hbo, hzero⟩ := exists_offsets address
  have hlo := (ram.word (BitVec.ofNat 30 w)).isLt
  rw [ha, load_bytes (by omega), Ram.doubleWord, Ram.read32, hwo]
  by_cases hk0 : k = 0
  · rw [if_pos (hzero.2 hk0), if_pos (by omega), hk0]
    refine congrArg some ?_
    omega
  · rw [if_neg (mt hzero.1 hk0)]
    have hshift : ((boffset address).setWidth 5 <<< 3).toNat = 8 * k := by
      rw [BitVec.toNat_shiftLeft, BitVec.toNat_setWidth, hbo, shiftLeft_eq]
      omega
    refine map_next hw (by omega) ?_
    rw [BitVec.toNat_setWidth, BitVec.ushiftRight_eq', hshift, BitVec.toNat_ushiftRight, toNat_append,
      shiftRight_eq_div_pow]
    interval_cases k <;> omega

end

theorem checkedAdd_address (address n : Address) :
    (checkedAdd address n = none ∧ 2 ^ 32 ≤ address.toNat + n.toNat) ∨
      ∃ next, checkedAdd address n = some next ∧ next.toNat = address.toNat + n.toNat := by
  rw [checkedAdd_eq]
  by_cases h : address.toNat + n.toNat < 2 ^ 32
  · exact .inr ⟨_, if_pos h, by rw [BitVec.toNat_ofNat, mod_eq_of_lt h]⟩
  · exact .inl ⟨if_neg h, by omega⟩

theorem toNat_read64 (ram : Ram) (address : Address) : (ram.read64 address).map BitVec.toNat =
    if address.toNat + 8 ≤ 2 ^ 32 then some (load ram.bytes address.toNat 8) else none := by
  obtain ⟨w, k, hw, hk, ha, hwo, hbo, hzero⟩ := exists_offsets address
  rw [Ram.read64, hwo]
  by_cases hk0 : k = 0
  · rw [if_pos (hzero.2 hk0), ha, load_bytes (by omega), Ram.doubleWord, hk0]
    have hlo := (ram.word (BitVec.ofNat 30 w)).isLt
    have hhi := (ram.word (BitVec.ofNat 30 (w + 1))).isLt
    refine map_next hw (by omega) ?_
    rw [toNat_append]
    omega
  · rw [if_neg (mt hzero.1 hk0)]
    have hlo := toNat_read32 ram address
    rcases checkedAdd_address address 4 with ⟨hnext, hge⟩ | ⟨next, hnext, hnat⟩
    · rw [hnext, if_neg (by change _ ≤ address.toNat + 4 at hge; omega)]
      cases ram.read32 address <;> rfl
    · change next.toNat = address.toNat + 4 at hnat
      have hhi := toNat_read32 ram next
      by_cases hfits : address.toNat + 8 ≤ 2 ^ 32
      · rw [hnat, if_pos (by omega), Option.map_eq_some_iff] at hhi
        rw [if_pos (by omega), Option.map_eq_some_iff] at hlo
        obtain ⟨lo, hlo, hlo'⟩ := hlo
        obtain ⟨hi, hhi, hhi'⟩ := hhi
        rw [if_pos hfits, hlo, hnext, show 8 = 4 + 4 from rfl, load_add, ← hlo', ← hhi']
        change (ram.read32 next >>= fun hi => some (hi ++ lo)).map BitVec.toNat = _
        rw [hhi]
        refine congrArg some ?_
        rw [toNat_append]
        ring
      · rw [hnat, if_neg (by omega), Option.map_eq_none_iff] at hhi
        rw [hnext, if_neg hfits]
        cases ram.read32 address with
        | none => rfl
        | some lo =>
          change (ram.read32 next >>= fun hi => some (hi ++ lo)).map BitVec.toNat = _
          rw [hhi]
          rfl

/-! ### What is written -/

/-- The bytes below the end of the address space after a write. -/
def Ram.Stores (ram ram' : Ram) (a n v : Nat) : Prop := ∀ b < 2 ^ 32, ram'.bytes b = store ram.bytes a n v b

/-- The write is done, unless it passes the end of the address space. -/
def Ram.Writes (ram : Ram) (result : Option Ram) (a n v : Nat) : Prop :=
  if a + n ≤ 2 ^ 32 then ∃ ram', result = some ram' ∧ ram.Stores ram' a n v else result = none

theorem Ram.Stores.trans {ram₀ ram₁ ram₂ : Ram} {a m n lo hi : Nat} (h : ram₀.Stores ram₁ a m lo)
    (h' : ram₁.Stores ram₂ (a + m) n hi) (hlo : lo < 256 ^ m) : ram₀.Stores ram₂ a (m + n) (lo + 256 ^ m * hi) := by
  intro b hb
  rw [h' b hb, ← store_store a m n lo hi hlo, store, store, h b hb]

theorem stores_setWord (ram : Ram) {w : Nat} (hw : w < 2 ^ 30) (v : BitVec 32) :
    ram.Stores (ram.setWord (BitVec.ofNat 30 w) v) (4 * w) 4 v.toNat := by
  intro b hb
  rw [bytes_setWord hw hb, store]
  by_cases h : b / 4 = w
  · rw [if_pos h, if_pos (by omega), show b - 4 * w = b % 4 by omega]
  · rw [if_neg h, if_neg (by omega)]

/-- A word that keeps the bytes of the old one, but for some that are written. -/
theorem stores_setWord_of_bytes {w k n : Nat} (hw : w < 2 ^ 30) (hkn : k + n ≤ 4) {v : Nat} {new : BitVec 32}
    (hnew : ∀ j < 4, new.toNat / 256 ^ j % 256 = if k ≤ j ∧ j < k + n then v / 256 ^ (j - k) % 256 else
      (ram.word (BitVec.ofNat 30 w)).toNat / 256 ^ j % 256) :
    ram.Stores (ram.setWord (BitVec.ofNat 30 w) new) (4 * w + k) n v := by
  intro b hb
  rw [bytes_setWord hw hb, store]
  by_cases h : b / 4 = w
  · rw [if_pos h, hnew _ (mod_lt _ (by decide))]
    have hbytes : (ram.word (BitVec.ofNat 30 w)).toNat / 256 ^ (b % 4) % 256 = ram.bytes b := by rw [Ram.bytes, h]
    rw [hbytes, show b - (4 * w + k) = b % 4 - k by omega]
    exact if_congr (by omega) rfl rfl
  · rw [if_neg h, if_neg (by omega)]

theorem stores_write8 (ram : Ram) (address : Address) (value : BitVec 8) :
    ram.Stores (ram.write8 address value) address.toNat 1 value.toNat := by
  obtain ⟨w, k, hw, hk, ha, hwo, hbo, -⟩ := exists_offsets address
  rw [ha, Ram.write8, hwo, hbo]
  refine stores_setWord_of_bytes hw (by omega) fun j hj => ?_
  have hv := value.isLt
  interval_cases k
  all_goals
    simp only [toNat_append, BitVec.extractLsb'_toNat, shiftRight_eq_div_pow]
    interval_cases j <;> simp <;> omega

theorem writes_write16 (ram : Ram) (address : Address) (value : BitVec 16) :
    ram.Writes (ram.write16 address value) address.toNat 2 value.toNat := by
  rw [Ram.Writes]
  obtain ⟨w, k, hw, hk, ha, hwo, hbo, -⟩ := exists_offsets address
  have hv := value.isLt
  by_cases heven : k = 0 ∨ k = 2
  · -- the two bytes are in one half of a word
    rw [ha, if_pos (by omega), Ram.write16, hwo, hbo]
    rcases heven with rfl | rfl
    all_goals
      refine ⟨_, rfl, stores_setWord_of_bytes hw (by omega) fun j hj => ?_⟩
      simp only [toNat_append, BitVec.extractLsb'_toNat, shiftRight_eq_div_pow]
      interval_cases j <;> simp <;> omega
  · have hodd : ram.write16 address value = (checkedAdd address 1).bind fun next =>
        some ((ram.write8 address (value.extractLsb' 0 8)).write8 next (value.extractLsb' 8 8)) := by
      have hk : k = 1 ∨ k = 3 := by omega
      rw [Ram.write16, hbo]
      rcases hk with rfl | rfl <;> rfl
    rw [hodd]
    rcases checkedAdd_address address 1 with ⟨hnext, hge⟩ | ⟨next, hnext, hnat⟩
    · change _ ≤ address.toNat + 1 at hge
      rw [if_neg (by omega), hnext]
      rfl
    · change next.toNat = address.toNat + 1 at hnat
      rw [if_pos (by have := next.isLt; omega), hnext]
      refine ⟨_, rfl, ?_⟩
      have hlo := stores_write8 ram address (value.extractLsb' 0 8)
      have hhi := stores_write8 (ram.write8 address (value.extractLsb' 0 8)) next (value.extractLsb' 8 8)
      rw [hnat] at hhi
      have := hlo.trans hhi (BitVec.isLt _)
      rwa [show (value.extractLsb' 0 8).toNat + 256 ^ 1 * (value.extractLsb' 8 8).toNat = value.toNat by
        simp only [BitVec.extractLsb'_toNat, shiftRight_eq_div_pow]; omega] at this

theorem writes_halves {W m : Nat} {f : Ram → Address → BitVec W → Option Ram}
    (hf : ∀ (ram : Ram) (address : Address) (value : BitVec W),
      ram.Writes (f ram address value) address.toNat m value.toNat)
    {lo hi : BitVec W} (hlo : lo.toNat < 256 ^ m) {step : Address} (hstep : step.toNat = m) (hm : 0 < m) (ram : Ram)
    (address : Address) :
    ram.Writes (do
        let ram ← f ram address lo
        f ram (← checkedAdd address step) hi)
      address.toNat (m + m) (lo.toNat + 256 ^ m * hi.toNat) := by
  have hfirst := hf ram address lo
  rw [Ram.Writes] at hfirst ⊢
  rcases checkedAdd_address address step with ⟨hnext, hge⟩ | ⟨next, hnext, hnat⟩
  · rw [if_neg (by omega), hnext]
    cases f ram address lo <;> rfl
  · rw [hstep] at hnat
    rw [if_pos (by have := next.isLt; omega)] at hfirst
    obtain ⟨ram₁, hram₁, hstores₁⟩ := hfirst
    have hsecond := hf ram₁ next hi
    rw [Ram.Writes, hnat] at hsecond
    rw [hram₁, hnext]
    by_cases hfits : address.toNat + (m + m) ≤ 2 ^ 32
    · rw [if_pos (by omega)] at hsecond
      rw [if_pos hfits]
      obtain ⟨ram₂, hram₂, hstores₂⟩ := hsecond
      exact ⟨ram₂, hram₂, hstores₁.trans hstores₂ hlo⟩
    · rw [if_neg (by omega)] at hsecond
      rw [if_neg hfits]
      exact hsecond

theorem writes_write32 (ram : Ram) (address : Address) (value : BitVec 32) :
    ram.Writes (ram.write32 address value) address.toNat 4 value.toNat := by
  obtain ⟨w, k, hw, hk, ha, hwo, hbo, hzero⟩ := exists_offsets address
  rw [Ram.write32]
  by_cases hk0 : k = 0
  · rw [if_pos (hzero.2 hk0), Ram.Writes, ha, if_pos (by omega), hwo, hk0]
    exact ⟨_, rfl, stores_setWord ram hw value⟩
  · rw [if_neg (mt hzero.1 hk0)]
    have hvalue : value.toNat = (value.extractLsb' 0 16).toNat + 256 ^ 2 * (value.extractLsb' 16 16).toNat := by
      have := value.isLt
      simp only [BitVec.extractLsb'_toNat, shiftRight_eq_div_pow]
      omega
    rw [hvalue]
    exact writes_halves writes_write16 (BitVec.isLt _) rfl (by omega) ram address

theorem writes_write64 (ram : Ram) (address : Address) (value : BitVec 64) :
    ram.Writes (ram.write64 address value) address.toNat 8 value.toNat := by
  obtain ⟨w, k, hw, hk, ha, hwo, hbo, hzero⟩ := exists_offsets address
  have hvalue : value.toNat = (value.extractLsb' 0 32).toNat + 256 ^ 4 * (value.extractLsb' 32 32).toNat := by
    have := value.isLt
    simp only [BitVec.extractLsb'_toNat, shiftRight_eq_div_pow]
    omega
  rw [Ram.write64, hvalue]
  by_cases hk0 : k = 0
  · rw [if_pos (hzero.2 hk0), hwo, checkedAdd_woffset hw, Ram.Writes, ha, hk0]
    by_cases hlast : w + 1 < 2 ^ 30
    · rw [if_pos hlast, if_pos (by omega)]
      have hlo := stores_setWord ram hw (value.extractLsb' 0 32)
      have hhi := stores_setWord (ram.setWord (BitVec.ofNat 30 w) (value.extractLsb' 0 32)) hlast
        (value.extractLsb' 32 32)
      exact ⟨_, rfl, hlo.trans hhi (BitVec.isLt _)⟩
    · rw [if_neg hlast, if_neg (by omega)]
      rfl
  · rw [if_neg (mt hzero.1 hk0)]
    exact writes_halves writes_write32 (BitVec.isLt _) rfl (by omega) ram address

/-! ### Sequences of accesses -/

inductive Width where
  | b8 | b16 | b32 | b64
deriving DecidableEq

def Width.bytes : Width → Nat
  | b8 => 1
  | b16 => 2
  | b32 => 4
  | b64 => 8

def Ram.read (ram : Ram) (address : Address) : Width → Option Nat
  | .b8 => some (ram.read8 address).toNat
  | .b16 => (ram.read16 address).map BitVec.toNat
  | .b32 => (ram.read32 address).map BitVec.toNat
  | .b64 => (ram.read64 address).map BitVec.toNat

structure Write where
  width : Width
  address : Address
  value : BitVec (8 * width.bytes)

def Ram.write (ram : Ram) : Write → Option Ram
  | ⟨.b8, address, value⟩ => some (ram.write8 address value)
  | ⟨.b16, address, value⟩ => ram.write16 address value
  | ⟨.b32, address, value⟩ => ram.write32 address value
  | ⟨.b64, address, value⟩ => ram.write64 address value

/-- The last byte is below the end of the address space. -/
def Write.Fits (w : Write) : Prop := w.address.toNat + w.width.bytes ≤ 2 ^ 32

instance (w : Write) : Decidable w.Fits := inferInstanceAs (Decidable (_ ≤ _))

theorem read_eq (ram : Ram) (address : Address) (width : Width) : ram.read address width =
    if address.toNat + width.bytes ≤ 2 ^ 32 then some (load ram.bytes address.toNat width.bytes) else none := by
  cases width with
  | b8 =>
    rw [Ram.read, toNat_read8]
    exact (if_pos (by have := address.isLt; rw [Width.bytes]; omega)).symm
  | b16 => exact toNat_read16 ram address
  | b32 => exact toNat_read32 ram address
  | b64 => exact toNat_read64 ram address

theorem writes_write (ram : Ram) (w : Write) :
    ram.Writes (ram.write w) w.address.toNat w.width.bytes w.value.toNat := by
  obtain ⟨width, address, value⟩ := w
  cases width with
  | b8 =>
    have hfits : address.toNat + 1 ≤ 2 ^ 32 := by have := address.isLt; omega
    exact (if_pos hfits).mpr ⟨_, rfl, stores_write8 ram address value⟩
  | b16 => exact writes_write16 ram address value
  | b32 => exact writes_write32 ram address value
  | b64 => exact writes_write64 ram address value

def Ram.zero : Ram := fun _ => 0

def Ram.writeAll (ram : Ram) (writes : List Write) : Option Ram := writes.foldlM Ram.write ram

def lastWritten (writes : List Write) (b : Nat) : Nat :=
  match writes.reverse.find? fun w => w.address.toNat ≤ b ∧ b < w.address.toNat + w.width.bytes with
  | some w => w.value.toNat / 256 ^ (b - w.address.toNat) % 256
  | none => 0

theorem lastWritten_concat (writes : List Write) (w : Write) :
    lastWritten (writes ++ [w]) = store (lastWritten writes) w.address.toNat w.width.bytes w.value.toNat := by
  funext b
  rw [lastWritten, reverse_append, reverse_singleton, singleton_append, store]
  by_cases h : w.address.toNat ≤ b ∧ b < w.address.toNat + w.width.bytes
  · rw [find?_cons, decide_eq_true h, if_pos h]
  · rw [find?_cons, decide_eq_false h, if_neg h, lastWritten]

theorem writeAll_zero {writes : List Write} (h : ∀ w ∈ writes, w.Fits) :
    ∃ ram, Ram.zero.writeAll writes = some ram ∧ ∀ b < 2 ^ 32, ram.bytes b = lastWritten writes b := by
  induction writes using reverseRecOn with
  | nil =>
    refine ⟨Ram.zero, rfl, fun b _ => ?_⟩
    rw [Ram.bytes]
    exact Nat.zero_div _ ▸ rfl
  | append_singleton writes w ih =>
    rw [forall_mem_append] at h
    obtain ⟨ram, hram, hbytes⟩ := ih h.1
    have hfits : w.Fits := h.2 w (mem_singleton_self w)
    obtain ⟨ram', hram', hstores⟩ := (if_pos hfits).mp (writes_write ram w)
    refine ⟨ram', ?_, fun b hb => ?_⟩
    · rw [Ram.writeAll, foldlM_append, show writes.foldlM Ram.write Ram.zero = some ram from hram]
      change (ram.write w >>= fun ram => [].foldlM Ram.write ram) = some ram'
      rw [hram']
      rfl
    · rw [hstores b hb, lastWritten_concat, store, store, hbytes b hb]

theorem writeAll_eq_none {ram : Ram} {writes : List Write} (h : ∃ w ∈ writes, ¬ w.Fits) :
    ram.writeAll writes = none := by
  induction writes generalizing ram with
  | nil => simp at h
  | cons w writes ih =>
    rw [Ram.writeAll, foldlM_cons]
    cases hw : ram.write w with
    | none => rfl
    | some ram' =>
      refine ih ?_
      obtain ⟨w', hw', hfits⟩ := h
      rcases mem_cons.1 hw' with rfl | hw'
      · have hnone : ram.write w' = none := (if_neg hfits).mp (writes_write ram w')
        rw [hw] at hnone
        cases hnone
      · exact ⟨w', hw', hfits⟩

/-- The words implement a memory of bytes. -/
theorem ram_implements_bytes (writes : List Write) :
    ((∀ w ∈ writes, w.Fits) → ∃ ram, Ram.zero.writeAll writes = some ram ∧ ∀ (address : Address) (width : Width),
      ram.read address width =
        if address.toNat + width.bytes ≤ 2 ^ 32 then some
          (load (lastWritten writes) address.toNat width.bytes) else none) ∧
    ((∃ w ∈ writes, ¬ w.Fits) → Ram.zero.writeAll writes = none) := by
  refine ⟨fun h => ?_, writeAll_eq_none⟩
  obtain ⟨ram, hram, hbytes⟩ := writeAll_zero h
  refine ⟨ram, hram, fun address width => ?_⟩
  rw [read_eq]
  by_cases hfits : address.toNat + width.bytes ≤ 2 ^ 32
  · rw [if_pos hfits, if_pos hfits, load_congr fun b _ hb => hbytes b (by omega)]
  · rw [if_neg hfits, if_neg hfits]

/-- A word and then a byte of it, read back with the bytes around them. -/
theorem ram_implements_bytes_overlap :
    ∃ ram, Ram.zero.writeAll [⟨.b32, 5, 0x11223344#32⟩, ⟨.b8, 6, 0xff#8⟩] = some ram ∧
      ram.read 4 .b64 = some 0x1122ff4400 ∧ ram.read 0xfffffffd .b32 = none := by
  obtain ⟨ram, hram, hread⟩ := (ram_implements_bytes [⟨.b32, 5, 0x11223344#32⟩, ⟨.b8, 6, 0xff#8⟩]).1 (by decide)
  refine ⟨ram, hram, ?_, ?_⟩
  · rw [hread]
    decide +kernel
  · rw [hread]
    decide +kernel

end Lineth.Riscv
