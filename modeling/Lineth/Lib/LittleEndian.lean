import Mathlib.Tactic.Ring

/-!
# Little-endian memory

A memory gives every address a byte. `load` reads the number that some bytes spell, least significant byte first, and
`store` writes the low bytes of a number. Both go through a split of the bytes in two parts. -/

namespace LittleEndian

def load (mem : Nat → Nat) (a : Nat) : Nat → Nat
  | 0 => 0
  | n + 1 => mem a + 256 * load mem (a + 1) n

def store (mem : Nat → Nat) (a n v : Nat) (b : Nat) : Nat :=
  if a ≤ b ∧ b < a + n then v / 256 ^ (b - a) % 256 else mem b

variable {mem mem' : Nat → Nat}

theorem load_congr {a n : Nat} (h : ∀ b, a ≤ b → b < a + n → mem b = mem' b) : load mem a n = load mem' a n := by
  induction n generalizing a with
  | zero => rfl
  | succ n ih =>
    rw [load, load, h a (by omega) (by omega), ih fun b hb hb' => h b (by omega) (by omega)]

theorem load_add (a m n : Nat) : load mem a (m + n) = load mem a m + 256 ^ m * load mem (a + m) n := by
  induction m generalizing a with
  | zero => simp [load]
  | succ m ih =>
    rw [Nat.add_right_comm, load, load, ih, Nat.pow_succ', Nat.add_assoc a 1 m, Nat.add_comm 1 m]
    ring

theorem load_of_bytes {a n v : Nat} (h : ∀ i < n, mem (a + i) = v / 256 ^ i % 256) : load mem a n = v % 256 ^ n := by
  induction n generalizing a v with
  | zero => rw [load, Nat.pow_zero, Nat.mod_one]
  | succ n ih =>
    have htail : load mem (a + 1) n = v / 256 % 256 ^ n := by
      refine ih fun i hi => ?_
      rw [Nat.add_assoc, Nat.add_comm 1, h _ (by omega), Nat.pow_succ', Nat.div_div_eq_div_mul]
    have hhead : mem a = v % 256 := by simpa using h 0 (by omega)
    rw [load, hhead, htail, Nat.pow_succ', Nat.mod_mul]

theorem store_of_mem {a n v b : Nat} (h : a ≤ b) (h' : b < a + n) : store mem a n v b = v / 256 ^ (b - a) % 256 :=
  if_pos ⟨h, h'⟩

theorem store_of_notMem {a n v b : Nat} (h : b < a ∨ a + n ≤ b) : store mem a n v b = mem b := if_neg (by omega)

theorem store_store (a m n lo hi : Nat) (hlo : lo < 256 ^ m) :
    store (store mem a m lo) (a + m) n hi = store mem a (m + n) (lo + 256 ^ m * hi) := by
  funext b
  by_cases hb : a ≤ b ∧ b < a + m
  · have hpow : 256 ^ m = 256 ^ (b - a) * 256 * 256 ^ (m - (b - a) - 1) := by
      rw [← Nat.pow_succ, ← Nat.pow_add]
      congr 1
      omega
    rw [store_of_notMem (by omega), store_of_mem hb.1 hb.2, store_of_mem hb.1 (by omega)]
    -- the high part is a multiple of all that the byte looks at
    rw [hpow, show lo + 256 ^ (b - a) * 256 * 256 ^ (m - (b - a) - 1) * hi =
        lo + 256 ^ (b - a) * (256 * (256 ^ (m - (b - a) - 1) * hi)) by ring,
      Nat.add_mul_div_left _ _ (Nat.pow_pos (by decide)), Nat.add_mul_mod_self_left]
  · by_cases hb' : a + m ≤ b ∧ b < a + m + n
    · rw [store_of_mem hb'.1 hb'.2, store_of_mem (by omega) (by omega),
        show b - a = m + (b - (a + m)) by omega, Nat.pow_add, ← Nat.div_div_eq_div_mul,
        Nat.add_mul_div_left _ _ (Nat.pow_pos (by decide)), Nat.div_eq_of_lt hlo, Nat.zero_add]
    · rw [store_of_notMem (by omega), store_of_notMem (by omega), store_of_notMem (by omega)]

end LittleEndian
