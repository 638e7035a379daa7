import Mathlib.Data.List.Induction
import Mathlib.Tactic.Ring

/-!
# Words, bytes and byte-addressed memory

A machine word has 256 bits and is stored most significant byte first. `write` overlays a memory with a byte string,
`read` takes one out: a string that was written (`read_write_self`), or what a write elsewhere left alone
(`read_write_of_disjoint`). `words` is the concatenation of words, and reading a stretch of memory gives the words in
it (`read_eq_words`). -/

namespace Evm

open List Nat

abbrev Byte := BitVec 8

abbrev Word := BitVec 256

abbrev Address := BitVec 160

/-! ### Big-endian numerals -/

/-- The `n` low base-256 digits of `x`, most significant first. -/
def beBytes : Nat → Nat → List Byte
  | 0, _ => []
  | n + 1, x => beBytes n (x / 256) ++ [BitVec.ofNat 8 x]

/-- The number a byte string spells, most significant byte first. -/
def ofBeBytes (bs : List Byte) : Nat := bs.foldl (fun n b => 256 * n + b.toNat) 0

@[simp] theorem length_beBytes (n x : Nat) : (beBytes n x).length = n := by
  induction n generalizing x with
  | zero => rfl
  | succ n ih => simp [beBytes, ih]

theorem ofBeBytes_append_singleton (bs : List Byte) (b : Byte) :
    ofBeBytes (bs ++ [b]) = 256 * ofBeBytes bs + b.toNat := by
  simp [ofBeBytes]

theorem ofBeBytes_beBytes (n x : Nat) : ofBeBytes (beBytes n x) = x % 256 ^ n := by
  induction n generalizing x with
  | zero => simp [beBytes, ofBeBytes, mod_one]
  | succ n ih =>
    rw [beBytes, ofBeBytes_append_singleton, ih, BitVec.toNat_ofNat, Nat.pow_succ' (n := n), mod_mul]
    exact add_comm _ _

theorem beBytes_add (m n x : Nat) : beBytes (m + n) x = beBytes m (x / 256 ^ n) ++ beBytes n x := by
  induction n generalizing x with
  | zero => simp [beBytes]
  | succ n ih =>
    rw [← Nat.add_assoc, beBytes, ih, beBytes, append_assoc, Nat.div_div_eq_div_mul, Nat.pow_succ']

theorem ofBeBytes_lt (bs : List Byte) : ofBeBytes bs < 256 ^ bs.length := by
  induction bs using reverseRecOn with
  | nil => simp [ofBeBytes]
  | append_singleton bs b ih =>
    have hb : b.toNat < 256 := b.isLt
    rw [ofBeBytes_append_singleton, length_append, length_singleton, pow_succ]
    omega

theorem beBytes_ofBeBytes (bs : List Byte) : beBytes bs.length (ofBeBytes bs) = bs := by
  induction bs using reverseRecOn with
  | nil => rfl
  | append_singleton bs b ih =>
    have hb : b.toNat < 256 := b.isLt
    rw [length_append, length_singleton, beBytes, ofBeBytes_append_singleton,
      show (256 * ofBeBytes bs + b.toNat) / 256 = ofBeBytes bs by omega, ih]
    congr 2
    apply BitVec.eq_of_toNat_eq
    rw [BitVec.toNat_ofNat]
    omega

/-! ### Words as byte strings -/

def toBytes (w : Word) : List Byte := beBytes 32 w.toNat

def ofBytes (bs : List Byte) : Word := BitVec.ofNat 256 (ofBeBytes bs)

@[simp] theorem length_toBytes (w : Word) : (toBytes w).length = 32 := length_beBytes 32 _

@[simp] theorem ofBytes_toBytes (w : Word) : ofBytes (toBytes w) = w := by
  apply BitVec.eq_of_toNat_eq
  have hw : w.toNat < 256 ^ 32 := w.isLt
  rw [ofBytes, toBytes, ofBeBytes_beBytes, mod_eq_of_lt hw, BitVec.toNat_ofNat, mod_eq_of_lt w.isLt]

theorem toBytes_ofBytes {bs : List Byte} (h : bs.length = 32) : toBytes (ofBytes bs) = bs := by
  have hlt := ofBeBytes_lt bs
  rw [h] at hlt
  have hn : (BitVec.ofNat 256 (ofBeBytes bs)).toNat = ofBeBytes bs := by
    rw [BitVec.toNat_ofNat]; exact mod_eq_of_lt hlt
  rw [toBytes, ofBytes, hn, ← h, beBytes_ofBeBytes]

def words (ws : List Word) : List Byte := ws.flatMap toBytes

@[simp] theorem words_nil : words [] = [] := rfl

@[simp] theorem words_cons (w : Word) (ws : List Word) : words (w :: ws) = toBytes w ++ words ws := rfl

theorem words_append (u v : List Word) : words (u ++ v) = words u ++ words v := flatMap_append

@[simp] theorem length_words (ws : List Word) : (words ws).length = 32 * ws.length := by
  induction ws with
  | nil => rfl
  | cons w ws ih => rw [words_cons, length_append, length_toBytes, ih, length_cons]; ring

theorem words_append_inj {u v : List Word} {x y : List Byte} (hlen : u.length = v.length)
    (h : words u ++ x = words v ++ y) : u = v ∧ x = y := by
  induction u generalizing v with
  | nil =>
    obtain rfl : v = [] := eq_nil_of_length_eq_zero hlen.symm
    exact ⟨rfl, h⟩
  | cons a u ih =>
    obtain ⟨b, v, rfl⟩ := exists_cons_of_length_eq_add_one hlen.symm
    rw [words_cons, words_cons, append_assoc, append_assoc] at h
    obtain ⟨hab, hrest⟩ := append_inj h (by simp)
    obtain ⟨rfl, rfl⟩ := ih (by simpa using hlen) hrest
    exact ⟨by rw [Function.LeftInverse.injective ofBytes_toBytes hab], rfl⟩

theorem words_injective : Function.Injective words := by
  intro u v h
  have hlen : u.length = v.length := by
    have := congrArg length h
    rw [length_words, length_words] at this
    omega
  exact (words_append_inj (x := []) (y := []) hlen (by simpa using h)).1

/-! ### Memory -/

def Memory := Nat → Byte

namespace Memory

/-- The memory a byte string fills from address 0; every later byte is zero. -/
def ofList (bs : List Byte) : Memory := fun i => bs.getD i 0

def write (m : Memory) (p : Nat) (bs : List Byte) : Memory :=
  fun i => if p ≤ i then (bs[i - p]?).getD (m i) else m i

def read (m : Memory) (p n : Nat) : List Byte := (range n).map fun i => m (p + i)

def readWord (m : Memory) (p : Nat) : Word := ofBytes (m.read p 32)

def readWords (m : Memory) (p n : Nat) : List Word := (range n).map fun i => m.readWord (p + 32 * i)

variable {m : Memory} {p q n : Nat} {bs : List Byte}

theorem read_ofList (bs : List Byte) (p n : Nat) : (ofList bs).read p n = (bs.drop p).takeD n 0 := by
  induction n generalizing p with
  | zero => rfl
  | succ n ih =>
    have hhead : ofList bs p = (bs.drop p).head?.getD 0 := by simp [ofList, head?_drop]
    have hrest : (range n).map (fun i => ofList bs (p + (i + 1))) = (ofList bs).read (p + 1) n := by
      refine map_congr_left fun i _ => ?_
      rw [add_comm i 1, ← Nat.add_assoc]
    rw [read, range_succ_eq_map, map_cons, map_map, takeD_succ, tail_drop, ← ih, ← hrest,
      add_zero, hhead]
    rfl

@[simp] theorem length_read (m : Memory) (p n : Nat) : (m.read p n).length = n := by simp [read]

theorem read_add (m : Memory) (p a b : Nat) : m.read p (a + b) = m.read p a ++ m.read (p + a) b := by
  simp only [read, range_add, map_append, map_map]
  congr 1
  exact map_congr_left fun i _ => by rw [Function.comp_apply, Nat.add_assoc]

theorem read_write_self (m : Memory) (p : Nat) (bs : List Byte) : (m.write p bs).read p bs.length = bs := by
  refine ext_getElem (by simp) fun i h₁ h₂ => ?_
  simp [read, write, getElem?_eq_getElem h₂]

theorem write_apply_of_disjoint {i : Nat} (h : i < p ∨ p + bs.length ≤ i) : m.write p bs i = m i := by
  unfold write
  split
  · rw [getElem?_eq_none (by omega), Option.getD_none]
  · rfl

theorem read_write_of_disjoint (h : q + n ≤ p ∨ p + bs.length ≤ q) : (m.write p bs).read q n = m.read q n := by
  refine map_congr_left fun i hi => write_apply_of_disjoint ?_
  have := mem_range.1 hi
  omega

theorem readWord_write_of_disjoint (h : q + 32 ≤ p ∨ p + bs.length ≤ q) :
    (m.write p bs).readWord q = m.readWord q := by
  rw [readWord, readWord, read_write_of_disjoint h]

theorem readWord_write_toBytes_of_disjoint {w : Word} (h : q + 32 ≤ p ∨ p + 32 ≤ q) :
    (m.write p (toBytes w)).readWord q = m.readWord q :=
  readWord_write_of_disjoint (by rwa [length_toBytes])

@[simp] theorem readWord_write_toBytes (m : Memory) (p : Nat) (w : Word) : (m.write p (toBytes w)).readWord p = w := by
  have h := read_write_self m p (toBytes w)
  rw [length_toBytes] at h
  rw [readWord, h, ofBytes_toBytes]

@[simp] theorem toBytes_readWord (m : Memory) (p : Nat) : toBytes (m.readWord p) = m.read p 32 :=
  toBytes_ofBytes (length_read m p 32)

theorem read_eq_words (m : Memory) (p n : Nat) : m.read p (32 * n) = words (m.readWords p n) := by
  induction n with
  | zero => rfl
  | succ n ih =>
    rw [mul_succ, read_add, ih, readWords, readWords, range_succ, map_append, words_append]
    simp

theorem readWord_write_read (m src : Memory) (p q : Nat) {n i : Nat} (h : i + 32 ≤ n) :
    (m.write p (src.read q n)).readWord (p + i) = src.readWord (q + i) := by
  unfold readWord
  congr 1
  refine map_congr_left fun j hj => ?_
  have hj' := mem_range.1 hj
  have hlt : p + i + j - p < (src.read q n).length := by rw [length_read]; omega
  rw [write, if_pos (by omega), getElem?_eq_getElem hlt, Option.getD_some]
  simp only [read, getElem_map, getElem_range]
  congr 1
  omega

end Memory

end Evm
