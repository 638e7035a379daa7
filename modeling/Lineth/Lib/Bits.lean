import Lineth.Lib.Memory

/-!
# Bit strings

A bit string is a list of booleans, most significant bit first. `ofNat n x` are the `n` low bits of `x`, `toNat` the
number a string spells, `ofBytes` and `toBytes` convert from and to bytes, the last one filled up with zeros. A stream
of bits is cut into words by `cut` and put together again by `glue`; `chunks` cuts a list into pieces of one size.
`BitIO` are readers and writers of bits, given by their laws. -/

namespace Bits

open List Nat
open Evm (Byte beBytes ofBeBytes)

/-! ### Numbers -/

/-- The `n` low bits of `x`, most significant first. -/
def ofNat : Nat → Nat → List Bool
  | 0, _ => []
  | n + 1, x => ofNat n (x / 2) ++ [x % 2 == 1]

/-- The number a bit string spells, most significant bit first. -/
def toNat (bs : List Bool) : Nat := bs.foldl (fun n b => 2 * n + b.toNat) 0

variable (n x : Nat)

@[simp] theorem length_ofNat : (ofNat n x).length = n := by
  induction n generalizing x with
  | zero => rfl
  | succ n ih => simp [ofNat, ih]

@[simp] theorem toNat_nil : toNat [] = 0 := rfl

variable (bs : List Bool)

theorem toNat_concat (b : Bool) : toNat (bs ++ [b]) = 2 * toNat bs + b.toNat := by
  simp [toNat]

theorem toNat_append (as bs : List Bool) : toNat (as ++ bs) = toNat as * 2 ^ bs.length + toNat bs := by
  induction bs using reverseRecOn with
  | nil => simp
  | append_singleton bs b ih =>
    rw [← append_assoc, toNat_concat, toNat_concat, ih, length_append, length_singleton, pow_succ]
    ring

theorem toNat_lt : toNat bs < 2 ^ bs.length := by
  induction bs using reverseRecOn with
  | nil => simp
  | append_singleton bs b ih =>
    have hb : b.toNat < 2 := b.toNat_lt
    rw [toNat_concat, length_append, length_singleton, pow_succ]
    omega

theorem beq_one_toNat (x : Nat) : (x % 2 == 1).toNat = x % 2 := by
  rcases mod_two_eq_zero_or_one x with h | h <;> rw [h] <;> rfl

theorem toNat_ofNat : toNat (ofNat n x) = x % 2 ^ n := by
  induction n generalizing x with
  | zero => simp [ofNat, mod_one]
  | succ n ih =>
    rw [ofNat, toNat_concat, ih, beq_one_toNat, Nat.pow_succ' (n := n), mod_mul]
    exact add_comm _ _

theorem ofNat_toNat : ofNat bs.length (toNat bs) = bs := by
  induction bs using reverseRecOn with
  | nil => rfl
  | append_singleton bs b ih =>
    have hb : b.toNat < 2 := b.toNat_lt
    rw [length_append, length_singleton, ofNat, toNat_concat,
      show (2 * toNat bs + b.toNat) / 2 = toNat bs by omega, ih, Nat.mul_add_mod, Nat.mod_eq_of_lt hb]
    cases b <;> rfl

theorem ofNat_add (m n x : Nat) : ofNat (m + n) x = ofNat m (x / 2 ^ n) ++ ofNat n x := by
  induction n generalizing x with
  | zero => simp [ofNat]
  | succ n ih =>
    rw [← Nat.add_assoc, ofNat, ih, ofNat, append_assoc, Nat.div_div_eq_div_mul, Nat.pow_succ']

theorem ofNat_mod : ofNat n (x % 2 ^ n) = ofNat n x := by
  have h := ofNat_toNat (ofNat n x)
  rwa [length_ofNat, toNat_ofNat] at h

theorem ofNat_shift (m n x : Nat) {v : Nat} (hv : v < 2 ^ n) :
    ofNat (m + n) (x * 2 ^ n + v) = ofNat m x ++ ofNat n v := by
  rw [ofNat_add, ← ofNat_mod n (x * 2 ^ n + v), Nat.mul_comm, Nat.mul_add_mod, Nat.mod_eq_of_lt hv,
    Nat.mul_add_div (Nat.two_pow_pos n), Nat.div_eq_of_lt hv, Nat.add_zero]

@[simp] theorem ofNat_zero (n : Nat) : ofNat n 0 = replicate n false := by
  induction n with
  | zero => rfl
  | succ n ih => rw [ofNat, Nat.zero_div, ih, replicate_succ']; rfl

/-! ### Bytes -/

def ofBytes (bs : List Byte) : List Bool := bs.flatMap fun b => ofNat 8 b.toNat

@[simp] theorem ofBytes_append (as bs : List Byte) : ofBytes (as ++ bs) = ofBytes as ++ ofBytes bs :=
  flatMap_append

theorem ofBytes_singleton (b : Byte) : ofBytes [b] = ofNat 8 b.toNat := append_nil _

@[simp] theorem length_ofBytes (bs : List Byte) : (ofBytes bs).length = 8 * bs.length := by
  induction bs with
  | nil => rfl
  | cons b bs ih =>
    show (ofNat 8 b.toNat ++ ofBytes bs).length = _
    rw [length_append, length_ofNat, ih, length_cons]
    omega

theorem toNat_ofBytes (bs : List Byte) : toNat (ofBytes bs) = ofBeBytes bs := by
  induction bs using reverseRecOn with
  | nil => rfl
  | append_singleton bs b ih =>
    have hb : b.toNat < 2 ^ 8 := b.isLt
    rw [ofBytes_append, ofBytes_singleton, toNat_append, length_ofNat, toNat_ofNat, ih,
      Evm.ofBeBytes_append_singleton, Nat.mod_eq_of_lt hb]
    ring

theorem ofBytes_injective : Function.Injective ofBytes := by
  intro as bs h
  have hlen : as.length = bs.length := by
    have := congrArg length h
    rw [length_ofBytes, length_ofBytes] at this
    omega
  have hval : ofBeBytes as = ofBeBytes bs := by rw [← toNat_ofBytes, ← toNat_ofBytes, h]
  rw [← Evm.beBytes_ofBeBytes as, ← Evm.beBytes_ofBeBytes bs, hlen, hval]

theorem ofBytes_beBytes : ofBytes (beBytes n x) = ofNat (8 * n) x := by
  have h := ofNat_toNat (ofBytes (beBytes n x))
  rw [length_ofBytes, Evm.length_beBytes, toNat_ofBytes, Evm.ofBeBytes_beBytes] at h
  rw [← h, show (256 : Nat) ^ n = 2 ^ (8 * n) by rw [Nat.pow_mul], ofNat_mod]

theorem ofBytes_replicate_zero (n : Nat) : ofBytes (replicate n 0) = replicate (8 * n) false := by
  induction n with
  | zero => rfl
  | succ n ih =>
    rw [replicate_succ', ofBytes_append, ih, ofBytes_singleton, show (0 : Byte).toNat = 0 from rfl, ofNat_zero,
      replicate_append_replicate, mul_succ]

/-- The bytes of a bit string, the last one filled up with zeros. -/
def toBytes (bs : List Bool) : List Byte :=
  beBytes ((bs.length + 7) / 8) (toNat bs * 2 ^ (8 * ((bs.length + 7) / 8) - bs.length))

theorem ofBytes_toBytes :
    ofBytes (toBytes bs) = bs ++ replicate (8 * ((bs.length + 7) / 8) - bs.length) false := by
  rw [toBytes, ofBytes_beBytes]
  generalize hk : 8 * ((bs.length + 7) / 8) - bs.length = k
  rw [show 8 * ((bs.length + 7) / 8) = bs.length + k by omega]
  have h := ofNat_shift bs.length k (toNat bs) (Nat.two_pow_pos k)
  rwa [Nat.add_zero, ofNat_toNat, ofNat_zero] at h

theorem toBytes_ofBytes_append_replicate (bs : List Byte) (k : Nat) :
    toBytes (ofBytes bs ++ replicate k false) = bs ++ replicate ((k + 7) / 8) 0 := by
  apply ofBytes_injective
  rw [ofBytes_toBytes, ofBytes_append, ofBytes_replicate_zero, append_assoc, replicate_append_replicate,
    length_append, length_ofBytes, length_replicate]
  congr 2
  omega

/-! ### Words of given sizes -/

def cut : List Nat → List Bool → List Nat
  | [], _ => []
  | n :: ns, bs => toNat (bs.take n) :: cut ns (bs.drop n)

/-- The stream of the words `xs` of sizes `ns`. -/
def glue : List Nat → List Nat → List Bool
  | n :: ns, x :: xs => ofNat n x ++ glue ns xs
  | _, _ => []

/-- Each word fits its size. -/
abbrev Fits (ns xs : List Nat) : Prop := List.Forall₂ (fun n x => x < 2 ^ n) ns xs

@[simp] theorem length_cut (ns : List Nat) (bs : List Bool) : (cut ns bs).length = ns.length := by
  induction ns generalizing bs with
  | nil => rfl
  | cons n ns ih => rw [cut, length_cons, ih, length_cons]

theorem cut_fits {ns : List Nat} {bs : List Bool} : Fits ns (cut ns bs) := by
  induction ns generalizing bs with
  | nil => exact .nil
  | cons n ns ih =>
    refine .cons ((toNat_lt _).trans_le ?_) ih
    exact Nat.pow_le_pow_right (by omega) (length_take_le n bs)

theorem cut_append_stream (ns : List Nat) (as bs : List Bool) (h : ns.sum ≤ as.length) :
    cut ns (as ++ bs) = cut ns as := by
  induction ns generalizing as with
  | nil => rfl
  | cons n ns ih =>
    rw [sum_cons] at h
    have hn : n ≤ as.length := by omega
    rw [cut, cut, take_append_of_le_length hn, drop_append_of_le_length hn,
      ih _ (by rw [length_drop]; omega)]

theorem glue_cut {ns : List Nat} {bs : List Bool} (h : bs.length = ns.sum) : glue ns (cut ns bs) = bs := by
  induction ns generalizing bs with
  | nil =>
    rw [sum_nil, length_eq_zero_iff] at h
    rw [h]
    rfl
  | cons n ns ih =>
    rw [sum_cons] at h
    have hlen : (bs.take n).length = n := by rw [length_take]; omega
    have hword := ofNat_toNat (bs.take n)
    rw [hlen] at hword
    rw [cut, glue, ih (by rw [length_drop]; omega), hword, take_append_drop]

theorem glue_append {ms xs : List Nat} (ns ys : List Nat) (h : ms.length = xs.length) :
    glue (ms ++ ns) (xs ++ ys) = glue ms xs ++ glue ns ys := by
  induction ms generalizing xs with
  | nil =>
    cases xs with
    | nil => rfl
    | cons x xs => simp at h
  | cons m ms ih =>
    cases xs with
    | nil => simp at h
    | cons x xs => rw [cons_append, cons_append, glue, ih (by simpa using h), glue, append_assoc]

theorem flatMap_glue (ns : List Nat) {vs : List (List Nat)} (h : ∀ v ∈ vs, v.length = ns.length) :
    vs.flatMap (glue ns) = glue (replicate vs.length ns).flatten vs.flatten := by
  induction vs with
  | nil => rfl
  | cons v vs ih =>
    rw [flatMap_cons, ih fun u hu => h u (mem_cons_of_mem _ hu), length_cons, replicate_succ,
      flatten_cons, flatten_cons, glue_append _ _ (h v mem_cons_self).symm]

/-! ### Pieces of one size -/

variable {α : Type*}

/-- The first `n` pieces of size `size`. -/
def chunks (size : Nat) : Nat → List α → List (List α)
  | 0, _ => []
  | n + 1, l => l.take size :: chunks size n (l.drop size)

@[simp] theorem length_chunks (size n : Nat) (l : List α) : (chunks size n l).length = n := by
  induction n generalizing l with
  | zero => rfl
  | succ n ih => rw [chunks, length_cons, ih]

theorem chunks_add (size m n : Nat) (l : List α) :
    chunks size (m + n) l = chunks size m l ++ chunks size n (l.drop (size * m)) := by
  induction m generalizing l with
  | zero => rw [zero_add, mul_zero, drop_zero]; rfl
  | succ m ih =>
    rw [succ_add, chunks, ih, chunks, drop_drop, mul_succ, add_comm size, cons_append]

theorem chunks_take {size m k : Nat} (l : List α) (h : size * m ≤ k) : chunks size m (l.take k) = chunks size m l := by
  induction m generalizing l k with
  | zero => rfl
  | succ m ih =>
    rw [mul_succ] at h
    rw [chunks, chunks, take_take, min_eq_left (by omega), drop_take, ih _ (by omega)]

theorem chunks_flatMap_chunks (size m n : Nat) (l : List α) :
    (chunks (size * m) n l).flatMap (chunks size m) = chunks size (m * n) l := by
  induction n generalizing l with
  | zero => rfl
  | succ n ih => rw [chunks, flatMap_cons, ih, chunks_take l le_rfl, mul_succ, add_comm, chunks_add]

theorem chunks_flatten {size : Nat} {ls : List (List α)} (h : ∀ l ∈ ls, l.length = size) :
    chunks size ls.length ls.flatten = ls := by
  induction ls with
  | nil => rfl
  | cons l ls ih =>
    have hl := h l mem_cons_self
    rw [length_cons, flatten_cons, chunks, take_append_of_le_length hl.ge,
      drop_append_of_le_length hl.ge, take_of_length_le hl.le, drop_of_length_le hl.le, nil_append,
      ih fun u hu => h u (mem_cons_of_mem _ hu)]

theorem map_ofBeBytes_chunks {size : Nat} {ws : List Nat} (h : ∀ w ∈ ws, w < 256 ^ size) :
    (chunks size ws.length (ws.flatMap (beBytes size))).map ofBeBytes = ws := by
  have hlen : ∀ l ∈ ws.map (beBytes size), l.length = size := by
    intro l hl
    obtain ⟨w, -, rfl⟩ := mem_map.mp hl
    exact Evm.length_beBytes size w
  have hchunks := chunks_flatten hlen
  rw [length_map] at hchunks
  rw [flatMap_def, hchunks, map_map]
  conv_rhs => rw [← map_id ws]
  refine map_congr_left fun w hw => ?_
  rw [Function.comp_apply, Evm.ofBeBytes_beBytes, Nat.mod_eq_of_lt (h w hw), id]

/-! ### Readers and writers -/

/-- Readers and writers of bits and what they promise for up to 64 bits at a time: a reader returns the next `n` bits as
a number as long as there are so many, a writer appends the `n` low bits of a number, and closing it fills up the last
byte with zeros. A reader or a writer that failed once keeps its error. -/
structure BitIO where
  Reader : Type
  Writer : Type
  newReader : List Byte → Reader
  tryReadBits : Reader → Nat → Nat × Reader
  readError : Reader → Bool
  newWriter : Writer
  tryWriteBits : Writer → Nat → Nat → Writer
  writeError : Writer → Bool
  close : Writer → Option (List Byte)
  /-- The bits that are left to a reader. -/
  unread : Reader → List Bool
  /-- The bits a writer was given. -/
  written : Writer → List Bool
  unread_new (bs : List Byte) : readError (newReader bs) = false ∧ unread (newReader bs) = ofBytes bs
  read {r : Reader} {n : Nat} (hr : readError r = false) (h64 : n ≤ 64) (hn : n ≤ (unread r).length) :
    (tryReadBits r n).1 = toNat ((unread r).take n) ∧ readError (tryReadBits r n).2 = false ∧
      unread (tryReadBits r n).2 = (unread r).drop n
  written_new : writeError newWriter = false ∧ written newWriter = []
  write {w : Writer} {n : Nat} (hw : writeError w = false) (h64 : n ≤ 64) (x : Nat) :
    writeError (tryWriteBits w x n) = false ∧ written (tryWriteBits w x n) = written w ++ ofNat n x
  close_eq {w : Writer} (hw : writeError w = false) : close w = some (toBytes (written w))

namespace BitIO

variable (io : BitIO) {ns : List Nat}

def readWords (r : io.Reader) : List Nat → List Nat × io.Reader
  | [] => ([], r)
  | n :: ns =>
    let (v, r) := io.tryReadBits r n
    let (vs, r) := readWords r ns
    (v :: vs, r)

def writeWords (w : io.Writer) : List Nat → List Nat → io.Writer
  | n :: ns, x :: xs => writeWords (io.tryWriteBits w x n) ns xs
  | _, _ => w

theorem readWords_eq {r : io.Reader} (hr : io.readError r = false) (h64 : ∀ n ∈ ns, n ≤ 64)
    (h : ns.sum ≤ (io.unread r).length) :
    (io.readWords r ns).1 = cut ns (io.unread r) ∧ io.readError (io.readWords r ns).2 = false := by
  induction ns generalizing r with
  | nil => exact ⟨rfl, hr⟩
  | cons n ns ih =>
    rw [sum_cons] at h
    rw [forall_mem_cons] at h64
    obtain ⟨hv, hr', hrest⟩ := io.read hr h64.1 (by omega)
    have := ih hr' h64.2 (by rw [hrest, length_drop]; omega)
    rw [hrest] at this
    exact ⟨congrArg₂ cons hv this.1, this.2⟩

theorem written_writeWords {w : io.Writer} (hw : io.writeError w = false) (h64 : ∀ n ∈ ns, n ≤ 64) (xs : List Nat) :
    io.writeError (io.writeWords w ns xs) = false ∧
      io.written (io.writeWords w ns xs) = io.written w ++ glue ns xs := by
  induction ns generalizing w xs with
  | nil => exact ⟨hw, (append_nil _).symm⟩
  | cons n ns ih =>
    cases xs with
    | nil => exact ⟨hw, (append_nil _).symm⟩
    | cons x xs =>
      rw [forall_mem_cons] at h64
      obtain ⟨hw', happend⟩ := io.write hw h64.1 x
      have := ih hw' h64.2 xs
      rwa [happend, append_assoc] at this

theorem written_foldl {w : io.Writer} (hw : io.writeError w = false) (h64 : ∀ n ∈ ns, n ≤ 64) (f : α → List Nat)
    (l : List α) :
    io.writeError (l.foldl (fun w a => io.writeWords w ns (f a)) w) = false ∧
      io.written (l.foldl (fun w a => io.writeWords w ns (f a)) w) =
        io.written w ++ l.flatMap fun a => glue ns (f a) := by
  induction l generalizing w with
  | nil => exact ⟨hw, (append_nil _).symm⟩
  | cons a l ih =>
    obtain ⟨hw', hwords⟩ := io.written_writeWords hw h64 (f a)
    have := ih hw'
    rwa [hwords, append_assoc] at this

/-- The reader holds the bits that are left and whether a read went past the end, the writer the bits it was given. -/
def ofLists : BitIO where
  Reader := List Bool × Bool
  Writer := List Bool
  newReader bs := (ofBytes bs, false)
  tryReadBits r n :=
    if r.2 = false ∧ n ≤ r.1.length then (toNat (r.1.take n), r.1.drop n, false) else (0, r.1, true)
  readError r := r.2
  newWriter := []
  tryWriteBits w x n := w ++ ofNat n x
  writeError _ := false
  close w := some (toBytes w)
  unread r := r.1
  written w := w
  unread_new _ := ⟨rfl, rfl⟩
  read hr _ hn := by rw [if_pos ⟨hr, hn⟩]; exact ⟨rfl, rfl, rfl⟩
  written_new := ⟨rfl, rfl⟩
  write _ _ _ := ⟨rfl, rfl⟩
  close_eq _ := rfl

end BitIO

end Bits
