import Lineth.Lib.Bits
import Lineth.Lib.Except

/-!
# Packing bytes into field elements

`PackAlign` writes a byte string into elements of `packingSize` bits, each stored in whole 64-bit words. Unless it is
told not to, it ends the data with a byte `0xff`, so that `UnpackAlign` can tell the data from the zeros that fill up
the last element. The readers and writers of bits are known by the laws of `BitIO`. -/

namespace Lineth.Compressor

open Evm (Byte beBytes ofBeBytes)
open Bits List Nat

inductive PackError
  | invalidDataLength
  | invalidTerminalSymbol
  | terminalSymbolUnaligned
  | unexpectedEOF
  | writeFailed
  | inconsistentPackAlignSize
  | indexOutOfRange
  deriving DecidableEq, Repr

def bytesPerElem (packingSize : Nat) : Nat := (packingSize + 7) / 8

def packingSizeLastU64 (packingSize : Nat) : Nat := if packingSize % 64 = 0 then 64 else packingSize % 64

/-- The sizes of the words an element is read and written in: the high one first, then whole words. -/
def wordSizes (packingSize : Nat) : List Nat :=
  packingSizeLastU64 packingSize :: replicate ((packingSize - packingSizeLastU64 packingSize + 63) / 64) 64

/-- The sizes of the words of `n` elements. -/
def elementSizes (packingSize n : Nat) : List Nat := (replicate n (wordSizes packingSize)).flatten

/-! ### Settings -/

structure PackAlignSettings where
  lastByteNbUnusedBits : Nat := 0
  noTerminalSymbol : Bool := false
  additionalInput : List (List Byte) := []

namespace PackAlignSettings

/-- The number of bits of data for a first input of the given length, the terminal symbol included. -/
def dataNbBits (s : PackAlignSettings) (length : Nat) : Nat :=
  let nbBytes := length + (s.additionalInput.map List.length).sum
  let nbBytes := if s.noTerminalSymbol then nbBytes else nbBytes + 1
  nbBytes * 8 - s.lastByteNbUnusedBits

end PackAlignSettings

def packAlignSize (length0 packingSize : Nat) (s : PackAlignSettings) : Nat :=
  let dataNbBits := s.dataNbBits length0
  let extraBits := (packingSize - dataNbBits % packingSize) % packingSize
  let nbBits := dataNbBits + extraBits
  nbBits / packingSize * bytesPerElem packingSize

/-! ### Packing -/

variable (io : BitIO)

/-- `PackAlign`: what is written, and the length it returns. -/
def packAlign (a : List Byte) (packingSize : Nat) (s : PackAlignSettings) : Except PackError (List Byte × Nat) := do
  if s.noTerminalSymbol = false ∧ s.lastByteNbUnusedBits ≠ 0 then throw .terminalSymbolUnaligned
  let dataNbBits := s.dataNbBits a.length
  let nbBits := (dataNbBits + (packingSize - 1)) / packingSize * packingSize
  let extraBits := nbBits - dataNbBits
  let bytePadding := (extraBits + 7) / 8
  -- the capacity of the buffer is one element and one byte, all zero but for the terminal symbol
  let buf : List Byte := (if s.noTerminalSymbol then 0 else 0xff) :: replicate (bytesPerElem packingSize) 0
  if bytePadding + 1 > buf.length then throw .indexOutOfRange
  let r := io.newReader (a ++ s.additionalInput.flatten ++ buf.take (bytePadding + 1))
  let (words, r) := io.readWords r (elementSizes packingSize (nbBits / packingSize))
  if io.readError r then throw .unexpectedEOF
  let n1 := nbBits / packingSize * bytesPerElem packingSize
  if n1 ≠ packAlignSize a.length packingSize s then throw .inconsistentPackAlignSize
  return (words.flatMap (beBytes 8), n1)

/-! ### Unpacking -/

/-- The words of an element. Elements are made of whole words here, as they are for the packing sizes in use. -/
def elementWords (packingSize : Nat) (element : List Byte) : List Nat :=
  (chunks 8 (bytesPerElem packingSize / 8) element).map ofBeBytes

/-- What stands before the terminal symbol, which is the last byte that is not zero. -/
def truncateTerminal (out : List Byte) : Except PackError (List Byte) :=
  match out.reverse.dropWhile (· == 0) with
  | [] => throw .indexOutOfRange
  | last :: front => if last ≠ 0xff then throw .invalidTerminalSymbol else return front.reverse

def unpackAlign (r : List Byte) (packingSize : Nat) (noTerminalSymbol : Bool) : Except PackError (List Byte) := do
  let n := r.length / bytesPerElem packingSize
  if n * bytesPerElem packingSize ≠ r.length then throw .invalidDataLength
  let w := (chunks (bytesPerElem packingSize) n r).foldl
    (fun w element => io.writeWords w (wordSizes packingSize) (elementWords packingSize element)) io.newWriter
  if io.writeError w then throw .writeFailed
  let some out := io.close w | throw .writeFailed
  if noTerminalSymbol then return out else truncateTerminal out

/-! ### Repacking -/

/-- One bit less than an element of the field that is hashed has. -/
def hashPackingSize : Nat := 252

/-- `PackData`. -/
def packData (data : List Byte) (inputPackingSize : Nat) (s : PackAlignSettings) : Except PackError (List Byte) := do
  let dataNbBits := data.length * 8
  -- the bits, not the bytes, are divided by the bytes of an element
  let dataNbBits := if inputPackingSize % 8 ≠ 0 then dataNbBits / bytesPerElem inputPackingSize * inputPackingSize
    else dataNbBits
  let data ← if inputPackingSize % 8 ≠ 0 then unpackAlign io data inputPackingSize true else pure data
  let lastByteNbUnusedBits := if 8 - dataNbBits % 8 = 8 then 0 else 8 - dataNbBits % 8
  let (out, _) ← packAlign io data hashPackingSize { s with lastByteNbUnusedBits }
  return out

/-! ### Elements of four words

Blobs have elements of 254 bits, and 252 bits are hashed: 62 or 60 bits in the first word, 64 in each of the others. -/

def packingSizeU256 : Nat := 254

/-- An element is stored in four words. -/
def FourWords (p : Nat) : Prop := 248 < p ∧ p ≤ 256

theorem fourWords_U256 : FourWords packingSizeU256 := by unfold FourWords packingSizeU256; omega

/-- `n` elements with the bits of the stream. -/
def packedIn (p n : Nat) (stream : List Bool) : List Byte := (cut (elementSizes p n) stream).flatMap (beBytes 8)

def packed : Nat → List Bool → List Byte := packedIn packingSizeU256

/-- The bits of the elements of `r`: the low bits of each word, as many as the word's size. -/
def unpackBits (r : List Byte) (packingSize n : Nat) : List Bool :=
  (chunks (bytesPerElem packingSize) n r).flatMap fun element =>
    glue (wordSizes packingSize) (elementWords packingSize element)

theorem lt_of_fits {ns xs : List Nat} (h : Fits ns xs) {k : Nat} (hk : ∀ n ∈ ns, n ≤ k) : ∀ x ∈ xs, x < 2 ^ k := by
  induction h with
  | nil =>
    intro x hx
    exact absurd hx not_mem_nil
  | @cons n x ns xs hx _ ih =>
    intro y hy
    rcases mem_cons.mp hy with rfl | hy
    · exact hx.trans_le (Nat.pow_le_pow_right (by omega) (hk n mem_cons_self))
    · exact ih (fun m hm => hk m (mem_cons_of_mem _ hm)) y hy

section

variable {p : Nat} (hp : FourWords p)

include hp

theorem FourWords.wordSizes_eq : wordSizes p = [p - 192, 64, 64, 64] := by
  obtain ⟨hlo, hhi⟩ := hp
  have hlast : packingSizeLastU64 p = p - 192 := by
    unfold packingSizeLastU64
    split <;> omega
  rw [wordSizes, hlast, show (p - (p - 192) + 63) / 64 = 3 by omega]
  simp only [replicate]

theorem FourWords.bytesPerElem_eq : bytesPerElem p = 32 := by
  obtain ⟨hlo, hhi⟩ := hp
  unfold bytesPerElem
  omega

variable (n : Nat)

theorem FourWords.elementSizes_succ :
    elementSizes p (n + 1) = (p - 192) :: 64 :: 64 :: 64 :: elementSizes p n := by
  simp only [elementSizes, replicate_succ, flatten_cons, hp.wordSizes_eq, cons_append, nil_append]

theorem length_elementSizes : (elementSizes p n).length = 4 * n := by
  induction n with
  | zero => rfl
  | succ n ih =>
    rw [hp.elementSizes_succ]
    simp only [length_cons, ih]
    omega

theorem sum_elementSizes : (elementSizes p n).sum = p * n := by
  induction n with
  | zero => rfl
  | succ n ih =>
    rw [hp.elementSizes_succ]
    simp only [sum_cons, ih, mul_succ]
    have := hp.1
    omega

theorem elementSizes_le {n size : Nat} (h : size ∈ elementSizes p n) : size ≤ 64 := by
  obtain ⟨l, hl, hs⟩ := mem_flatten.mp h
  rw [eq_of_mem_replicate hl, hp.wordSizes_eq] at hs
  simp only [mem_cons, not_mem_nil, or_false] at hs
  have := hp.2
  omega

theorem length_packedIn (stream : List Bool) : (packedIn p n stream).length = 32 * n := by
  have hwords (ws : List Nat) : (ws.flatMap (beBytes 8)).length = 8 * ws.length := by
    induction ws with
    | nil => rfl
    | cons w ws ih => rw [flatMap_cons, length_append, ih, Evm.length_beBytes, length_cons]; omega
  rw [packedIn, hwords, length_cut, length_elementSizes hp]
  omega

theorem packedIn_succ (stream : List Bool) : ∃ w tail rest,
    packedIn p (n + 1) stream = beBytes 8 w ++ tail ++ packedIn p n rest ∧ w < 2 ^ (p - 192) ∧ tail.length = 24 := by
  have hcut : ∃ w x y z rest, cut (elementSizes p (n + 1)) stream = w :: x :: y :: z :: cut (elementSizes p n) rest ∧
      w < 2 ^ (p - 192) := by
    rw [hp.elementSizes_succ]
    refine ⟨_, _, _, _, _, rfl, ?_⟩
    exact (toNat_lt _).trans_le (Nat.pow_le_pow_right (by omega) (length_take_le _ _))
  obtain ⟨w, x, y, z, rest, hcut, hw⟩ := hcut
  exact ⟨w, beBytes 8 x ++ beBytes 8 y ++ beBytes 8 z, rest, by simp [packedIn, hcut], hw, by simp⟩

/-- Each element is below `2 ^ p`. -/
theorem element_lt {n : Nat} {stream : List Bool} : ∀ e ∈ chunks 32 n (packedIn p n stream), ofBeBytes e < 2 ^ p := by
  induction n generalizing stream with
  | zero => exact fun e he => by cases he
  | succ n ih =>
    obtain ⟨w, tail, rest, hpacked, hw, htail⟩ := packedIn_succ hp n stream
    have hlen : (beBytes 8 w ++ tail).length = 32 := by rw [length_append, Evm.length_beBytes, htail]
    rw [hpacked, chunks, take_left' hlen, drop_left' hlen, forall_mem_cons]
    refine ⟨?_, ih⟩
    have hw8 : w < 256 ^ 8 := hw.trans_le (Nat.pow_le_pow_right (n := 2) (by omega)
      (show p - 192 ≤ 64 by have := hp.2; omega))
    have hlow := Evm.ofBeBytes_lt tail
    rw [← toNat_ofBytes, ofBytes_append, toNat_append, toNat_ofBytes, toNat_ofBytes,
      Evm.ofBeBytes_beBytes, Nat.mod_eq_of_lt hw8,
      length_ofBytes, htail]
    rw [htail] at hlow
    calc w * 2 ^ (8 * 24) + ofBeBytes tail < (w + 1) * 2 ^ 192 := by omega
      _ ≤ 2 ^ (p - 192) * 2 ^ 192 := mul_le_mul_right _ hw
      _ = 2 ^ p := by rw [← pow_add]; congr 1; have := hp.1; omega

theorem unpackBits_eq (r : List Byte) (n : Nat) :
    unpackBits r p n = glue (elementSizes p n) ((chunks 8 (4 * n) r).map ofBeBytes) := by
  have hpieces : ∀ v ∈ (chunks 32 n r).map fun element => (chunks 8 4 element).map ofBeBytes,
      v.length = (wordSizes p).length := by
    intro v hv
    obtain ⟨c, -, rfl⟩ := mem_map.mp hv
    rw [length_map, length_chunks, hp.wordSizes_eq]
    rfl
  have hglue := flatMap_glue (wordSizes p) hpieces
  rw [flatMap_map, length_map, length_chunks] at hglue
  have hwords := chunks_flatMap_chunks 8 4 n r
  unfold unpackBits elementWords
  rw [hp.bytesPerElem_eq]
  rw [hglue, elementSizes, ← hwords, flatMap_def, map_flatten, map_map]
  rfl

theorem unpackBits_packedIn {stream : List Bool} (h : stream.length = p * n) :
    unpackBits (packedIn p n stream) p n = stream := by
  have hlt : ∀ w ∈ cut (elementSizes p n) stream, w < 256 ^ 8 :=
    lt_of_fits (k := 64) cut_fits fun _ => elementSizes_le hp
  have hwords := map_ofBeBytes_chunks hlt
  rw [length_cut, length_elementSizes hp] at hwords
  rw [unpackBits_eq hp, packedIn, hwords, glue_cut (by rw [h, sum_elementSizes hp])]

end

/-! ### Packing a stream -/

def elems (p len : Nat) : Nat := (len + (p - 1)) / p

/-- The bits filled up with zeros to whole elements. -/
def padded (p : Nat) (bits : List Bool) : List Bool := bits ++ replicate (p * elems p bits.length - bits.length) false

variable {p : Nat}

theorem length_padded (hp : FourWords p) (bits : List Bool) : (padded p bits).length = p * elems p bits.length := by
  have hle : bits.length ≤ p * elems p bits.length := by
    have hdiv := Nat.div_add_mod (bits.length + (p - 1)) p
    have hmod := mod_lt (bits.length + (p - 1)) (show 0 < p by have := hp.1; omega)
    unfold elems
    omega
  rw [padded, length_append, length_replicate]
  omega

/-- What is packed are the bits of the input and of the terminal symbol, if there is one. -/
theorem packAlign_eq_of (hp : FourWords p) (a : List Byte) (more : List (List Byte))
    (noTerminal : Bool) {bits : List Bool}
    (hbits : ofBytes (a ++ more.flatten ++ if noTerminal then [] else [0xff]) = bits) :
    packAlignSize a.length p { additionalInput := more, noTerminalSymbol := noTerminal } = 32 * elems p bits.length ∧
    packAlign io a p { additionalInput := more, noTerminalSymbol := noTerminal } =
      .ok (packedIn p (elems p bits.length) (padded p bits), 32 * elems p bits.length) := by
  set s : PackAlignSettings := { additionalInput := more, noTerminalSymbol := noTerminal } with hs
  set n := elems p bits.length with hn
  have hpos : 0 < p := by have := hp.1; omega
  have hpadded := length_padded hp bits
  have hle : bits.length ≤ p * n := by
    rw [← hpadded, padded, length_append]
    omega
  have hnb : s.dataNbBits a.length = bits.length := by
    rw [← hbits, length_ofBytes, length_append, length_append, length_flatten]
    cases noTerminal <;> simp [hs, PackAlignSettings.dataNbBits, Nat.mul_comm]
  have hlt : p * n - bits.length < p := by
    have := div_mul_le_self (bits.length + (p - 1)) p
    rw [hn, elems, Nat.mul_comm]
    omega
  have hsize : packAlignSize a.length p s = 32 * n := by
    have hmod : (p - bits.length % p) % p = p * n - bits.length := by
      have hlt' := mod_lt bits.length hpos
      -- the rest of the length and the padding make no bits, or one element
      obtain ⟨c, hc⟩ : p ∣ bits.length % p + (p * n - bits.length) := by
        rw [← Nat.dvd_add_right (Nat.dvd_mul_right p (bits.length / p)), ← Nat.add_assoc, Nat.div_add_mod]
        exact ⟨n, by omega⟩
      have hc2 : c < 2 := Nat.lt_of_mul_lt_mul_left (show p * c < p * 2 by omega)
      obtain rfl | rfl : c = 0 ∨ c = 1 := by omega
      · rw [show bits.length % p = 0 by omega, Nat.sub_zero, Nat.mod_self]
        omega
      · rw [Nat.mod_eq_of_lt (by omega)]
        omega
    unfold packAlignSize
    simp only [hnb, hmod, hp.bytesPerElem_eq]
    rw [show bits.length + (p * n - bits.length) = p * n by omega, Nat.mul_div_cancel_left _ hpos, Nat.mul_comm]
  refine ⟨hsize, ?_⟩
  -- the padding the code computes is at most an element, and enough for the last read
  obtain ⟨pad, hpad⟩ : ∃ pad, (n * p - bits.length + 7) / 8 = pad := ⟨_, rfl⟩
  have hpad_le : pad ≤ 32 := by
    have := hp.2
    rw [Nat.mul_comm] at hpad
    omega
  obtain ⟨rest, hrest⟩ : ∃ rest, ofBytes (a ++ more.flatten ++
      ((if noTerminal then 0 else 0xff : Byte) :: replicate 32 0).take (pad + 1)) = padded p bits ++ rest := by
    have hzeros (k : Nat) (hk : p * n - bits.length ≤ k) : ∃ rest,
      bits ++ replicate k false = padded p bits ++ rest := by
      refine ⟨replicate (k - (p * n - bits.length)) false, ?_⟩
      rw [padded, ← hn, append_assoc, replicate_append_replicate, Nat.add_sub_cancel' hk]
    rw [take_succ_cons, take_replicate, Nat.min_eq_left hpad_le]
    rw [Nat.mul_comm] at hpad
    cases noTerminal with
    | false =>
      rw [if_neg Bool.false_ne_true] at hbits
      rw [if_neg Bool.false_ne_true, ← singleton_append, ← append_assoc, ofBytes_append, ofBytes_replicate_zero, hbits]
      exact hzeros _ (by omega)
    | true =>
      rw [if_pos rfl, append_nil] at hbits
      rw [if_pos rfl, ← replicate_succ, ofBytes_append, ofBytes_replicate_zero, hbits]
      exact hzeros _ (by omega)
  have henough : (elementSizes p n).sum ≤ (padded p bits).length := by rw [sum_elementSizes hp, hpadded]
  obtain ⟨hnew, hunread⟩ := io.unread_new (a ++ more.flatten ++
    ((if noTerminal then 0 else 0xff : Byte) :: replicate 32 0).take (pad + 1))
  rw [hrest] at hunread
  have hread := io.readWords_eq hnew (fun _ => elementSizes_le hp)
    (henough.trans (by rw [hunread, length_append]; omega))
  rw [hunread, cut_append_stream _ _ _ henough] at hread
  have hlen : ¬ pad + 1 > ((if noTerminal then 0 else 0xff : Byte) :: replicate 32 0).length := by
    rw [length_cons, length_replicate]
    omega
  have hmore : s.additionalInput = more := rfl
  have hterm : s.noTerminalSymbol = noTerminal := rfl
  have helems : (bits.length + (p - 1)) / p = n := rfl
  unfold packAlign
  simp only [hnb, helems, Nat.mul_div_cancel _ hpos, hpad, hp.bytesPerElem_eq, hsize, hmore, hterm, hread.1, hread.2]
  rw [if_neg (fun h => h.2 rfl), if_neg hlen, if_neg Bool.false_ne_true,
    if_neg (fun h => h (Nat.mul_comm _ _)), Nat.mul_comm 32]
  rfl

/-! ### Data with a terminal symbol -/

def nbElems (len : Nat) : Nat := ((len + 1) * 8 + 253) / 254

/-- Data, its terminal symbol and zeros up to the end of the last element. -/
def dataStream (data : List Byte) : List Bool :=
  ofBytes (data ++ [0xff]) ++ replicate (254 * nbElems data.length - 8 * (data.length + 1)) false

theorem length_packed (n : Nat) (stream : List Bool) : (packed n stream).length = 32 * n :=
  length_packedIn fourWords_U256 n stream

variable (data : List Byte)

theorem elems_U256 : elems packingSizeU256 (ofBytes (data ++ [0xff])).length = nbElems data.length := by
  rw [length_ofBytes, length_append, Nat.mul_comm]
  rfl

theorem padded_U256 : padded packingSizeU256 (ofBytes (data ++ [0xff])) = dataStream data := by
  rw [padded, elems_U256, length_ofBytes, length_append]
  rfl

theorem packAlignSize_eq (a : List Byte) (more : List (List Byte)) :
    packAlignSize a.length packingSizeU256 { additionalInput := more } = 32 * nbElems (a ++ more.flatten).length := by
  rw [← elems_U256]
  exact (packAlign_eq_of .ofLists fourWords_U256 a more false rfl).1

theorem packAlign_eq (a : List Byte) (more : List (List Byte)) :
    packAlign io a packingSizeU256 { additionalInput := more } =
      .ok (packed (nbElems (a ++ more.flatten).length) (dataStream (a ++ more.flatten)),
        32 * nbElems (a ++ more.flatten).length) := by
  rw [← elems_U256, ← padded_U256]
  exact (packAlign_eq_of io fourWords_U256 a more false rfl).2

theorem truncateTerminal_eq (k : Nat) :
    truncateTerminal (data ++ [0xff] ++ replicate k 0) = .ok data := by
  have hdrop : (data ++ [0xff] ++ replicate k (0 : Byte)).reverse.dropWhile (· == 0) = 0xff :: data.reverse := by
    rw [reverse_append, reverse_replicate, reverse_append, dropWhile_append_of_pos]
    · rfl
    · intro b hb
      rw [eq_of_mem_replicate hb]
      rfl
  unfold truncateTerminal
  rw [hdrop]
  show (if _ then _ else _) = _
  rw [if_neg (fun h => h rfl), reverse_reverse]
  rfl

theorem unpackAlign_eq (hp : FourWords p) {n : Nat} {data : List Byte} (h : data.length = 32 * n)
    (noTerminal : Bool) :
    unpackAlign io data p noTerminal =
      if noTerminal then .ok (toBytes (unpackBits data p n)) else truncateTerminal (toBytes (unpackBits data p n)) := by
  have h64 : ∀ size ∈ wordSizes p, size ≤ 64 := fun size hsize => elementSizes_le hp (n := 1) (by simpa [elementSizes])
  obtain ⟨hnew, hempty⟩ := io.written_new
  obtain ⟨hw, hbits⟩ := io.written_foldl hnew h64 (elementWords p) (chunks 32 n data)
  have hclose := io.close_eq hw
  rw [hbits, hempty, nil_append] at hclose
  unfold unpackAlign unpackBits
  simp only [hp.bytesPerElem_eq, h, Nat.mul_div_cancel_left _ (show 0 < 32 by omega), hw, hclose]
  rw [if_neg (fun hne => hne (Nat.mul_comm _ _))]
  rfl

theorem unpackAlign_packedIn (hp : FourWords p) (data : List Byte) :
    unpackAlign io (packedIn p (elems p (ofBytes (data ++ [0xff])).length)
    (padded p (ofBytes (data ++ [0xff])))) p false =
      .ok data := by
  rw [unpackAlign_eq io hp (length_packedIn hp _ _), unpackBits_packedIn hp _ (length_padded hp _), padded,
    toBytes_ofBytes_append_replicate]
  exact truncateTerminal_eq _ _

theorem unpackAlign_packed :
    unpackAlign io (packed (nbElems data.length) (dataStream data)) packingSizeU256 false = .ok data := by
  rw [← elems_U256, ← padded_U256]
  exact unpackAlign_packedIn io fourWords_U256 data

/-! ### Repacking without a terminal symbol -/

theorem fourWords_hash : FourWords hashPackingSize := by unfold FourWords hashPackingSize; omega

/-- Closing the writer makes whole bytes, so that no bit of the last byte is left out. -/
theorem packData_eq {p n : Nat} (hp : FourWords p) (hbit : p % 8 ≠ 0) {data : List Byte} (h : data.length = 32 * n)
    {bits : List Bool} (hbits : ofBytes (toBytes (unpackBits data p n)) = bits) :
    packData io data p { noTerminalSymbol := true } =
      .ok (packedIn hashPackingSize (elems hashPackingSize bits.length) (padded hashPackingSize bits)) := by
  have hunpack := unpackAlign_eq io hp h true
  rw [if_pos rfl] at hunpack
  have hunused : 8 - data.length * 8 / bytesPerElem p * p % 8 = 8 := by
    rw [hp.bytesPerElem_eq, h, show 32 * n * 8 / 32 = 8 * n by omega, mul_assoc, mul_mod_right]
  have hpack := (packAlign_eq_of io fourWords_hash (toBytes (unpackBits data p n)) [] true
    (by rw [if_pos rfl, flatten_nil, append_nil, append_nil, hbits])).2
  unfold packData
  simp only [if_pos hbit, hunpack, if_pos hunused]
  exact congrArg (Except.map Prod.fst) hpack

/-- The zeros fill up the last byte of the writer and the last element: seven and 251 at most. -/
theorem ofBytes_toBytes_padded (bits : List Bool) : ∃ zeros,
    padded hashPackingSize (ofBytes (toBytes bits)) = bits ++ replicate zeros false ∧ zeros < 259 := by
  have hlen := congrArg List.length (ofBytes_toBytes bits)
  rw [length_append, length_replicate] at hlen
  refine ⟨_, by rw [padded, ofBytes_toBytes, append_assoc, replicate_append_replicate], ?_⟩
  unfold elems hashPackingSize
  omega

/-- Packing in 252 or 254 bits is undone by unpacking, its size is the announced one and its elements are in range;
without a terminal symbol, elements of either size are repacked with the same bits before zeros. -/
theorem unpackAlign_packAlign_packData {p : Nat} (hp : p = 252 ∨ p = 254) :
    (∀ (a : List Byte) (more : List (List Byte)), ∃ out,
      packAlign io a p { additionalInput := more } = .ok (out, out.length) ∧
      out.length = packAlignSize a.length p { additionalInput := more } ∧
      unpackAlign io out p false = .ok (a ++ more.flatten) ∧
      ∀ element ∈ chunks 32 (out.length / 32) out, ofBeBytes element < 2 ^ p) ∧
    ∀ (data : List Byte) (n : Nat), data.length = 32 * n → ∃ out zeros,
      packData io data p { noTerminalSymbol := true } = .ok out ∧ zeros < 259 ∧
      unpackBits out hashPackingSize (out.length / 32) = unpackBits data p n ++ replicate zeros false := by
  have hwords : FourWords p ∧ p % 8 ≠ 0 := by unfold FourWords; omega
  obtain ⟨hwords, hbit⟩ := hwords
  have hdiv {q : Nat} (hq : FourWords q) (n : Nat) (stream : List Bool) : (packedIn q n stream).length / 32 = n := by
    rw [length_packedIn hq, Nat.mul_div_cancel_left _ (by omega)]
  constructor
  · intro a more
    have hpack := packAlign_eq_of io hwords a more false rfl
    rw [if_neg Bool.false_ne_true] at hpack
    have hlen := length_packedIn hwords (elems p (ofBytes (a ++ more.flatten ++ [0xff])).length)
      (padded p (ofBytes (a ++ more.flatten ++ [0xff])))
    refine ⟨_, by rw [hlen]; exact hpack.2, hlen.trans hpack.1.symm, unpackAlign_packedIn io hwords _, ?_⟩
    rw [hdiv hwords]
    exact element_lt hwords
  · intro data n h
    obtain ⟨zeros, hzeros, hlt⟩ := ofBytes_toBytes_padded (unpackBits data p n)
    refine ⟨_, zeros, packData_eq io hwords hbit h rfl, hlt, ?_⟩
    rw [hdiv fourWords_hash, unpackBits_packedIn fourWords_hash _ (length_padded fourWords_hash _), hzeros]

theorem packAlign_two_slices :
    (∃ out, packAlign .ofLists [1, 2] 252 { additionalInput := [[3]] } = .ok (out, out.length) ∧
      unpackAlign .ofLists out 252 false = .ok [1, 2, 3]) ∧
    ∃ out zeros, packData .ofLists (replicate 32 1) 252 { noTerminalSymbol := true } = .ok out ∧
      unpackBits out hashPackingSize (out.length / 32) =
        unpackBits (replicate 32 1) 252 1 ++ replicate zeros false := by
  have h := unpackAlign_packAlign_packData .ofLists (p := 252) (.inl rfl)
  obtain ⟨out, hpack, -, hunpack, -⟩ := h.1 [1, 2] [[3]]
  obtain ⟨out', zeros, hrepack, -, hbits⟩ := h.2 (replicate 32 1) 1 rfl
  exact ⟨⟨out, hpack, hunpack⟩, out', zeros, hrepack, hbits⟩

end Lineth.Compressor
