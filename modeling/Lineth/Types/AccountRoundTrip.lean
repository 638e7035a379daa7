import Lineth.Types.Account

/-!
# Which accounts survive their serialisation

Each field is read back from the bytes it was written to, and so are the JSON of an account and its encoding for the
hash. In the format of the Shomei traces the code size is written on 64 bytes and read on 32: an account comes back
with the code size zero. -/

namespace Lineth.Types

open Except List FullBytes32
open Evm (Byte Word beBytes ofBeBytes toBytes ofBytes)

/-! ### Padding -/

variable {b : List Byte}

section

variable (h : b.length % 2 = 0)

include h

theorem length_padPairs : (padPairs b).length = 2 * b.length := by
  induction b using twoStepInduction with
  | nil => rfl
  | singleton x => cases h
  | cons_cons x y b ih _ =>
    rw [length_cons, length_cons] at h
    rw [padPairs, length_cons, length_cons, length_cons, length_cons, ih (by omega), length_cons,
      length_cons]
    omega

theorem unpadPairs_padPairs : unpadPairs (padPairs b) = b := by
  induction b using twoStepInduction with
  | nil => rfl
  | singleton x => cases h
  | cons_cons x y b ih _ =>
    rw [length_cons, length_cons] at h
    rw [padPairs, unpadPairs, ih (by omega)]

theorem leftPadded_eq : leftPadded b = .ok (padPairs b) := if_neg (not_not_intro h)

theorem removePadding_padPairs : removePadding (padPairs b) = .ok b := by
  rw [removePadding, if_neg (by rw [length_padPairs h]; omega), unpadPairs_padPairs h, pure_eq_ok]

end

/-! ### Fields -/

variable {bs : List Byte} {n : Nat}

theorem reads_read (h : bs.length = n) (hn : 0 < n) : Reads (read n) bs bs := by
  intro rest
  have hne : bs ++ rest ≠ [] := append_ne_nil_of_left_ne_nil (ne_nil_of_length_pos (h ▸ hn)) rest
  rw [read, if_neg hne, take_left' h, drop_left' h, pure_eq_ok]

theorem reads_readAny (h : bs.length = n) : Reads (readAny n) bs bs := by
  intro rest
  rw [readAny, take_left' h, drop_left' h, pure_eq_ok]

theorem filled_eq (h : bs.length = n) : filled n bs = bs := by
  rw [filled, h, Nat.sub_self, replicate_zero, append_nil]

def int64On64 (x : BitVec 64) : List Byte := replicate 48 0 ++ padPairs (beBytes 8 x.toNat)

theorem length_beBytes_even (n x : Nat) : (beBytes (2 * n) x).length % 2 = 0 := by
  rw [Evm.length_beBytes]
  omega

theorem writeInt64On64Bytes_eq (x : BitVec 64) : writeInt64On64Bytes x = .ok (int64On64 x) := by
  have heven := length_beBytes_even 4 x.toNat
  rw [writeInt64On64Bytes, leftPadded_eq heven, ok_bind, leftPadded48Zeros,
    if_neg (by rw [length_padPairs heven, Evm.length_beBytes]; decide), pure_eq_ok]
  rfl

theorem length_int64On64 (x : BitVec 64) : (int64On64 x).length = 64 := by
  rw [int64On64, length_append, length_replicate, length_padPairs (length_beBytes_even 4 x.toNat), Evm.length_beBytes]

theorem ofNat_ofBeBytes_beBytes (x : BitVec 64) : BitVec.ofNat 64 (ofBeBytes (beBytes 8 x.toNat)) = x := by
  have hx : x.toNat < 256 ^ 8 := x.isLt
  rw [Evm.ofBeBytes_beBytes, Nat.mod_eq_of_lt hx, BitVec.ofNat_toNat, BitVec.setWidth_eq]

variable {x : BitVec 64}

/-- A number that is not negative has no sign bit. -/
theorem and_mask (h : 0 ≤ x.toInt) : x &&& 0x7fffffffffffffff#64 = x := by
  have hlt : x.toNat < 2 ^ 63 := by
    have := BitVec.toInt_eq_toNat_cond x
    split at this <;> omega
  apply BitVec.eq_of_toNat_eq
  have hmask : (0x7fffffffffffffff#64).toNat = 2 ^ 63 - 1 := rfl
  rw [BitVec.toNat_and, hmask, Nat.and_two_pow_sub_one_eq_mod, Nat.mod_eq_of_lt hlt]

theorem reads_int64On64 (h : 0 ≤ x.toInt) : Reads readInt64On64Bytes (int64On64 x) x := by
  have hremove : remove48Padding (int64On64 x) = .ok (padPairs (beBytes 8 x.toNat)) := by
    rw [remove48Padding, if_neg (not_not_intro (length_int64On64 x)), int64On64,
      drop_left' length_replicate, pure_eq_ok]
  refine (reads_read (length_int64On64 x) (by decide)).bind_eq_pure ?_
  rw [if_neg (not_not_intro (length_int64On64 x)), hremove, orPanic, pure_bind,
    removePadding_padPairs (length_beBytes_even 4 x.toNat),
    orPanic, pure_bind, ofNat_ofBeBytes_beBytes, and_mask h]

theorem ofBeBytes_replicate_append (n : Nat) (bs : List Byte) : ofBeBytes (replicate n 0 ++ bs) = ofBeBytes bs := by
  rw [ofBeBytes, foldl_append]
  congr 1
  induction n with
  | zero => rfl
  | succ n ih => rw [replicate_succ, foldl_cons]; exact ih

theorem length_writeInt64On32Bytes (x : BitVec 64) : (writeInt64On32Bytes x).length = 32 := by
  rw [writeInt64On32Bytes, length_append, length_replicate, Evm.length_beBytes]

theorem reads_int64On32 (h : 0 ≤ x.toInt) : Reads readInt64On32Bytes (writeInt64On32Bytes x) x := by
  have hlt : x.toNat < 2 ^ 63 := by
    have := BitVec.toInt_eq_toNat_cond x
    split at this <;> omega
  have hx : x.toNat < 256 ^ 8 := x.isLt
  have hbi : ofBeBytes (filled 32 (writeInt64On32Bytes x)) = x.toNat := by
    rw [filled_eq (length_writeInt64On32Bytes x), writeInt64On32Bytes, ofBeBytes_replicate_append,
      Evm.ofBeBytes_beBytes, Nat.mod_eq_of_lt hx]
  refine (reads_read (length_writeInt64On32Bytes x) (by decide)).bind_eq_pure ?_
  rw [hbi]
  dsimp only
  rw [if_neg (not_le.2 hlt), BitVec.ofNat_toNat, BitVec.setWidth_eq]

variable {b : Nat}

theorem fillBytes_natCast (h : b < 256 ^ 32) : fillBytes b = .ok (beBytes 32 b) := if_pos h

theorem reads_bigIntOn32 (h : b < 256 ^ 32) : Reads readBigIntOn32Bytes (beBytes 32 b) b := by
  refine (reads_read (Evm.length_beBytes 32 b) (by decide)).bind_eq_pure ?_
  rw [filled_eq (Evm.length_beBytes 32 b), Evm.ofBeBytes_beBytes, Nat.mod_eq_of_lt h]

theorem length_padPairs_beBytes (n x : Nat) : (padPairs (beBytes (2 * n) x)).length = 4 * n := by
  rw [length_padPairs (length_beBytes_even n x), Evm.length_beBytes]
  omega

theorem writeBigIntOn64Bytes_natCast (h : b < 256 ^ 32) : writeBigIntOn64Bytes b = .ok (padPairs (beBytes 32 b)) := by
  rw [writeBigIntOn64Bytes, fillBytes_natCast h, ok_bind, leftPadded_eq (length_beBytes_even 16 b)]

theorem reads_bigIntOn64 (h : b < 256 ^ 32) : Reads readBigIntOn64Bytes (padPairs (beBytes 32 b)) b := by
  refine (reads_read (length_padPairs_beBytes 16 b) (by decide)).bind_eq_pure ?_
  rw [filled_eq (length_padPairs_beBytes 16 b), removePadding_padPairs (length_beBytes_even 16 b), orPanic,
    pure_bind, Evm.ofBeBytes_beBytes,
    Nat.mod_eq_of_lt h]

/-! ### Octuplets and code hashes -/

namespace Octuplet

open ElementBytes (bytes length_bytes)

variable [ElementBytes]

theorem length_flatMap_bytes (l : List Koalabear.Element) : (l.flatMap bytes).length = 4 * l.length := by
  induction l with
  | nil => rfl
  | cons x l ih => rw [flatMap_cons, length_append, ih, length_bytes, length_cons, Nat.mul_succ, Nat.add_comm]

theorem length_toBytes (e : Octuplet) : e.toBytes.length = 32 := by
  rw [toBytes, length_flatMap_bytes, length_ofFn]

theorem take_drop_flatMap {l : List Koalabear.Element} {i : Nat} (hi : i < l.length) :
    ((l.flatMap bytes).drop (4 * i)).take 4 = bytes l[i] := by
  induction l generalizing i with
  | nil => exact absurd hi (Nat.not_lt_zero i)
  | cons x l ih =>
    rw [flatMap_cons]
    cases i with
    | zero => exact take_left' (length_bytes _)
    | succ i =>
      rw [Nat.mul_succ, Nat.add_comm, ← drop_drop, drop_left' (length_bytes _), ih (Nat.lt_of_succ_lt_succ hi)]
      rfl

theorem setBytes_toBytes (e : Octuplet) : setBytes e.toBytes = .ok e := by
  have hsegment (i : Fin 8) : setSegment ((e.toBytes.drop (4 * i.val)).take 4) = .ok (e i) := by
    have hi : (i : Nat) < (List.ofFn e).length := by
      rw [length_ofFn]
      exact i.isLt
    rw [toBytes, take_drop_flatMap hi, List.getElem_ofFn, setSegment,
      ElementBytes.setBytesCanonical_bytes, orThrow_some]
  have helements : ((List.finRange 8).mapM fun (i : Fin 8) => setSegment ((e.toBytes.drop (4 * i.val)).take 4)) =
      .ok (List.ofFn e) := by
    rw [mapM_eq_ok_iff, ofFn_eq_map, forall₂_map_right_iff, forall₂_same]
    exact fun i _ => hsegment i
  rw [setBytes, if_neg (not_not_intro e.length_toBytes), helements, ok_bind, pure_eq_ok]
  refine congrArg Except.ok (funext fun i => ?_)
  rw [List.getD_eq_getElem?_getD, List.getElem?_ofFn, dif_pos i.isLt, Option.getD_some]

theorem reads_toBytes (e : Octuplet) : Reads readFrom e.toBytes e := by
  refine (reads_read e.length_toBytes (by decide)).bind_eq_pure ?_
  rw [filled_eq e.length_toBytes, e.setBytes_toBytes]
  rfl

end Octuplet

theorem reads_write1Word (f old : Word) : Reads (readPacked old) (write1Word f) f := by
  refine (reads_readAny (Evm.length_toBytes f)).bind_eq_pure ?_
  rw [drop_eq_nil_of_le (by rw [Evm.length_toBytes, Evm.length_toBytes]), append_nil, Evm.ofBytes_toBytes]

theorem writeTo_fullBytes32 (f : Word) : FullBytes32.writeTo f = .ok (padPairs (toBytes f)) :=
    leftPadded_eq (length_beBytes_even 16 f.toNat)

theorem reads_fullBytes32 (f : Word) : Reads FullBytes32.readFrom (padPairs (toBytes f)) f := by
  have heven : (toBytes f).length % 2 = 0 := length_beBytes_even 16 f.toNat
  have hlength : (padPairs (toBytes f)).length = 64 := length_padPairs_beBytes 16 f.toNat
  refine (reads_readAny hlength).bind_eq_pure ?_
  rw [filled_eq hlength, removePadding_padPairs heven, orPanic, pure_bind, Evm.ofBytes_toBytes]

/-! ### Accounts -/

namespace Account

/-- An account as it may occur: the numbers are not negative, and the balance has 256 bits. -/
structure Valid (a : Account) : Prop where
  nonce : 0 ≤ a.nonce.toInt
  codeSize : 0 ≤ a.codeSize.toInt
  balance : ∃ b : Nat, a.balance = some (b : Int) ∧ b < 2 ^ 256

variable {a : Account}

/-- The keccak code hash, packed or not. -/
def keccakBytes (f : Word) (packed : Bool) : List Byte := if packed then write1Word f else padPairs (toBytes f)

theorem write_keccakBytes (f : Word) (packed : Bool) :
    (if packed then pure (write1Word f) else FullBytes32.writeTo f) =
      (.ok (keccakBytes f packed) : Except Panic (List Byte)) := by
  rw [writeTo_fullBytes32, keccakBytes]
  split <;> rfl

theorem reads_keccakBytes (f old : Word) (packed : Bool) :
    Reads (if packed then readPacked old else FullBytes32.readFrom) (keccakBytes f packed) f := by
  rw [keccakBytes]
  split
  · exact reads_write1Word f old
  · exact reads_fullBytes32 f

theorem int64On64_eq (x : BitVec 64) :
    int64On64 x = writeInt64On32Bytes 0 ++ (replicate 16 0 ++ padPairs (beBytes 8 x.toNat)) := by
  have hzero : writeInt64On32Bytes 0 = replicate 32 0 := by decide
  have hsplit : replicate 48 (0 : Byte) = replicate 32 0 ++ replicate 16 0 := by decide
  rw [int64On64, hzero, hsplit, append_assoc]

variable [ElementBytes]

theorem writeTo_reads (ha : a.Valid) (packed : Bool) :
    ∃ bytes, a.writeTo packed = .ok bytes ∧ ∀ old : Account, Reads (old.readFrom packed) bytes a := by
  obtain ⟨b, hb, hlt⟩ := ha.balance
  have hlt : b < 256 ^ 32 := hlt.trans_eq (by norm_num)
  refine ⟨int64On64 a.nonce ++ (padPairs (beBytes 32 b) ++ (a.storageRoot.toBytes ++ (a.lineaCodeHash.toBytes ++
    (keccakBytes a.keccakCodeHash packed ++ int64On64 a.codeSize)))), ?_, fun old => ?_⟩
  · rw [writeTo, writeInt64On64Bytes_eq, ok_bind, hb, Option.getD_some, writeBigIntOn64Bytes_natCast hlt, ok_bind,
      write_keccakBytes, ok_bind, writeInt64On64Bytes_eq, ok_bind, pure_eq_ok]
  · refine ((reads_int64On64 ha.nonce).mapError _).bind ?_
    refine ((reads_bigIntOn64 hlt).mapError _).bind ?_
    refine (a.storageRoot.reads_toBytes.mapError _).bind ?_
    refine (a.lineaCodeHash.reads_toBytes.mapError _).bind ?_
    refine ((reads_keccakBytes a.keccakCodeHash old.keccakCodeHash packed).mapError _).bind ?_
    refine ((reads_int64On64 ha.codeSize).mapError _).bind_eq_pure ?_
    rw [← hb]

def shomeiBytes (a : Account) (b : Nat) : List Byte :=
  writeInt64On32Bytes a.nonce ++ (beBytes 32 b ++ (a.storageRoot.toBytes ++ (a.lineaCodeHash.toBytes ++
    (write1Word a.keccakCodeHash ++ int64On64 a.codeSize))))

theorem writeToShomeiTraces_eq {b : Nat} (hb : a.balance = some (b : Int)) (hlt : b < 2 ^ 256) :
    a.writeToShomeiTraces = .ok (a.shomeiBytes b) := by
  have hlt : b < 256 ^ 32 := hlt.trans_eq (by norm_num)
  rw [writeToShomeiTraces, hb, Option.getD_some, writeBigIntOn32Bytes, fillBytes_natCast hlt,
    ok_bind, writeInt64On64Bytes_eq,
    ok_bind, pure_eq_ok, shomeiBytes]

/-- What was written is read back with the code size zero: the first half of its bytes is zero. -/
theorem readFromShomeiTraces_shomeiBytes (ha : a.Valid) {b : Nat} (hb : a.balance = some (b : Int))
    (hlt : b < 2 ^ 256) (old : Account) :
    ∃ rest, old.readFromShomeiTraces (a.shomeiBytes b) = .ok ({ a with codeSize := 0 }, rest) := by
  have hlt : b < 256 ^ 32 := hlt.trans_eq (by norm_num)
  have hreads : Reads old.readFromShomeiTraces (writeInt64On32Bytes a.nonce
    ++ (beBytes 32 b ++ (a.storageRoot.toBytes ++
      (a.lineaCodeHash.toBytes ++ (write1Word a.keccakCodeHash ++ writeInt64On32Bytes 0)))))
        { a with codeSize := 0 } := by
    refine ((reads_int64On32 ha.nonce).mapError _).bind ?_
    refine ((reads_bigIntOn32 hlt).mapError _).bind ?_
    refine (a.storageRoot.reads_toBytes.mapError _).bind ?_
    refine (a.lineaCodeHash.reads_toBytes.mapError _).bind ?_
    refine ((reads_write1Word a.keccakCodeHash old.keccakCodeHash).mapError _).bind ?_
    refine ((@reads_int64On32 0 (by decide)).mapError _).bind_eq_pure ?_
    rw [← hb]
  refine ⟨replicate 16 0 ++ padPairs (beBytes 8 a.codeSize.toNat), ?_⟩
  rw [shomeiBytes, int64On64_eq]
  have h := hreads (replicate 16 0 ++ padPairs (beBytes 8 a.codeSize.toNat))
  simp only [append_assoc] at h
  exact h

theorem shomeiBytes_injective {a' : Account} (ha : a.Valid) (ha' : a'.Valid) {b b' : Nat}
    (hb : a.balance = some (b : Int))
    (hb' : a'.balance = some (b' : Int)) (hlt : b < 2 ^ 256) (hlt' : b' < 2 ^ 256)
    (h : a.shomeiBytes b = a'.shomeiBytes b') : a = a' := by
  have hlt : b < 256 ^ 32 := hlt.trans_eq (by norm_num)
  have hlt' : b' < 256 ^ 32 := hlt'.trans_eq (by norm_num)
  obtain ⟨hnonce, h⟩ := (reads_int64On32 ha.nonce).append_inj (reads_int64On32 ha'.nonce) h
  obtain ⟨hbalance, h⟩ := (reads_bigIntOn32 hlt).append_inj (reads_bigIntOn32 hlt') h
  obtain ⟨hroot, h⟩ := a.storageRoot.reads_toBytes.append_inj a'.storageRoot.reads_toBytes h
  obtain ⟨hlinea, h⟩ := a.lineaCodeHash.reads_toBytes.append_inj a'.lineaCodeHash.reads_toBytes h
  obtain ⟨hkeccak, h⟩ := (reads_write1Word a.keccakCodeHash 0).append_inj (reads_write1Word a'.keccakCodeHash 0) h
  have hsize := ((h ▸ reads_int64On64 ha.codeSize).unique (reads_int64On64 ha'.codeSize))
  cases a
  cases a'
  simp_all

end Account

/-! ### JSON -/

theorem fromHexChar_hexDigit (h : n < 16) : StateManager.fromHexChar (hexDigit n) = some n := by
  have hall : ∀ i : Fin 16, StateManager.fromHexChar (hexDigit i) = some i.val := by decide
  exact hall ⟨n, h⟩

theorem decodeHex_encodeHex (b : List Byte) : StateManager.decodeHex (encodeHex b) = some (b.map BitVec.toNat) := by
  induction b with
  | nil => rfl
  | cons x b ih =>
    have hx : x.toNat < 256 := x.isLt
    have hcons : encodeHex (x :: b) = hexDigit (x.toNat / 16) :: hexDigit (x.toNat % 16) :: encodeHex b := rfl
    rw [hcons, StateManager.decodeHex, fromHexChar_hexDigit (by omega), fromHexChar_hexDigit (by omega), ih, map_cons]
    show some ((16 * (x.toNat / 16) + x.toNat % 16) :: b.map BitVec.toNat) = _
    rw [Nat.div_add_mod]

theorem hexDecodeString_encodeHex (b : List Byte) : hexDecodeString ('0' :: 'x' :: encodeHex b) = some b := by
  have htrim : StateManager.trimHexMark ('0' :: 'x' :: encodeHex b) = encodeHex b := rfl
  have hbyte (x : Byte) : BitVec.ofNat 8 x.toNat = x := by
    rw [BitVec.ofNat_toNat, BitVec.setWidth_eq]
  rw [hexDecodeString, htrim, decodeHex_encodeHex, Option.map_some, map_map]
  exact congrArg some ((map_congr_left fun x _ => hbyte x).trans (map_id b))

section Json

variable {sc : Strconv}

theorem decodeQuotedHexString_marshal (b : List Byte) :
    decodeQuotedHexString sc (marshalHexBytesJSON sc b) = .ok b := by
  rw [decodeQuotedHexString, marshalHexBytesJSON, sc.unquote_quote, orThrow_some, ok_bind, hexDecodeString_encodeHex,
    orThrow_some]

theorem marshalHexBytesJSON_injective : Function.Injective (marshalHexBytesJSON sc) := by
  intro b b' h
  have hb := @decodeQuotedHexString_marshal sc b
  rw [h, decodeQuotedHexString_marshal] at hb
  exact (ok.inj hb).symm

namespace Account

variable {a a' : Account}

theorem unmarshal_marshal {x : AccountReader Account} {bytes rest : List Byte} (h : x bytes = .ok (a, rest)) :
    unmarshal sc x (marshalHexBytesJSON sc bytes) = .ok a := by
  rw [unmarshal, decodeQuotedHexString_marshal, ok_bind, h]
  rfl

theorem bytes_eq_of_marshal {w w' : Except Panic (List Byte)} (hw : ∃ bytes, w = .ok bytes)
    (hw' : ∃ bytes, w' = .ok bytes)
    (h : (w' >>= fun buf => pure (marshalHexBytesJSON sc buf)) = (w >>= fun buf => pure (marshalHexBytesJSON sc buf))) :
    w' = w := by
  obtain ⟨bytes, rfl⟩ := hw
  obtain ⟨bytes', rfl⟩ := hw'
  exact congrArg Except.ok (marshalHexBytesJSON_injective (ok.inj h))

variable [ElementBytes]

def RoundTrips (sc : Strconv) (a : Account) : Prop :=
  ∃ data, a.marshalJSON sc = .ok data ∧ ∀ old : Account, old.unmarshalJSON sc data = .ok a

def RoundTripsShomei (sc : Strconv) (a : Account) : Prop :=
  ∃ data, a.marshalJSONShomei sc = .ok data ∧ ∀ old : Account, old.unmarshalJSONShomei sc data = .ok a

/-- No other account has the same JSON, in either format, or the same encoding for the hash. -/
def Distinguished (sc : Strconv) (a : Account) : Prop :=
  ∀ a' : Account, a'.Valid → a' ≠ a →
    a'.marshalJSON sc ≠ a.marshalJSON sc ∧ a'.marshalJSONShomei sc ≠ a.marshalJSONShomei sc ∧
      a'.writeTo false ≠ a.writeTo false

theorem Valid.roundTrips (ha : a.Valid) : RoundTrips sc a := by
  obtain ⟨bytes, hwrite, hreads⟩ := writeTo_reads ha true
  refine ⟨marshalHexBytesJSON sc bytes, ?_, fun old => unmarshal_marshal (hreads old).run_nil⟩
  rw [marshalJSON, hwrite, ok_bind, pure_eq_ok]

theorem writeTo_injective (ha : a.Valid) (ha' : a'.Valid) (packed : Bool)
    (h : a'.writeTo packed = a.writeTo packed) : a' = a := by
  obtain ⟨bytes, hwrite, hreads⟩ := writeTo_reads ha packed
  obtain ⟨bytes', hwrite', hreads'⟩ := writeTo_reads ha' packed
  rw [hwrite, hwrite'] at h
  cases h
  exact (hreads' a).unique (hreads a)

theorem writeToShomeiTraces_injective (ha : a.Valid) (ha' : a'.Valid)
    (h : a'.writeToShomeiTraces = a.writeToShomeiTraces) : a' = a := by
  obtain ⟨b, hb, hlt⟩ := ha.balance
  obtain ⟨b', hb', hlt'⟩ := ha'.balance
  rw [writeToShomeiTraces_eq hb hlt, writeToShomeiTraces_eq hb' hlt'] at h
  exact shomeiBytes_injective ha' ha hb' hb hlt' hlt (ok.inj h)

theorem Valid.writes (ha : a.Valid) (packed : Bool) : ∃ bytes, a.writeTo packed = .ok bytes := by
  obtain ⟨bytes, hwrite, -⟩ := writeTo_reads ha packed
  exact ⟨bytes, hwrite⟩

theorem Valid.writesShomei (ha : a.Valid) : ∃ bytes, a.writeToShomeiTraces = .ok bytes := by
  obtain ⟨b, hb, hlt⟩ := ha.balance
  exact ⟨_, writeToShomeiTraces_eq hb hlt⟩

theorem Valid.distinguished (ha : a.Valid) : Distinguished sc a := by
  intro a' ha' hne
  refine ⟨fun h => hne ?_, fun h => hne ?_, fun h => hne (writeTo_injective ha ha' false h)⟩
  · exact writeTo_injective ha ha' true (bytes_eq_of_marshal (ha.writes true) (ha'.writes true) h)
  · exact writeToShomeiTraces_injective ha ha' (bytes_eq_of_marshal ha.writesShomei ha'.writesShomei h)

theorem Valid.unmarshalJSONShomei (sc : Strconv) (ha : a.Valid) : ∃ data, a.marshalJSONShomei sc = .ok data ∧
    ∀ old : Account, old.unmarshalJSONShomei sc data = .ok { a with codeSize := 0 } := by
  obtain ⟨b, hb, hlt⟩ := ha.balance
  refine ⟨marshalHexBytesJSON sc (a.shomeiBytes b), ?_, fun old => ?_⟩
  · rw [marshalJSONShomei, writeToShomeiTraces_eq hb hlt, ok_bind, pure_eq_ok]
  · obtain ⟨rest, hread⟩ := readFromShomeiTraces_shomeiBytes ha hb hlt old
    exact unmarshal_marshal hread

/-- The account is decoded from its JSON in either format, and its serialisations are its own. -/
def SerialisesFaithfully (sc : Strconv) (a : Account) : Prop :=
  RoundTrips sc a ∧ RoundTripsShomei sc a ∧ Distinguished sc a

theorem serialisesFaithfully_iff (sc : Strconv) (a : Account) (ha : a.Valid) :
    (SerialisesFaithfully sc a ↔ a.codeSize = 0) ∧ RoundTrips sc a ∧ Distinguished sc a := by
  refine ⟨⟨fun h => ?_, fun h => ⟨ha.roundTrips, ?_, ha.distinguished⟩⟩, ha.roundTrips, ha.distinguished⟩
  · obtain ⟨-, ⟨data, hdata, hold⟩, -⟩ := h
    obtain ⟨data', hdata', hold'⟩ := ha.unmarshalJSONShomei sc
    cases hdata.symm.trans hdata'
    have hsame := (hold a).symm.trans (hold' a)
    exact congrArg Account.codeSize (ok.inj hsame)
  · have hzero : { a with codeSize := 0 } = a := by
      rw [← h]
    have hround := ha.unmarshalJSONShomei sc
    rw [hzero] at hround
    exact hround

end Account

end Json

def quotationMarks : Strconv where
  quote s := '"' :: (s ++ ['"'])
  unquote
    | '"' :: rest => if rest.getLast? = some '"' then some rest.dropLast else none
    | _ => none
  unquote_quote s := by
    have hlast : (s ++ ['"']).getLast? = some '"' := getLast?_concat
    show (if (s ++ ['"']).getLast? = some '"' then some (s ++ ['"']).dropLast else none) = _
    rw [if_pos hlast, dropLast_concat]

instance bigEndian : ElementBytes where
  bytes x := beBytes 4 x.val
  setBytesCanonical segment :=
    if ofBeBytes segment < Koalabear.modulus then some (ofBeBytes segment : Nat) else none
  length_bytes _ := Evm.length_beBytes 4 _
  setBytesCanonical_bytes x := by
    have hx : x.val < Koalabear.modulus := x.val_lt
    have hbytes : ofBeBytes (beBytes 4 x.val) = x.val := by
      rw [Evm.ofBeBytes_beBytes, Nat.mod_eq_of_lt (hx.trans (by decide))]
    rw [hbytes, if_pos hx, ZMod.natCast_zmod_val]

def eoa : Account := ⟨65, some 835, 0, 0, 0, 0⟩

def contract : Account := { eoa with codeSize := 1 }

theorem eoa_valid : eoa.Valid := ⟨by decide, by decide, 835, rfl, by norm_num⟩

theorem contract_valid : contract.Valid := ⟨by decide, by decide, 835, rfl, by norm_num⟩

theorem serialisesFaithfully_eoa : eoa.Valid ∧ eoa.SerialisesFaithfully quotationMarks :=
  ⟨eoa_valid, (Account.serialisesFaithfully_iff quotationMarks eoa eoa_valid).1.2 rfl⟩

/-- The account with a byte of code comes back from the format of the Shomei traces as the one without. -/
theorem contract_unmarshalled :
    contract.Valid ∧ contract ≠ eoa ∧ ∃ data, contract.marshalJSONShomei quotationMarks = .ok data ∧
      eoa.unmarshalJSONShomei quotationMarks data = .ok eoa := by
  refine ⟨contract_valid, fun h => absurd (congrArg Account.codeSize h) (by decide), ?_⟩
  obtain ⟨data, hdata, hold⟩ := contract_valid.unmarshalJSONShomei quotationMarks
  exact ⟨data, hdata, hold eoa⟩

end Lineth.Types
