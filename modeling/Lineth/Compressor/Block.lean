import Lineth.Lib.ByteReader
import Lineth.Lib.Rlp

/-!
# Blocks as they are compressed

A block is encoded by the number of its transactions, its timestamp, its hash and, for each transaction, the sender
and the bytes that were signed. `ScanBlockByteLen` finds the length of a block by passing over the transactions, each
of which is an RLP list after an optional type byte. -/

namespace Lineth.Compressor

open Except List Nat ByteReader Rlp
open Evm (Byte Address Word beBytes ofBeBytes)
open Rlp (Item)

/-! ### Transactions -/

structure SetCodeAuthorization where
  chainId : Nat
  address : Address
  nonce : Nat
  v : Nat
  r : Nat
  s : Nat

/-- A decoded transaction; `sender` is absent when it cannot be recovered from the signature. -/
structure Transaction where
  type : Byte
  isProtected : Bool
  sender : Option Address
  chainId : Nat
  nonce : Nat
  gasPrice : Nat
  gasTipCap : Nat
  gasFeeCap : Nat
  gas : Nat
  recipient : Option Address
  value : Nat
  data : List Byte
  accessList : List (Address × List Word)
  setCodeAuthorizations : List SetCodeAuthorization

def legacyTxType : Byte := 0

def accessListTxType : Byte := 1

def dynamicFeeTxType : Byte := 2

def setCodeTxType : Byte := 4

def addressBytes (a : Address) : List Byte := beBytes 20 a.toNat

def addressItem (a : Address) : Item := .bytes (addressBytes a)

def Transaction.toItem (tx : Transaction) : Item :=
  match tx.recipient with
  | none => .bytes []
  | some a => addressItem a

def Transaction.accessListItem (tx : Transaction) : Item :=
  .list (tx.accessList.map fun t => .list [addressItem t.1, .list (t.2.map fun key => .bytes (Evm.toBytes key))])

def SetCodeAuthorization.item (a : SetCodeAuthorization) : Item :=
  .list [.nat a.chainId, addressItem a.address, .nat a.nonce, .nat a.v, .nat a.r, .nat a.s]

/-- What is signed of a transaction: the bytes before the list, and the fields in the list. -/
def Transaction.signingFields (tx : Transaction) : Option (List Byte × List Item) :=
  if tx.type = dynamicFeeTxType then
    some ([tx.type], [.nat tx.chainId, .nat tx.nonce, .nat tx.gasTipCap, .nat tx.gasFeeCap, .nat tx.gas, tx.toItem,
      .nat tx.value, .bytes tx.data, tx.accessListItem])
  else if tx.type = accessListTxType then
    some ([tx.type], [.nat tx.chainId, .nat tx.nonce, .nat tx.gasPrice, .nat tx.gas, tx.toItem, .nat tx.value,
      .bytes tx.data, tx.accessListItem])
  else if tx.type = legacyTxType ∧ tx.isProtected = true then
    some ([], [.nat tx.nonce, .nat tx.gasPrice, .nat tx.gas, tx.toItem, .nat tx.value, .bytes tx.data,
      .nat tx.chainId, .nat 0, .nat 0])
  else if tx.type = legacyTxType ∧ tx.isProtected = false then
    some ([], [.nat tx.nonce, .nat tx.gasPrice, .nat tx.gas, tx.toItem, .nat tx.value, .bytes tx.data])
  else if tx.type = setCodeTxType then
    some ([tx.type], [.nat tx.chainId, .nat tx.nonce, .nat tx.gasTipCap, .nat tx.gasFeeCap, .nat tx.gas, tx.toItem,
      .nat tx.value, .bytes tx.data, tx.accessListItem, .list (tx.setCodeAuthorizations.map (·.item))])
  else none

/-- What goes wrong in the encoding; all but the first are panics. -/
inductive EncodeError
  | nilTransactions
  | senderRecoveryFailed
  | unknownTransactionType
  deriving DecidableEq, Repr

def EncodeError.panics : EncodeError → Bool
  | .nilTransactions => false
  | .senderRecoveryFailed | .unknownTransactionType => true

section

variable (rlp : Encoder)

def encodeTxForSigning (tx : Transaction) : Except EncodeError (List Byte) :=
  match tx.signingFields with
  | none => throw .unknownTransactionType
  | some (typeBytes, fields) => return typeBytes ++ rlp.encode (.list fields)

def getFrom (tx : Transaction) : Except EncodeError Address :=
  match tx.sender with
  | none => throw .senderRecoveryFailed
  | some a => return a

def encodeTxForCompression (tx : Transaction) : Except EncodeError (List Byte) := do
  let sender ← getFrom tx
  let txRlp ← encodeTxForSigning rlp tx
  return addressBytes sender ++ txRlp

def encodeTxs : List Transaction → Except EncodeError (List Byte)
  | [] => return []
  | tx :: txs => do
    let e ← encodeTxForCompression rlp tx
    let es ← encodeTxs txs
    return e ++ es

/-! ### Blocks -/

/-- A decoded block; the list of transactions may be `nil`. -/
structure Block where
  time : UInt64
  hash : Word
  transactions : Option (List Transaction)

/-- `EncodeBlockForCompression`: the number of transactions is cut to 16 bits and the timestamp to 32. -/
def encodeBlockForCompression (block : Block) : Except EncodeError (List Byte) :=
  match block.transactions with
  | none => throw .nilTransactions
  | some transactions => do
    let txs ← encodeTxs rlp transactions
    return beBytes 2 transactions.length ++ beBytes 4 block.time.toNat ++ Evm.toBytes block.hash ++ txs

end

/-! ### Scanning -/

inductive ScanError
  | nbTxs
  | txPrefix
  | firstByte
  | notAnRlpList
  deriving DecidableEq, Repr

def orScanError {α : Type} (e : ScanError) (x : Except ByteReader.Error α) : Except ScanError α :=
  match x with
  | .ok a => .ok a
  | .error _ => .error e

def passRlpList (r : ByteReader) : Except ScanError ByteReader := do
  let (firstByte, r) ← orScanError .firstByte r.readByte
  if firstByte < 0xc0 then throw .notAnRlpList
  if firstByte ≤ 0xf7 then
    return r.seekCurrent (BitVec.ofNat 64 (firstByte.toNat - 0xc0))
  else
    let l := firstByte.toNat - 0xf7
    -- the bytes go to the end of a zeroed buffer of eight; what is missing stays zero
    let (bs, r) := r.read l
    let payloadLen := ofBeBytes (bs ++ replicate (l - bs.length) 0)
    return r.seekCurrent (BitVec.ofNat 64 payloadLen)

def scanTx (r : ByteReader) : Except ScanError ByteReader := do
  let r := r.seekCurrent 20
  let (txPrefix, r') ← orScanError .txPrefix r.readByte
  if txPrefix.toNat > 0xc0 then
    let r ← orScanError .txPrefix r'.unreadByte
    passRlpList r
  else passRlpList r'

def scanTxs : Nat → ByteReader → Except ScanError ByteReader
  | 0, r => return r
  | n + 1, r => do
    let r ← scanTx r
    scanTxs n r

def scanBlockByteLen (b : List Byte) : Except ScanError Nat := do
  let (decNumTxs, r) ← orScanError .nbTxs (readFull ⟨b, 0⟩ 2)
  let r := r.seekCurrent 36
  let r ← scanTxs (ofBeBytes decNumTxs) r
  return r.size - r.len

/-! ### Scanning what was encoded -/

open ByteReader (between)

variable {rlp : Encoder} {pre rest payload e : List Byte} {tx : Transaction} {txs : List Transaction}

theorem passRlpList_between (hlt : (pre ++ (header 0xc0 payload.length ++ payload)).length < 2 ^ 63) :
    passRlpList (between pre (header 0xc0 payload.length ++ payload ++ rest)) =
      .ok (between (pre ++ (header 0xc0 payload.length ++ payload)) rest) := by
  rcases lt_or_ge 55 payload.length with hlen | hlen
  · -- the length stands in the `l` bytes after the first one
    have hheader : header 0xc0 payload.length =
        BitVec.ofNat 8 (0xf7 + byteLen payload.length) :: natBytes payload.length := if_neg (by omega)
    have hl : byteLen payload.length ≤ 8 := by
      refine byteLen_le (lt_trans ?_ hlt |>.trans (by decide))
      rw [hheader, length_append, length_append, length_cons]
      omega
    have hpos : 0 < byteLen payload.length := byteLen_pos (by omega)
    have hbyte : (BitVec.ofNat 8 (0xf7 + byteLen payload.length)).toNat = 0xf7 + byteLen payload.length := by
      rw [BitVec.toNat_ofNat, mod_eq_of_lt (by omega)]
    have hnat : (natBytes payload.length).length = byteLen payload.length := Evm.length_beBytes _ _
    rw [hheader] at hlt ⊢
    generalize hb : BitVec.ofNat 8 (0xf7 + byteLen payload.length) = b at hbyte hlt ⊢
    have hread : (between (pre ++ [b]) (natBytes payload.length ++ (payload ++ rest))).read (b.toNat - 0xf7) =
        (natBytes payload.length, between (pre ++ [b] ++ natBytes payload.length) (payload ++ rest)) := by
      rw [hbyte, Nat.add_sub_cancel_left, ← hnat]
      exact read_between
    have hseek : (between (pre ++ [b] ++ natBytes payload.length) (payload ++ rest)).seekCurrent
        (BitVec.ofNat 64 payload.length) = between (pre ++ [b] ++ natBytes payload.length ++ payload) rest :=
      seekCurrent_between rfl (by simpa using hlt)
    unfold passRlpList
    rw [cons_append, cons_append, readByte_between, append_assoc]
    simp only [orScanError, ok_bind]
    rw [if_neg (by rw [BitVec.lt_def, hbyte]; show ¬ _ < 0xc0; omega),
      if_neg (by rw [BitVec.le_def, hbyte]; show ¬ _ ≤ 0xf7; omega), hread]
    simp only [hbyte, Nat.add_sub_cancel_left, hnat, Nat.sub_self, replicate_zero, append_nil,
      ofBeBytes_natBytes, hseek]
    simp
  · have hheader : header 0xc0 payload.length = [BitVec.ofNat 8 (0xc0 + payload.length)] := if_pos (by omega)
    have hbyte : (BitVec.ofNat 8 (0xc0 + payload.length)).toNat = 0xc0 + payload.length := by
      rw [BitVec.toNat_ofNat, mod_eq_of_lt (by omega)]
    rw [hheader] at hlt ⊢
    generalize hb : BitVec.ofNat 8 (0xc0 + payload.length) = b at hbyte hlt ⊢
    have hseek : (between (pre ++ [b]) (payload ++ rest)).seekCurrent (BitVec.ofNat 64 payload.length) =
        between (pre ++ [b] ++ payload) rest := seekCurrent_between rfl (by simpa using hlt)
    unfold passRlpList
    rw [cons_append, cons_append, nil_append, readByte_between]
    simp only [orScanError, ok_bind]
    rw [if_neg (by rw [BitVec.lt_def, hbyte]; show ¬ _ < 0xc0; omega),
      if_pos (by rw [BitVec.le_def, hbyte]; show _ ≤ 0xf7; omega), hbyte, Nat.add_sub_cancel_left, hseek]
    simp

theorem signingFields_shape {typeBytes : List Byte} {fields : List Item}
    (h : tx.signingFields = some (typeBytes, fields)) :
    (typeBytes = [] ∨ ∃ t : Byte, typeBytes = [t] ∧ t.toNat ≤ 0xc0) ∧ fields ≠ [] := by
  have htyped : ∀ t : Byte, t.toNat ≤ 0xc0 → tx.type = t → ∃ t' : Byte, [tx.type] = [t'] ∧ t'.toNat ≤ 0xc0 := by
    rintro t ht rfl
    exact ⟨_, rfl, ht⟩
  unfold Transaction.signingFields at h
  split_ifs at h with h₁ h₂ h₃ h₄ h₅
  · cases h
    exact ⟨.inr (htyped _ (by decide) h₁), cons_ne_nil _ _⟩
  · cases h
    exact ⟨.inr (htyped _ (by decide) h₂), cons_ne_nil _ _⟩
  · cases h
    exact ⟨.inl rfl, cons_ne_nil _ _⟩
  · cases h
    exact ⟨.inl rfl, cons_ne_nil _ _⟩
  · cases h
    exact ⟨.inr (htyped _ (by decide) h₅), cons_ne_nil _ _⟩

theorem encodeTx_shape (h : encodeTxForCompression rlp tx = .ok e) : ∃ sender typeBytes payload : List Byte,
    e = sender ++ (typeBytes ++ (header 0xc0 payload.length ++ payload)) ∧ sender.length = 20 ∧ payload ≠ [] ∧
      (typeBytes = [] ∨ ∃ t : Byte, typeBytes = [t] ∧ t.toNat ≤ 0xc0) := by
  obtain ⟨sender, -, h⟩ := bind_eq_ok.mp h
  obtain ⟨txRlp, hrlp, h⟩ := bind_eq_ok.mp h
  rw [pure_eq_ok, ok.injEq] at h
  subst h
  unfold encodeTxForSigning at hrlp
  split at hrlp
  · cases hrlp
  · rename_i typeBytes fields hfields
    cases hrlp
    obtain ⟨htype, hne⟩ := signingFields_shape hfields
    refine ⟨addressBytes sender, typeBytes, fields.flatMap rlp.encode, ?_, Evm.length_beBytes _ _, ?_, htype⟩
    · rw [rlp.encode_list]
    · obtain ⟨item, items, rfl⟩ := exists_cons_of_ne_nil hne
      exact append_ne_nil_of_left_ne_nil (rlp.encode_ne_nil item) _

theorem header_cons (hne : payload ≠ []) (hlt : payload.length < 2 ^ 64) :
    ∃ b bs, header 0xc0 payload.length = b :: bs ∧ b.toNat > 0xc0 := by
  have hpos := length_pos_iff.mpr hne
  unfold header
  split
  · refine ⟨_, _, rfl, ?_⟩
    rw [BitVec.toNat_ofNat, mod_eq_of_lt (by omega)]
    omega
  · have hl : byteLen payload.length ≤ 8 := byteLen_le hlt
    refine ⟨_, _, rfl, ?_⟩
    rw [BitVec.toNat_ofNat, mod_eq_of_lt (by omega)]
    omega

theorem scanTx_between (h : encodeTxForCompression rlp tx = .ok e) (hlt : (pre ++ e).length < 2 ^ 63) :
    scanTx (between pre (e ++ rest)) = .ok (between (pre ++ e) rest) := by
  obtain ⟨sender, typeBytes, payload, rfl, hsender, hne, htype⟩ := encodeTx_shape h
  set list := header 0xc0 payload.length ++ payload with hlist
  have hpre : (pre ++ sender).length < 2 ^ 63 := by
    refine lt_of_le_of_lt ?_ hlt
    simp only [length_append]
    omega
  have hseek : (between pre (sender ++ (typeBytes ++ list) ++ rest)).seekCurrent 20 =
      between (pre ++ sender) (typeBytes ++ list ++ rest) := by
    rw [append_assoc]
    exact seekCurrent_between hsender hpre
  unfold scanTx
  simp only [hseek]
  rcases htype with rfl | ⟨t, rfl, ht⟩
  · -- no type byte: the byte read is the first one of the list and is put back
    have hpay : payload.length < 2 ^ 64 := by
      rw [hlist] at hlt
      simp only [length_append] at hlt
      omega
    obtain ⟨b, bs, hb, hgt⟩ := header_cons hne hpay
    have hcons : list = b :: (bs ++ payload) := by rw [hlist, hb, cons_append]
    have hpass : passRlpList (between (pre ++ sender) (list ++ rest)) = .ok (between (pre ++ sender ++ list) rest) :=
      passRlpList_between (by rw [← hlist]; simpa using hlt)
    rw [nil_append, hcons, cons_append, readByte_between]
    simp only [orScanError, ok_bind]
    rw [if_pos hgt, unreadByte_between]
    simp only [ok_bind]
    rw [← cons_append, ← hcons, hpass, append_assoc]
  · have hpass : passRlpList (between (pre ++ sender ++ [t]) (list ++ rest)) =
        .ok (between (pre ++ sender ++ [t] ++ list) rest) := passRlpList_between (by rw [← hlist]; simpa using hlt)
    rw [append_assoc [t], singleton_append, readByte_between]
    simp only [orScanError, ok_bind]
    rw [if_neg (by omega), hpass]
    simp

theorem scanTxs_between (h : encodeTxs rlp txs = .ok e) (hlt : (pre ++ e).length < 2 ^ 63) :
    scanTxs txs.length (between pre (e ++ rest)) = .ok (between (pre ++ e) rest) := by
  induction txs generalizing pre e with
  | nil =>
    cases h
    rw [append_nil]
    rfl
  | cons tx txs ih =>
    obtain ⟨e₁, h₁, h⟩ := bind_eq_ok.mp h
    obtain ⟨es, hes, h⟩ := bind_eq_ok.mp h
    cases h
    rw [← append_assoc] at hlt
    have hlt₁ : (pre ++ e₁).length < 2 ^ 63 := by
      rw [length_append] at hlt
      omega
    rw [length_cons, scanTxs, append_assoc e₁, scanTx_between h₁ hlt₁, ok_bind, ih hes hlt,
      append_assoc]

theorem length_encodeTxs (h : encodeTxs rlp txs = .ok e) : 21 * txs.length ≤ e.length := by
  induction txs generalizing e with
  | nil => exact zero_le _
  | cons tx txs ih =>
    obtain ⟨e₁, h₁, h⟩ := bind_eq_ok.mp h
    obtain ⟨es, hes, h⟩ := bind_eq_ok.mp h
    cases h
    obtain ⟨sender, typeBytes, payload, rfl, hsender, hne, -⟩ := encodeTx_shape h₁
    have hpos := length_pos_iff.mpr hne
    have := ih hes
    simp only [length_append, length_cons]
    omega

/-- The length of an encoded block is found from its bytes, whatever follows them. The bound keeps the number of
transactions within 16 bits. -/
theorem scanBlockByteLen_encode {block : Block} (h : encodeBlockForCompression rlp block = .ok e)
    (hlen : e.length < 2 ^ 20) (rest : List Byte) : scanBlockByteLen (e ++ rest) = .ok e.length := by
  unfold encodeBlockForCompression at h
  split at h
  · cases h
  rename_i transactions htxs
  obtain ⟨txs, ht, h⟩ := bind_eq_ok.mp h
  cases h
  have hcount := length_encodeTxs ht
  set time := beBytes 4 block.time.toNat with htime
  set hash := Evm.toBytes block.hash with hhash
  have hnb : (beBytes 2 transactions.length).length = 2 := Evm.length_beBytes _ _
  have hskip : (time ++ hash).length = 36 := by
    rw [length_append, htime, hhash, Evm.length_beBytes, Evm.length_toBytes]
  have hnum : ofBeBytes (beBytes 2 transactions.length) = transactions.length := by
    rw [Evm.ofBeBytes_beBytes, mod_eq_of_lt]
    simp only [length_append] at hlen
    omega
  have hread : readFull ⟨beBytes 2 transactions.length ++ time ++ hash ++ txs ++ rest, 0⟩ 2 =
      .ok (beBytes 2 transactions.length, between (beBytes 2 transactions.length) (time ++ hash ++ (txs ++ rest))) := by
    have h : (between [] (beBytes 2 transactions.length ++ (time ++ hash ++ (txs ++ rest)))).readFull 2 = _ :=
      readFull_between hnb
    simpa [between] using h
  have hseek : (between (beBytes 2 transactions.length) (time ++ hash ++ (txs ++ rest))).seekCurrent 36 =
      between (beBytes 2 transactions.length ++ (time ++ hash)) (txs ++ rest) :=
    seekCurrent_between hskip (by rw [length_append, hnb, hskip]; decide)
  have hscan : scanTxs transactions.length (between (beBytes 2 transactions.length ++ (time ++ hash))
    (txs ++ rest)) = _ :=
    scanTxs_between ht (by simp only [length_append] at hlen ⊢; omega)
  unfold scanBlockByteLen
  rw [hread]
  simp only [orScanError, ok_bind]
  rw [hnum, hseek, hscan, ok_bind, size_sub_len_between]
  simp

theorem length_encodeBlock {block : Block} (h : encodeBlockForCompression rlp block = .ok e) : 38 ≤ e.length := by
  unfold encodeBlockForCompression at h
  split at h
  · cases h
  obtain ⟨txs, -, h⟩ := bind_eq_ok.mp h
  cases h
  simp only [length_append, Evm.length_beBytes, Evm.length_toBytes]
  omega

end Lineth.Compressor
