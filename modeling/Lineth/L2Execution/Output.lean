import Mathlib.Data.List.Chain
import Mathlib.Data.List.Pairwise
import Mathlib.Data.List.Sort
import Lineth.L2Execution.ForcedTransactions

/-!
# What the output says

The blocks of an accepted input are a chain that the engine executed. The output names its two ends, lists the messages
that the bridge's logs announce, with the blocks they are in, and the last anchored pair. The numbers of the forced
transactions follow one another over all blocks, and each address that was filtered is listed once, in order. -/

namespace Lineth.L2Execution

open Evm Except Acceptance List

/-! ### The content of a block -/

/-- A block of the range, its position there, and what the engine made of it. -/
structure Block where
  input : LineaPayloadInput
  stateless : StatelessInput
  index : Nat
  result : EngineResult

section

variable (l2Ms : Address) (logs : List Log)

/-- The bridge's logs with a topic. -/
def bridgeLogs (topic0 : Word) : List Log :=
  logs.filter fun log => log.address = l2Ms ∧ log.topics.head? = some topic0

def messagesIn : List Word := (bridgeLogs l2Ms logs bridgeL2L1MessageSentTopic0).map fun log => log.topics.getD 3 0

/-- The rolling hash and the number of the last anchoring, if there is one. -/
def pairIn : Word × Nat :=
  ((bridgeLogs l2Ms logs bridgeRollingHashUpdatedTopic0).getLast?.map fun log =>
    (log.topics.getD 2 0, (log.topics.getD 1 0).toNat)).getD (0, 0)

end

namespace Block

variable (b : Block) (l2Ms : Address)

def payload : ExecutionPayload := b.stateless.payload

/-- The logs that are scanned: none without a bridge. -/
def logs : List Log := if l2Ms = 0 then [] else b.result.receipts.flatMap Receipt.logs

def messages : List Word := messagesIn l2Ms (b.logs l2Ms)

def anchored : Word × Nat := pairIn l2Ms (b.logs l2Ms)

end Block

section

variable (l2Ms : Address) (bs : List Block)

def messagesOf : List Word := bs.flatMap (Block.messages · l2Ms)

/-- The blocks with messages, counted from 1. -/
def offsetsOf : List Nat := (bs.filter fun b => b.messages l2Ms ≠ []).map (Block.index · + 1)

/-- The pair of the last block that anchors a message, if there is one. -/
def bridgeOf : Word × Nat :=
  (((bs.map (Block.anchored · l2Ms)).filter fun pair => pair.2 ≠ 0).getLast?).getD (0, 0)

def sendersOf : List Address := bs.flatMap fun b => b.result.receipts.map Receipt.from_

def forcedOf : List ForcedTransactionWitness := bs.flatMap fun b => b.input.forcedTransactions

end

section

variable (host : Host) (chainId : BitVec 64)

def senderOf (ftx : ForcedTransactionWitness) : Option Address :=
  (host.decodeTx ftx.signedTxRlp).bind fun tx => host.recoverSender tx chainId

/-- The address that is reported for a forced transaction. -/
def reported (ftx : ForcedTransactionWitness) : List Address :=
  if ftx.acceptance = filteredAddressFrom then (senderOf host chainId ftx).toList
  else if ftx.acceptance = filteredAddressTo then ((host.decodeTx ftx.signedTxRlp).bind Transaction.to_).toList
  else []

def roll (rollingHash : Word) (ftx : ForcedTransactionWitness) : Word :=
  addToForcedTxRollingHash host rollingHash (host.keccak ftx.signedTxRlp) ftx.deadline
    ((senderOf host chainId ftx).getD 0)

end

/-! ### Forced transactions -/

section

variable {host : Host} {chainId : BitVec 64} {payload : ExecutionPayload} {preStateRoot : Word}
  {nodes : List (List Byte)} {st₀ st st' : FtxState} {ftxs ftxs' : List ForcedTransactionWitness}
  {ftx : ForcedTransactionWitness}

/-- The forced transactions between two states. -/
structure Forced (host : Host) (chainId : BitVec 64) (st₀ : FtxState) (ftxs : List ForcedTransactionWitness)
    (st : FtxState) : Prop where
  numbers : ftxs.map (fun ftx => ftx.number.toNat) = range' (st₀.lastProcessedNumber.toNat + 1) ftxs.length
  number : st.lastProcessedNumber.toNat = st₀.lastProcessedNumber.toNat + ftxs.length
  rollingHash : st.rollingHash = ftxs.foldl (roll host chainId) st₀.rollingHash
  rejected : st.rejected = st₀.rejected ++ ftxs.flatMap (reported host chainId)

theorem Forced.refl : Forced host chainId st [] st := ⟨rfl, rfl, rfl, (append_nil _).symm⟩

theorem Forced.trans (h : Forced host chainId st₀ ftxs st) (h' : Forced host chainId st ftxs' st') :
    Forced host chainId st₀ (ftxs ++ ftxs') st' where
  numbers := by
    rw [map_append, h.numbers, h'.numbers, h.number, length_append, ← range'_append_1, Nat.add_right_comm]
  number := by rw [h'.number, h.number, length_append, Nat.add_assoc]
  rollingHash := by rw [h'.rollingHash, h.rollingHash, foldl_append]
  rejected := by rw [h'.rejected, h.rejected, flatMap_append, append_assoc]

/-- The addresses rejected before are kept in front. -/
theorem Forced.frame {rollingHash : Word} {number : BitVec 64}
    (h : Forced host chainId ⟨rollingHash, number, []⟩ ftxs st) (rejected : List Address) :
    Forced host chainId ⟨rollingHash, number, rejected⟩ ftxs { st with rejected := rejected ++ st.rejected } :=
  ⟨h.numbers, h.number, h.rollingHash, congrArg (rejected ++ ·) h.rejected⟩

theorem checkOutcome_reported {tx : Transaction} {fromAddress : Address} {addresses : List Address}
    (htx : host.decodeTx ftx.signedTxRlp = some tx) (hfrom : host.recoverSender tx chainId = some fromAddress)
    (h : checkOutcome host payload preStateRoot nodes tx.toTxInput fromAddress (host.keccak ftx.signedTxRlp)
      ftx.acceptance = .ok addresses) :
    addresses = reported host chainId ftx := by
  rw [checkOutcome] at h
  rw [reported, senderOf, htx, Option.bind_some, Option.bind_some, hfrom]
  by_cases hf : ftx.acceptance = filteredAddressFrom
  · rw [if_pos hf] at h ⊢
    cases h
    rfl
  rw [if_neg hf] at h ⊢
  by_cases ht : ftx.acceptance = filteredAddressTo
  · rw [if_pos ht, toTxInput_to] at h
    rw [if_pos ht]
    obtain ⟨to_, hto, h⟩ := bind_eq_ok.1 h
    cases h
    rw [orThrow_eq_ok.1 hto]
    rfl
  · rw [if_neg ht] at h ⊢
    -- included, or declared invalid: no address is reported
    by_cases hi : ftx.acceptance = included
    · simp only [if_pos hi, bind_eq_ok, pure_eq_ok] at h
      obtain ⟨-, -, h⟩ := h
      cases h
      rfl
    · simp only [if_neg hi, bind_eq_ok, pure_eq_ok] at h
      obtain ⟨-, -, -, -, -, -, h⟩ := h
      cases h
      rfl

theorem validateForcedTransaction_spec
    (h : validateForcedTransaction host chainId payload preStateRoot nodes st ftx = .ok st') :
    payload.blockNumber ≤ ftx.deadline ∧ Forced host chainId st [ftx] st' := by
  simp only [validateForcedTransaction, bind_eq_ok, failIf_eq_ok, orThrow_eq_ok, not_not] at h
  obtain ⟨-, -, -, hnumber, -, hdeadline, tx, htx, fromAddress, hfrom, addresses, houtcome, h⟩ := h
  cases h
  have hsender : senderOf host chainId ftx = some fromAddress := by
    rw [senderOf, htx]
    exact hfrom
  refine ⟨BitVec.not_lt.1 hdeadline, ?_, hnumber, ?_, ?_⟩
  · rw [map_singleton, hnumber]
    rfl
  · rw [foldl_cons, foldl_nil, roll, hsender]
    rfl
  · rw [checkOutcome_reported htx hfrom houtcome, flatMap_singleton]

theorem validateForcedTransactions_spec
    (h : validateForcedTransactions host chainId payload preStateRoot nodes st ftxs = .ok st') :
    (∀ ftx ∈ ftxs, payload.blockNumber ≤ ftx.deadline) ∧ Forced host chainId st ftxs st' := by
  refine foldlM_visited (fun visited st' => (∀ ftx ∈ visited, payload.blockNumber ≤ ftx.deadline) ∧
    Forced host chainId st visited st') ⟨forall_mem_nil _, .refl⟩ ?_ h
  rintro visited ftx st₁ st₂ ⟨hdeadlines, hforced⟩ hstep
  obtain ⟨hdeadline, hone⟩ := validateForcedTransaction_spec hstep
  exact ⟨forall_mem_append.2 ⟨hdeadlines, forall_mem_singleton.2 hdeadline⟩, hforced.trans hone⟩

end

/-! ### The bridge's logs -/

section

variable {l2Ms : Address} {topic0 : Word} {messages : List Word} {logs : List Log} {log : Log}
  {st st' : List Word × L2MessageServiceScan}

/-- What the scan has found after some logs, with the messages of the blocks before in front. -/
structure Scanned (l2Ms : Address) (messages : List Word) (logs : List Log) (st : List Word × L2MessageServiceScan) :
    Prop where
  messages : st.1 = messages ++ messagesIn l2Ms logs
  hasMessages : st.2.hasMessages = true ↔ messagesIn l2Ms logs ≠ []
  rollingHash : (st.2.rollingHash.hash, st.2.rollingHash.number.toNat) = pairIn l2Ms logs

theorem bridgeLogs_concat_of (h : log.address = l2Ms ∧ log.topics.head? = some topic0) :
    bridgeLogs l2Ms (logs ++ [log]) topic0 = bridgeLogs l2Ms logs topic0 ++ [log] := by
  rw [bridgeLogs, filter_append, filter_singleton, decide_eq_true h]
  rfl

theorem bridgeLogs_concat_of_not (h : ¬ (log.address = l2Ms ∧ log.topics.head? = some topic0)) :
    bridgeLogs l2Ms (logs ++ [log]) topic0 = bridgeLogs l2Ms logs topic0 := by
  rw [bridgeLogs, filter_append, filter_singleton, decide_eq_false h]
  exact append_nil _

theorem scanned_nil : Scanned l2Ms messages [] (messages, ⟨false, ⟨0, 0⟩⟩) :=
  ⟨(append_nil _).symm, by simp [messagesIn, bridgeLogs], rfl⟩

theorem Scanned.scanLog (h : Scanned l2Ms messages logs st) (hlog : scanLog l2Ms st log = .ok st') :
    Scanned l2Ms messages (logs ++ [log]) st' := by
  have hmessages (hsent : ¬ (log.address = l2Ms ∧ log.topics.head? = some bridgeL2L1MessageSentTopic0)) :
      messagesIn l2Ms (logs ++ [log]) = messagesIn l2Ms logs := by
    rw [messagesIn, bridgeLogs_concat_of_not hsent, messagesIn]
  have hpair (hupdated : ¬ (log.address = l2Ms ∧ log.topics.head? = some bridgeRollingHashUpdatedTopic0)) :
      pairIn l2Ms (logs ++ [log]) = pairIn l2Ms logs := by
    rw [pairIn, bridgeLogs_concat_of_not hupdated, pairIn]
  rw [L2Execution.scanLog] at hlog
  by_cases hskip : log.address ≠ l2Ms ∨ log.topics.length = 0
  · rw [if_pos hskip] at hlog
    cases hlog
    have hno (t : Word) : ¬ (log.address = l2Ms ∧ log.topics.head? = some t) := by
      rintro ⟨haddress, htopic⟩
      rcases hskip with hne | hnil
      · exact hne haddress
      · rw [length_eq_zero_iff.1 hnil] at htopic
        cases htopic
    exact ⟨hmessages (hno _) ▸ h.messages, hmessages (hno _) ▸ h.hasMessages, hpair (hno _) ▸ h.rollingHash⟩
  rw [if_neg hskip] at hlog
  have hiff (t : Word) : log.topics.getD 0 0 = t ↔ log.address = l2Ms ∧ log.topics.head? = some t := by
    rw [not_or, not_not] at hskip
    rw [and_iff_right hskip.1]
    cases htopics : log.topics with
    | nil => exact absurd (congrArg length htopics) hskip.2
    | cons t' topics => simp
  by_cases hsent : log.topics.getD 0 0 = bridgeL2L1MessageSentTopic0
  · simp only [if_pos hsent, bind_eq_ok, pure_eq_ok] at hlog
    obtain ⟨-, -, hlog⟩ := hlog
    cases hlog
    have hdiffer : log.topics.getD 0 0 ≠ bridgeRollingHashUpdatedTopic0 := hsent ▸ by decide
    have hadd : messagesIn l2Ms (logs ++ [log]) = messagesIn l2Ms logs ++ [log.topics.getD 3 0] := by
      rw [messagesIn, bridgeLogs_concat_of ((hiff _).1 hsent), map_append, messagesIn]
      rfl
    refine ⟨?_, by simp [hadd], hpair ((hiff _).not.1 hdiffer) ▸ h.rollingHash⟩
    rw [hadd, h.messages, append_assoc]
  have hkept := hmessages ((hiff _).not.1 hsent)
  rw [if_neg hsent] at hlog
  by_cases hupdated : log.topics.getD 0 0 = bridgeRollingHashUpdatedTopic0
  · simp only [if_pos hupdated, bind_eq_ok, failIf_eq_ok, pure_eq_ok] at hlog
    obtain ⟨-, -, -, hnumber, hlog⟩ := hlog
    cases hlog
    refine ⟨hkept ▸ h.messages, hkept ▸ h.hasMessages, ?_⟩
    rw [pairIn, bridgeLogs_concat_of ((hiff _).1 hupdated), getLast?_concat]
    exact Prod.ext rfl (Nat.mod_eq_of_lt (by omega))
  · rw [if_neg hupdated] at hlog
    cases hlog
    exact ⟨hkept ▸ h.messages, hkept ▸ h.hasMessages, hpair ((hiff _).not.1 hupdated) ▸ h.rollingHash⟩

theorem scanL2MessageServiceLogs_spec {receipts : List Receipt}
    (h : scanL2MessageServiceLogs messages receipts l2Ms = .ok st) :
    Scanned l2Ms messages (receipts.flatMap Receipt.logs) st := by
  rw [scanL2MessageServiceLogs, ← foldlM_flatMap] at h
  exact foldlM_visited (Scanned l2Ms messages) scanned_nil (fun _ _ _ _ => Scanned.scanLog) h

end

/-! ### Filtered addresses -/

/-- The loop in place: behind the distinct addresses stand leftovers, then what is still to be read. -/
theorem foldl_compactStep {rest out : List Address} (junk : List Address) (hout : out.Pairwise (· < ·))
    (hrest : rest.Pairwise (· ≤ ·)) (hle : ∀ a ∈ out, ∀ b ∈ rest, a ≤ b) :
    ∃ out' junk', (range' (out.length + junk.length) rest.length).foldl compactStep (out ++ junk ++ rest, out.length) =
        (out' ++ junk', out'.length) ∧
      out'.Pairwise (· < ·) ∧ ∀ a, a ∈ out' ↔ a ∈ out ∨ a ∈ rest := by
  induction rest generalizing out junk with
  | nil => exact ⟨out, junk, by simp, hout, by simp⟩
  | cons b rest ih =>
    obtain ⟨hb, hrest⟩ := pairwise_cons.1 hrest
    have hread : (out ++ junk ++ b :: rest).getD (out.length + junk.length) 0 = b := by simp
    have hlast : (out.length > 0 ∧ (out ++ junk ++ b :: rest).getD (out.length - 1) 0 = b) ↔ out.getLast? = some b := by
      rcases out.eq_nil_or_concat with rfl | ⟨out, c, rfl⟩
      · simp
      · simp
    rw [length_cons, range'_succ, foldl_cons, compactStep]
    simp only [hread, hlast]
    by_cases h : out.getLast? = some b
    · rw [if_pos h]
      obtain ⟨out', junk', hloop, hsorted, hmem⟩ := ih (junk ++ [b]) hout hrest fun a ha c hc =>
        hle a ha c (mem_cons_of_mem b hc)
      refine ⟨out', junk', ?_, hsorted, fun a => (hmem a).trans ?_⟩
      · rw [← hloop]
        simp [Nat.add_assoc]
      · have hbout : b ∈ out := mem_of_getLast? h
        grind
    · rw [if_neg h]
      -- the last address is the greatest, and it is not `b`
      have hlt : ∀ a ∈ out, a < b := by
        intro a ha
        have hlast := getLast?_eq_some_getLast (ne_nil_of_mem ha)
        have hne : out.getLast (ne_nil_of_mem ha) ≠ b := fun heq => h (heq ▸ hlast)
        have ha' := (hout.imp BitVec.le_of_lt).rel_getLast ha
        have := hle _ (mem_of_getLast? hlast) b mem_cons_self
        bv_omega
      obtain ⟨out', junk', hloop, hsorted, hmem⟩ := @ih (out ++ [b]) (junk.tail ++ junk.head?.toList.map fun _ => b)
        (pairwise_append.2 ⟨hout, pairwise_singleton _ _, by simpa using hlt⟩) hrest (by
          simp only [forall_mem_append, forall_mem_singleton]
          exact ⟨fun a ha c hc => hle a ha c (mem_cons_of_mem b hc), hb⟩)
      refine ⟨out', junk', ?_, hsorted, fun a => (hmem a).trans (by simp [or_assoc])⟩
      rw [← hloop]
      -- the slot after the distinct addresses is the one just read or a leftover
      cases junk with
      | nil => simp
      | cons c junk => simp [Nat.add_assoc, Nat.add_comm]

theorem mergeFilteredAddresses_spec (list : List Address) :
    (mergeFilteredAddresses list).Pairwise (· < ·) ∧ ∀ a, a ∈ mergeFilteredAddresses list ↔ a ∈ list := by
  obtain ⟨out, junk, hloop, hsorted, hmem⟩ := foldl_compactStep [] .nil (pairwise_mergeSort' (· ≤ ·) list) (by simp)
  have heq : mergeFilteredAddresses list = out := by
    simp only [length_nil, Nat.add_zero, nil_append] at hloop
    simp only [mergeFilteredAddresses, range_eq_range', hloop]
    simp
  rw [heq]
  exact ⟨hsorted, fun a => (hmem a).trans (by simp)⟩

/-! ### The range of blocks -/

/-- What is known of a block that was accepted. -/
structure Block.Accepted (host : Host) (input : PrivateInput) (baseFee : Nat) (nodes : List (List Byte)) (b : Block) :
    Prop where
  executed : host.execute b.stateless input.chainConfig.systemContracts nodes = some b.result
  chainId : b.stateless.chainConfig.chainId = input.chainConfig.chainId
  baseFee : b.payload.baseFeePerGas = baseFee
  deadlines : ∀ ftx ∈ b.input.forcedTransactions, b.payload.blockNumber ≤ ftx.deadline

def RunState.bridge (st : RunState) : Word × Nat := (st.endBridge.hash, st.endBridge.number.toNat)

/-- The state of the loop after the blocks `bs`. -/
structure Follows (host : Host) (input : PrivateInput) (baseFee : Nat) (nodes : List (List Byte)) (bs : List Block)
    (st : RunState) : Prop where
  accepted : ∀ b ∈ bs, b.Accepted host input baseFee nodes
  chained : bs.IsChain fun b b' => b'.payload.parentHash = b.payload.blockHash
  last : ∀ b ∈ bs.getLast?, st.parentHash = b.payload.blockHash ∧ st.lastPayload = b.payload
  forced : Forced host input.chainConfig.chainId ⟨input.parentFtxRollingHash, input.parentLastProcessedFtxNumber, []⟩
    (forcedOf bs) ⟨st.ftxRollingHash, st.lastProcessedFtxNumber, st.filteredAddresses⟩
  senders : st.txFroms = sendersOf bs
  messages : st.l2L1Messages = messagesOf input.chainConfig.l2MessageServiceAddress bs
  offsets : st.messagingOffsets = offsetsOf input.chainConfig.l2MessageServiceAddress bs
  bridge : st.bridge = bridgeOf input.chainConfig.l2MessageServiceAddress bs

section

variable {host : Host} {input : PrivateInput} {baseFee : Nat} {nodes : List (List Byte)} {bs : List Block} {b : Block}
  {st st' : RunState} {l2Ms : Address}

/-- What the bridge's part of a block adds to the state. -/
structure Records (l2Ms : Address) (b : Block) (st st' : RunState) : Prop where
  messages : st'.l2L1Messages = st.l2L1Messages ++ b.messages l2Ms
  offsets : st'.messagingOffsets = st.messagingOffsets ++ if b.messages l2Ms ≠ [] then [b.index + 1] else []
  bridge : st'.bridge = if (b.anchored l2Ms).2 ≠ 0 then b.anchored l2Ms else st.bridge
  rest : { st with
    l2L1Messages := st'.l2L1Messages, messagingOffsets := st'.messagingOffsets, endBridge := st'.endBridge } = st'

theorem records_of_zero (h : l2Ms = 0) : Records l2Ms b st st := by
  have hmessages : b.messages l2Ms = [] := by simp [Block.messages, Block.logs, h, messagesIn, bridgeLogs]
  have hanchored : b.anchored l2Ms = (0, 0) := by simp [Block.anchored, Block.logs, h, pairIn, bridgeLogs]
  exact ⟨by simp [hmessages], by simp [hmessages], by simp [hanchored], rfl⟩

theorem scanBlock_spec (hbridge : l2Ms ≠ 0) (h : scanBlock l2Ms b.result.receipts b.index st = .ok st') :
    Records l2Ms b st st' := by
  obtain ⟨⟨messages, scan⟩, hscan, h⟩ := bind_eq_ok.1 h
  have hscan := scanL2MessageServiceLogs_spec hscan
  have hlogs : b.result.receipts.flatMap Receipt.logs = b.logs l2Ms := (if_neg hbridge).symm
  rw [hlogs] at hscan
  have hpair : (scan.rollingHash.hash, scan.rollingHash.number.toNat) = b.anchored l2Ms := hscan.rollingHash
  have hbridge : ((if scan.rollingHash.number ≠ 0 then scan.rollingHash else st.endBridge).hash,
      (if scan.rollingHash.number ≠ 0 then scan.rollingHash else st.endBridge).number.toNat) =
      if (b.anchored l2Ms).2 ≠ 0 then b.anchored l2Ms else st.bridge := by
    rw [← hpair]
    dsimp only
    by_cases hzero : scan.rollingHash.number = 0
    · rw [hzero]
      rfl
    · have hpos : scan.rollingHash.number.toNat ≠ 0 := fun h => hzero (BitVec.eq_of_toNat_eq h)
      rw [if_pos hzero, if_pos hpos]
  have hhas : scan.hasMessages = true ↔ b.messages l2Ms ≠ [] := hscan.hasMessages
  dsimp only at h
  by_cases hmessages : scan.hasMessages = true
  · simp only [if_pos hmessages, bind_eq_ok, pure_eq_ok] at h
    obtain ⟨-, -, h⟩ := h
    cases h
    exact ⟨hscan.messages, by rw [if_pos (hhas.1 hmessages)], hbridge, rfl⟩
  · simp only [if_neg hmessages, pure_eq_ok] at h
    cases h
    exact ⟨hscan.messages, by rw [if_neg (mt hhas.2 hmessages), append_nil], hbridge, rfl⟩

theorem records_of_ok (h : (if l2Ms = 0 then pure st
    else scanBlock l2Ms b.result.receipts b.index st) = .ok st') : Records l2Ms b st st' := by
  by_cases hzero : l2Ms = 0
  · rw [if_pos hzero] at h
    cases h
    exact records_of_zero hzero
  · rw [if_neg hzero] at h
    exact scanBlock_spec hzero h

/-- One round of the loop. -/
theorem Follows.processPayload (h : Follows host input baseFee nodes bs st) {p : LineaPayloadInput}
    {si : StatelessInput} {idx : Nat} (hround : processPayload host input baseFee nodes st p si idx = .ok st') :
    ∃ result, Follows host input baseFee nodes (bs ++ [⟨p, si, idx, result⟩]) st' := by
  obtain ⟨⟨⟩, hcheck, hround⟩ := bind_eq_ok.1 hround
  obtain ⟨result, hexec, hround⟩ := bind_eq_ok.1 hround
  obtain ⟨ftx, hforced, hround⟩ := bind_eq_ok.1 hround
  simp only [checkPayload, bind_eq_ok, failIf_eq_ok, not_not] at hcheck
  obtain ⟨-, hchain, -, hparent, -, hfee, -⟩ := hcheck
  obtain ⟨hdeadlines, hforced⟩ := validateForcedTransactions_spec hforced
  refine ⟨result, ?_⟩
  have hrecords := @records_of_ok ⟨p, si, idx, result⟩ _ _ _ hround
  rw [← hrecords.rest]
  refine ⟨?_, ?_, ?_, ?_, ?_, ?_, ?_, ?_⟩
  · exact forall_mem_append.2 ⟨h.accepted, forall_mem_singleton.2
      ⟨orThrow_eq_ok.1 hexec, hchain, hfee, hdeadlines⟩⟩
  · refine isChain_append.2 ⟨h.chained, isChain_singleton _, fun b hb b' hb' => ?_⟩
    cases hb'
    exact hparent.trans (h.last b hb).1
  · rw [getLast?_concat]
    rintro _ ⟨⟩
    exact ⟨rfl, rfl⟩
  · rw [forcedOf, flatMap_append, flatMap_singleton]
    exact h.forced.trans (hforced.frame _)
  · rw [sendersOf, flatMap_append, flatMap_singleton, h.senders]
    rfl
  · rw [messagesOf, flatMap_append, flatMap_singleton]
    exact hrecords.messages.trans (congrArg (· ++ _) h.messages)
  · refine hrecords.offsets.trans ?_
    rw [offsetsOf, filter_append, map_append]
    refine congrArg₂ _ h.offsets ?_
    split_ifs with hne <;> simp [hne]
  · refine hrecords.bridge.trans ?_
    rw [bridgeOf, map_append, filter_append, map_singleton]
    split_ifs with hne
    · rw [filter_cons, if_pos (decide_eq_true hne), filter_nil, getLast?_concat, Option.getD_some]
    · rw [filter_cons, if_neg (by simpa using hne), filter_nil, append_nil]
      exact h.bridge

/-- The output describes the blocks `bs`. -/
structure Describes (host : Host) (input : PrivateInput) (bs : List Block) (start : BitVec 64) (pi : PublicInput) :
    Prop where
  inputs : bs.map Block.input = input.payloads
  indices : bs.map Block.index = range bs.length
  decoded : ∀ b ∈ bs, host.decodeStateless b.input.statelessInputSsz = some b.stateless
  accepted : ∃ baseFee, (∀ b ∈ bs, b.Accepted host input baseFee (bs.flatMap fun b => b.stateless.witness.nodes)) ∧
    pi.dynamicChainConfigHash = chainConfigHash host input.chainConfig (BitVec.ofNat 64 baseFee)
  chained : bs.IsChain fun b b' => b'.payload.parentHash = b.payload.blockHash
  first : ∃ b ∈ bs.head?, pi.parentBlockHash = b.payload.parentHash ∧
    start = b.payload.blockNumber
  last : ∃ b ∈ bs.getLast?, pi.endBlockHash = b.payload.blockHash ∧
    pi.endBlockNumber = b.payload.blockNumber ∧ pi.endBlockTimestamp = b.payload.timestamp
  count : pi.blockCount = bs.length
  parent : pi.parentFtxRollingHash = input.parentFtxRollingHash ∧
    pi.parentFtxNumber = input.parentLastProcessedFtxNumber
  forced : ∃ rejected, Forced host input.chainConfig.chainId
      ⟨input.parentFtxRollingHash, input.parentLastProcessedFtxNumber, []⟩ (forcedOf bs)
      ⟨pi.endFtxRollingHash, pi.endProcessedFtxNumber, rejected⟩ ∧
    pi.filteredAddresses.Pairwise (· < ·) ∧ ∀ a, a ∈ pi.filteredAddresses ↔ a ∈ rejected
  messages : pi.l2L1Messages = messagesOf input.chainConfig.l2MessageServiceAddress bs
  offsets : pi.l2MessagingBlocksOffsets = offsetsOf input.chainConfig.l2MessageServiceAddress bs
  bridge : (pi.endL1L2BridgeRollingHash, pi.endL1L2BridgeRollingHashMessageNumber.toNat) =
    bridgeOf input.chainConfig.l2MessageServiceAddress bs
  senders : pi.txFromsHash = hashAddressList host (sendersOf bs)

/-- Every output of the guest describes a chain of blocks that were accepted. -/
theorem run_describes {out : GuestOutput} (h : runL2ExecutionWithEngine host input = .ok out) :
    ∃ bs, Describes host input bs out.startBlockNumber out.publicInputs := by
  simp only [runL2ExecutionWithEngine, bind_eq_ok, failIf_eq_ok, orThrow_eq_ok] at h
  obtain ⟨-, -, sis, hsis, first, hfirst, st, hloop, h⟩ := h
  cases h
  have hdecoded := mapM_eq_ok_iff.1 hsis
  have hlength := hdecoded.length_eq
  obtain ⟨bs, hbs, hfollows⟩ := foldlM_visited (fun visited st => ∃ bs : List Block,
    bs.map (fun b => ((b.input, b.stateless), b.index)) = visited ∧
      Follows host input first.payload.baseFeePerGas (sis.flatMap fun si => si.witness.nodes) bs st)
    ⟨[], rfl, forall_mem_nil _, isChain_nil, by simp, .refl, rfl, rfl, rfl, rfl⟩
    (by
      rintro visited ⟨⟨p, si⟩, idx⟩ st st' ⟨bs, rfl, hfollows⟩ hround
      obtain ⟨result, hfollows⟩ := hfollows.processPayload hround
      exact ⟨_, by rw [map_append, map_singleton], hfollows⟩) hloop
  have hpairs : bs.map (fun b => (b.input, b.stateless)) = input.payloads.zip sis := by
    have := congrArg (map Prod.fst) hbs
    rwa [map_map, zipIdx_map_fst] at this
  have hinputs : bs.map Block.input = input.payloads := by
    have := congrArg (map Prod.fst) hpairs
    rwa [map_map, map_fst_zip hlength.le] at this
  have hstateless : bs.map Block.stateless = sis := by
    have := congrArg (map Prod.snd) hpairs
    rwa [map_map, map_snd_zip hlength.ge] at this
  have hcount : bs.length = input.payloads.length := by rw [← hinputs, length_map]
  refine ⟨bs, hinputs, ?_, ?_, ⟨_, ?_, rfl⟩, hfollows.chained, ?_, ?_, hcount.symm,
    ⟨rfl, rfl⟩, ⟨_, hfollows.forced, mergeFilteredAddresses_spec _⟩, hfollows.messages, hfollows.offsets,
    hfollows.bridge, congrArg (hashAddressList host) hfollows.senders⟩
  · have := congrArg (map Prod.snd) hbs
    rwa [map_map, zipIdx_map_snd, ← hpairs, length_map, ← range_eq_range'] at this
  · intro b hb
    have hmem : (b.input, b.stateless) ∈ input.payloads.zip sis := hpairs ▸ mem_map_of_mem hb
    exact orThrow_eq_ok.1 (forall₂_zip hdecoded hmem)
  · have haccepted := hfollows.accepted
    rwa [← hstateless, flatMap_map] at haccepted
  · rw [← hstateless, head?_map, Option.map_eq_some_iff] at hfirst
    obtain ⟨b, hb, rfl⟩ := hfirst
    exact ⟨b, hb, rfl, rfl⟩
  · have hne : bs ≠ [] := by
      rintro rfl
      cases hstateless
      cases hfirst
    refine ⟨bs.getLast hne, getLast?_eq_some_getLast hne, ?_⟩
    rw [← (hfollows.last _ (getLast?_eq_some_getLast hne)).2]
    exact ⟨rfl, rfl, rfl⟩

end

/-! ### A run -/

/-- One block with a message of the bridge at 9 and a forced transaction of a filtered sender. -/
def sampleInput : PrivateInput where
  parentFtxRollingHash := 0
  parentLastProcessedFtxNumber := 0
  payloads := [⟨[], [{ firstForced with acceptance := filteredAddressFrom }]⟩]
  chainConfig := ⟨59144, 0, 9, ⟨0, 0, 0, 0, 0, 0, 0⟩⟩

def sampleHost : Host :=
  { Host.single (.ofGateway (transfer 0)) none with
    decodeStateless := fun _ =>
      some ⟨⟨emptyBlock, [], ⟨[], [], [], [], []⟩⟩, ⟨[], [[]]⟩, ⟨59144, some guestFork⟩, []⟩
    decodeMinimalHeader := fun _ => some 99
    execute := fun _ _ _ => some ⟨0, [⟨5, [⟨9, [bridgeL2L1MessageSentTopic0, 0, 0, 42]⟩]⟩]⟩ }

theorem run_describes_one :
    ∃ out bs, runL2ExecutionWithEngine sampleHost sampleInput = .ok out ∧ out.publicInputs.l2L1Messages = [42] ∧
      out.publicInputs.l2MessagingBlocksOffsets = [1] ∧
      Describes sampleHost sampleInput bs out.startBlockNumber out.publicInputs := by
  obtain ⟨bs, h⟩ := @run_describes sampleHost sampleInput _ rfl
  exact ⟨_, bs, rfl, rfl, rfl, h⟩

end Lineth.L2Execution
