import Lineth.Lib.Call
import Lineth.Rollup.DataSubmission
import Lineth.Rollup.PublicInput

/-!
# Finalization

`finalizeBlocks` checks what the caller says was finalized last against the stored hash of it, moves the finalized
block, state root, shnarf and hash forward, and then asks the verifier. `Finalizes` is what it has then checked and
done. -/

namespace Lineth.Rollup

open Evm Messaging Contract Except

variable (keccak : List Byte → Word)

structure FinalizedState where
  messageNumber : Word
  messageRollingHash : Word
  forcedTransactionNumber : Word
  forcedTransactionRollingHash : Word
  timestamp : Word
  deriving DecidableEq

section

variable (st : FinalizedState)

/-- What `_computeLastFinalizedState` hashes for the five fields. -/
def FinalizedState.encode : List Byte :=
  words [st.messageNumber, st.messageRollingHash, st.forcedTransactionNumber, st.forcedTransactionRollingHash,
    st.timestamp]

/-- What `_computeLastFinalizedState` hashed before forced transactions. -/
def FinalizedState.encodeLegacy : List Byte :=
  words [st.messageNumber, st.messageRollingHash, st.timestamp]

def computeLastFinalizedState : Word := keccak st.encode

def computeLastFinalizedStateLegacy : Word := keccak st.encodeLegacy

end

def FinalizationData.last (d : FinalizationData) : FinalizedState :=
  ⟨d.lastFinalizedL1RollingHashMessageNumber, d.lastFinalizedL1RollingHash, d.lastFinalizedForcedTransactionNumber,
    d.lastFinalizedForcedTransactionRollingHash, d.lastFinalizedTimestamp⟩

def FinalizationData.final (d : FinalizationData) (finalForcedTransactionRollingHash : Word) : FinalizedState :=
  ⟨d.l1RollingHashMessageNumber, d.l1RollingHash, d.finalForcedTransactionNumber, finalForcedTransactionRollingHash,
    d.finalTimestamp⟩

def validateL2ComputedRollingHash (rollingHashMessageNumber rollingHash : Word) (s : L1) : Except Error Unit :=
  if rollingHashMessageNumber = 0 then
    if rollingHash ≠ 0 then .error (.missingMessageNumberForRollingHash rollingHash) else .ok ()
  else if rollingHash = 0 then
    .error (.missingRollingHashForMessageNumber rollingHashMessageNumber)
  else if s.rollingHashes rollingHashMessageNumber ≠ rollingHash then
    .error (.l1RollingHashDoesNotExistOnL1 rollingHashMessageNumber rollingHash)
  else
    .ok ()

def validateFilteredAddresses (ctx : Ctx) (s : L1) : List Address → Except Error Unit
  | [] => .ok ()
  | a :: as =>
    if ctx.addressIsFiltered s.addressFilter a then validateFilteredAddresses ctx s as
    else .error (.addressIsNotFiltered a)

/-- The check of `_finalizeBlocks` that the caller's last finalized state is the stored one; the hash of the
three fields used before forced transactions is accepted too. -/
def validateFinalizedState (d : FinalizationData) (s : L1) : Except Error Unit :=
  if computeLastFinalizedState keccak d.last ≠ s.currentFinalizedState then
    if computeLastFinalizedStateLegacy keccak d.last ≠ s.currentFinalizedState then
      .error (.finalizationStateIncorrect s.currentFinalizedState (computeLastFinalizedStateLegacy keccak d.last))
    else
      .ok ()
  else
    .ok ()

def addL2MerkleRoots (treeDepth : Word) : List Word → (Word → Word) → Except Error ((Word → Word) × List Log)
  | [], depths => .ok (depths, [])
  | r :: rs, depths => do
    if depths r ≠ 0 then throw (.l2MerkleRootAlreadyAnchored r)
    let (depths, logs) ← addL2MerkleRoots treeDepth rs (Function.update depths r treeDepth)
    return (depths, .l2MerkleRootAdded r treeDepth :: logs)

/-- The loop of `_anchorL2MessagingBlocks`, two bytes at a time. -/
def anchorLoop (currentL2BlockNumber : Word) : List Byte → List Log
  | a :: b :: rest =>
    .l2MessagingBlockAnchored (currentL2BlockNumber + BitVec.ofNat 256 (ofBeBytes [a, b])) ::
      anchorLoop currentL2BlockNumber rest
  | _ => []

def anchorL2MessagingBlocks (offsets : List Byte) (currentL2BlockNumber : Word) : Except Error (List Log) :=
  if offsets.length % 2 ≠ 0 then .error (.bytesLengthNotMultipleOfTwo offsets.length)
  else .ok (anchorLoop currentL2BlockNumber offsets)

structure FinalizedBlocks where
  state : L1
  logs : List Log
  finalShnarf : Word
  l2MerkleRoots : List Word
  filteredAddresses : List Address

def finalizeBlocksInternal (ctx : Ctx) (cd : Calldata) (fd : Word) (d : FinalizationData)
    (lastFinalizedBlock finalForcedTransactionRollingHash : Word) (s : L1) : Except Error FinalizedBlocks := do
  validateL2ComputedRollingHash d.l1RollingHashMessageNumber d.l1RollingHash s
  let filteredAddresses ← filteredAddresses cd fd
  validateFilteredAddresses ctx s filteredAddresses
  validateFinalizedState keccak d s
  if d.finalTimestamp ≥ ctx.timestamp then throw (.finalizationInTheFuture d.finalTimestamp ctx.timestamp)
  if d.finalStateRootHash = 0 then throw .finalBlockStateEqualsZeroHash
  let nextFinalizationStartingForcedTxNumber := s.forcedTransactionL2BlockNumbers (d.finalForcedTransactionNumber + 1)
  if nextFinalizationStartingForcedTxNumber > 0 ∧ nextFinalizationStartingForcedTxNumber ≤ d.endBlockNumber then
    throw (.finalizationDataMissingForcedTransaction (d.finalForcedTransactionNumber + 1))
  let finalShnarf := computeShnarf keccak d.parentShnarf d.snarkHash d.finalStateRootHash d.dataEvaluationPoint
    d.dataEvaluationClaim
  let shnarfExists := if s.shnarfProvider = ctx.self then s.blobShnarfExists finalShnarf
    else ctx.blobShnarfExists s.shnarfProvider finalShnarf
  if shnarfExists = 0 then throw (.finalShnarfNotSubmitted finalShnarf)
  let l2MerkleRoots ← l2MerkleRoots cd fd
  let (depths, rootLogs) ← addL2MerkleRoots d.l2MerkleTreesDepth l2MerkleRoots s.l2MerkleRootsDepths
  let offsets ← l2MessagingBlocksOffsets cd fd
  let blockLogs ← anchorL2MessagingBlocks offsets lastFinalizedBlock
  let logs := rootLogs ++ blockLogs ++
    [.finalizedStateUpdated d.endBlockNumber d.finalTimestamp d.l1RollingHashMessageNumber
      d.finalForcedTransactionNumber,
      .dataFinalizedV3 (lastFinalizedBlock + 1) d.endBlockNumber finalShnarf d.parentStateRootHash d.finalStateRootHash]
  return {
    state := { s with
      l2MerkleRootsDepths := depths
      stateRootHashes := Function.update s.stateRootHashes d.endBlockNumber d.finalStateRootHash
      currentL2BlockNumber := d.endBlockNumber
      currentFinalizedShnarf := finalShnarf
      currentFinalizedState := computeLastFinalizedState keccak (d.final finalForcedTransactionRollingHash) }
    logs := logs
    finalShnarf := finalShnarf
    l2MerkleRoots := l2MerkleRoots
    filteredAddresses := filteredAddresses }

structure PendingProof where
  state : L1
  logs : List Log
  finalization : Finalization
  verifier : Address
  aggregatedProof : List Byte

def prepareFinalization (ctx : Ctx) (cd : Calldata) (s : L1) : Except Error PendingProof := do
  let args ← FinalizeArgs.decode cd
  requireTypeAndGeneralNotPaused ctx .finalization
  onlyRole ctx .operator
  if args.aggregatedProof = [] then throw .proofIsEmpty
  let d := FinalizationData.decode cd args.finalizationData
  let lastFinalizedBlockNumber := s.currentL2BlockNumber
  if s.stateRootHashes lastFinalizedBlockNumber ≠ d.parentStateRootHash then throw .startingRootHashDoesNotMatch
  let lastFinalizedShnarf := s.currentFinalizedShnarf
  let verifier := s.verifiers args.proofType
  if verifier = 0 then throw .invalidProofType
  let finalForcedTransactionRollingHash := s.forcedTransactionRollingHashes d.finalForcedTransactionNumber
  if d.finalForcedTransactionNumber > 0 ∧ finalForcedTransactionRollingHash = 0 then
    throw (.missingRollingHashForForcedTransactionNumber d.finalForcedTransactionNumber)
  let r ← finalizeBlocksInternal keccak ctx cd args.finalizationData d lastFinalizedBlockNumber
    finalForcedTransactionRollingHash s
  match ctx.getChainConfiguration verifier with
  | none => throw .chainConfigurationCallFailed
  | some configuration =>
    let image := publicInputImage keccak cd args.finalizationData ctx.memory ctx.freeMemoryPointer lastFinalizedShnarf
      r.finalShnarf lastFinalizedBlockNumber finalForcedTransactionRollingHash configuration
      (keccak (encodePackedAddresses r.filteredAddresses))
    let finalization : Finalization := ⟨d, r.l2MerkleRoots, r.filteredAddresses, lastFinalizedShnarf, r.finalShnarf,
      lastFinalizedBlockNumber, finalForcedTransactionRollingHash, configuration, image⟩
    return ⟨r.state, r.logs ++ [.proofVerification finalization], finalization, verifier, args.aggregatedProof⟩

/-- `finalizeBlocks`; the verifier is called with the state already moved forward. -/
def finalizeBlocks (ctx : Ctx) (cd : Calldata) (s : L1) : Prog L1 Log Error :=
  .attempt (prepareFinalization keccak ctx cd s) fun r =>
  .call r.state r.logs fun callSuccess s =>
    if callSuccess then
      if ctx.verify r.verifier r.aggregatedProof (publicInput keccak r.finalization.image) then .ret s []
      else .revert .invalidProof
    else
      .revert .invalidProofOrProofVerificationRanOutOfGas

/-! ### What a finalization has checked and done -/

theorem addL2MerkleRoots_eq_ok {treeDepth : Word} {roots : List Word} {depths depths' : Word → Word} {logs : List Log}
    (h : addL2MerkleRoots treeDepth roots depths = .ok (depths', logs)) :
    (∀ r ∈ roots, depths r = 0) ∧ depths' = (fun r => if r ∈ roots then treeDepth else depths r) ∧
      logs = roots.map fun r => .l2MerkleRootAdded r treeDepth := by
  induction roots generalizing depths logs with
  | nil =>
    simp only [addL2MerkleRoots, ok.injEq, Prod.mk.injEq] at h
    obtain ⟨rfl, rfl⟩ := h
    simp
  | cons r rs ih =>
    simp only [addL2MerkleRoots, bind_eq_ok, throw_eq_error, error_bind, pure_eq_ok,
      ite_error_eq_ok, ne_eq, not_not, Prod.exists, ok.injEq, Prod.mk.injEq] at h
    obtain ⟨hr, _, _, hrs, rfl, rfl⟩ := h
    obtain ⟨hzero, rfl, rfl⟩ := ih hrs
    refine ⟨?_, ?_, rfl⟩
    · intro x hx
      rcases List.mem_cons.1 hx with rfl | hx
      · exact hr
      · by_cases hxr : x = r
        · rw [hxr, hr]
        · simpa [Function.update_of_ne hxr] using hzero x hx
    · funext x
      by_cases hxr : x = r
      · subst hxr; simp
      · simp [hxr]

theorem anchorLoop_eq_map (n : Word) (offsets : List Byte) :
    ∃ blocks : List Word, anchorLoop n offsets = blocks.map .l2MessagingBlockAnchored := by
  induction offsets using anchorLoop.induct with
  | case1 a b rest ih =>
    obtain ⟨blocks, hb⟩ := ih
    exact ⟨_ :: blocks, by rw [anchorLoop, hb]; rfl⟩
  | case2 l h => exact ⟨[], by rw [anchorLoop, List.map_nil]; exact h⟩

theorem FinalizeArgs.decode_bound {cd : Calldata} {args : FinalizeArgs} (h : FinalizeArgs.decode cd = .ok args) :
    args.finalizationData.toNat + 0x280 < 2 ^ 256 := by
  simp only [FinalizeArgs.decode, throw_eq_error, error_bind, pure_eq_ok,
    ite_error_eq_ok, ok.injEq] at h
  obtain ⟨-, -, -, -, -, hoffset, -, rfl⟩ := h
  have hle : (cd.load (4 + 0x40)).toNat ≤ 0xffffffffffffffff := by simpa [BitVec.lt_def] using hoffset
  have hmod : (4 + cd.load (4 + 0x40)).toNat ≤ 4 + (cd.load (4 + 0x40)).toNat := by
    rw [BitVec.toNat_add]; exact Nat.mod_le _ _
  exact Nat.lt_of_le_of_lt (Nat.add_le_add_right hmod _) (by omega)

variable {keccak}

/-- The finalization `f` moved the contract from `s` to `s'`. -/
structure Finalizes (keccak : List Byte → Word) (f : Finalization) (s : L1) (l : List Log) (s' : L1) : Prop where
  image : f.image = words (f.publicInputs keccak)
  parentStateRootHash : f.data.parentStateRootHash = s.stateRootHashes s.currentL2BlockNumber
  lastFinalizedShnarf : f.lastFinalizedShnarf = s.currentFinalizedShnarf
  lastFinalizedBlockNumber : f.lastFinalizedBlockNumber = s.currentL2BlockNumber
  finalizedState : s.currentFinalizedState = computeLastFinalizedState keccak f.data.last ∨
    s.currentFinalizedState = computeLastFinalizedStateLegacy keccak f.data.last
  forcedTransactionRollingHash :
    f.finalForcedTransactionRollingHash = s.forcedTransactionRollingHashes f.data.finalForcedTransactionNumber
  forcedTransactionRollingHash_ne :
    f.data.finalForcedTransactionNumber ≠ 0 → f.finalForcedTransactionRollingHash ≠ 0
  nextForcedTransaction : s.forcedTransactionL2BlockNumbers (f.data.finalForcedTransactionNumber + 1) = 0 ∨
    f.data.endBlockNumber < s.forcedTransactionL2BlockNumbers (f.data.finalForcedTransactionNumber + 1)
  l1RollingHash : if f.data.l1RollingHashMessageNumber = 0 then f.data.l1RollingHash = 0
    else f.data.l1RollingHash ≠ 0 ∧ s.rollingHashes f.data.l1RollingHashMessageNumber = f.data.l1RollingHash
  newRoots : ∀ r ∈ f.l2MerkleRoots, s.l2MerkleRootsDepths r = 0
  state : s' = { s with
    l2MerkleRootsDepths := fun r => if r ∈ f.l2MerkleRoots then f.data.l2MerkleTreesDepth else s.l2MerkleRootsDepths r
    stateRootHashes := Function.update s.stateRootHashes f.data.endBlockNumber f.data.finalStateRootHash
    currentL2BlockNumber := f.data.endBlockNumber
    currentFinalizedShnarf := f.finalShnarf
    currentFinalizedState := computeLastFinalizedState keccak (f.data.final f.finalForcedTransactionRollingHash) }
  logs : ∃ blocks : List Word, l = (f.l2MerkleRoots.map fun r => .l2MerkleRootAdded r f.data.l2MerkleTreesDepth) ++
    blocks.map .l2MessagingBlockAnchored ++
    [.finalizedStateUpdated f.data.endBlockNumber f.data.finalTimestamp f.data.l1RollingHashMessageNumber
        f.data.finalForcedTransactionNumber,
      .dataFinalizedV3 (f.lastFinalizedBlockNumber + 1) f.data.endBlockNumber f.finalShnarf f.data.parentStateRootHash
        f.data.finalStateRootHash,
      .proofVerification f]

theorem validateL2ComputedRollingHash_eq_ok {n h : Word} {s : L1} {u : Unit}
    (hv : validateL2ComputedRollingHash n h s = .ok u) :
    if n = 0 then h = 0 else h ≠ 0 ∧ s.rollingHashes n = h := by
  unfold validateL2ComputedRollingHash at hv
  split at hv
  · rename_i hn
    rw [if_pos hn]
    simpa using hv
  · rename_i hn
    rw [if_neg hn]
    simpa only [ite_error_eq_ok, ne_eq, not_not, and_true] using hv

theorem validateFinalizedState_eq_ok {d : FinalizationData} {s : L1} {u : Unit}
    (h : validateFinalizedState keccak d s = .ok u) :
    s.currentFinalizedState = computeLastFinalizedState keccak d.last ∨
      s.currentFinalizedState = computeLastFinalizedStateLegacy keccak d.last := by
  unfold validateFinalizedState at h
  split at h
  · split at h
    · cases h
    · rename_i hlegacy
      exact .inr (not_not.1 hlegacy).symm
  · rename_i hfive
    exact .inl (not_not.1 hfive).symm

theorem prepareFinalization_finalizes {ctx : Ctx} {cd : Calldata} {s : L1} {r : PendingProof}
    (h : prepareFinalization keccak ctx cd s = .ok r) : Finalizes keccak r.finalization s r.logs r.state := by
  simp only [prepareFinalization, bind_eq_ok, throw_eq_error, error_bind, pure_eq_ok,
    ite_error_eq_ok] at h
  obtain ⟨args, hargs, _, -, _, -, -, hparent, -, hftx, b, hb, h⟩ := h
  split at h
  · cases h
  rename_i configuration _
  simp only [ok.injEq] at h
  subst h
  generalize hd : FinalizationData.decode cd args.finalizationData = d at *
  simp only [finalizeBlocksInternal, bind_eq_ok, throw_eq_error, error_bind, pure_eq_ok,
    ite_error_eq_ok, Prod.exists, ok.injEq] at hb
  obtain ⟨_, hrolling, addresses, -, _, -, _, hstate, -, -, hnext, -, roots, hroots, depths, rootLogs, hadd, _, -,
    blockLogs, hblocks, rfl⟩ := hb
  obtain ⟨hzero, rfl, rfl⟩ := addL2MerkleRoots_eq_ok hadd
  refine ⟨?_, (not_not.1 hparent).symm, rfl, rfl, validateFinalizedState_eq_ok hstate, rfl, ?_, ?_,
    validateL2ComputedRollingHash_eq_ok hrolling, hzero, rfl, ?_⟩
  · have hfd := FinalizeArgs.decode_bound hargs
    have himage := publicInputImage_eq keccak hfd hroots ctx.memory ctx.freeMemoryPointer
      ⟨d, roots, addresses, s.currentFinalizedShnarf,
        computeShnarf keccak d.parentShnarf d.snarkHash d.finalStateRootHash
        d.dataEvaluationPoint d.dataEvaluationClaim, s.currentL2BlockNumber,
        s.forcedTransactionRollingHashes d.finalForcedTransactionNumber, configuration, []⟩ hd.symm rfl
    simpa only [Finalization.publicInputs] using himage
  · intro hne hzero
    exact hftx ⟨(BitVec.pos_iff_ne_zero _).2 hne, hzero⟩
  · by_cases h0 : s.forcedTransactionL2BlockNumbers (d.finalForcedTransactionNumber + 1) = 0
    · exact .inl h0
    · exact .inr (BitVec.not_le.1 fun hle => hnext ⟨(BitVec.pos_iff_ne_zero _).2 h0, hle⟩)
  · simp only [anchorL2MessagingBlocks, ite_error_eq_ok, ok.injEq] at hblocks
    obtain ⟨-, rfl⟩ := hblocks
    obtain ⟨blocks, hb⟩ := anchorLoop_eq_map s.currentL2BlockNumber ‹List Byte›
    exact ⟨blocks, by simp only [hb, List.append_assoc, List.cons_append, List.nil_append]⟩

end Lineth.Rollup
