import Lineth.Rollup.ForcedTransactions
import Lineth.Rollup.MessageService

/-!
# The L1 contracts as a whole

Initialization, the entry points and their code. Between two hand-overs to other contracts the code does one of a few
things to the storage that the results are about (`Core`): it sends a message, consumes a message number, finalizes,
registers a forced transaction, or leaves it alone (`code_segments`). Results about all runs are proved from `Step`. -/

namespace Lineth.Rollup

open Function (update)
open Evm Messaging Contract Except Prog

/-- `BaseInitializationData`, with the other arguments of `LinethRollup.initialize`. -/
structure InitializationData where
  initialStateRootHash : Word
  initialL2BlockNumber : Word
  genesisTimestamp : Word
  defaultVerifier : Address
  rateLimitPeriodInSeconds : Word
  rateLimitAmountInWei : Word
  defaultAdmin : Address
  shnarfProvider : Address
  addressFilter : Address
  livenessRecoveryOperator : Address
  yieldManager : Address

def genesisFinalizedState (d : InitializationData) : FinalizedState := ⟨0, 0, 0, 0, d.genesisTimestamp⟩

def genesisShnarf (keccak : List Byte → Word) (d : InitializationData) : Word :=
  computeShnarf keccak 0 0 d.initialStateRootHash 0 0

def L1.initial (keccak : List Byte → Word) (self : Address) (d : InitializationData)
    (currentPeriodEnd : Word) : L1 where
  nextMessageNumber := 1
  rollingHashes _ := 0
  messageClaimedBitMap _ := false
  l2MerkleRootsDepths _ := 0
  inboxL2L1MessageStatus _ := 0
  rateLimiter := ⟨d.rateLimitPeriodInSeconds, d.rateLimitAmountInWei, currentPeriodEnd, 0⟩
  reentrancyGuardEntered := false
  messageSender := 0
  isWithdrawLSTAllowed := false
  currentL2BlockNumber := d.initialL2BlockNumber
  stateRootHashes := update (fun _ => 0) d.initialL2BlockNumber d.initialStateRootHash
  verifiers := update (fun _ => 0) 0 d.defaultVerifier
  currentFinalizedShnarf := genesisShnarf keccak d
  blobShnarfExists := update (fun _ => 0) (genesisShnarf keccak d) shnarfExistsDefaultValue
  currentFinalizedState := computeLastFinalizedState keccak (genesisFinalizedState d)
  shnarfProvider := if d.shnarfProvider = 0 then self else d.shnarfProvider
  nextForcedTransactionNumber := 1
  forcedTransactionL2BlockNumbers _ := 0
  forcedTransactionRollingHashes _ := 0
  forcedTransactionFeeInWei := 0
  addressFilter := d.addressFilter
  yieldManager := d.yieldManager
  useAddressFilter := true
  lastSubmissionBlock := 0

def linethRollupInit (keccak : List Byte → Word) (ctx : Ctx) (d : InitializationData) : Except Error L1 := do
  if d.defaultVerifier = 0 then throw .zeroAddressNotAllowed
  if d.addressFilter = 0 then throw .zeroAddressNotAllowed
  if d.rateLimitPeriodInSeconds = 0 then throw .periodIsZero
  if d.rateLimitAmountInWei = 0 then throw .limitIsZero
  let currentPeriodEnd ← checkedAdd ctx.timestamp d.rateLimitPeriodInSeconds
  if d.defaultAdmin = 0 then throw .zeroAddressNotAllowed
  if d.livenessRecoveryOperator = 0 then throw .zeroAddressNotAllowed
  if d.yieldManager = 0 then throw .zeroAddressNotAllowed
  return .initial keccak ctx.self d currentPeriodEnd

theorem linethRollupInit_eq_ok {keccak : List Byte → Word} {ctx : Ctx} {d : InitializationData} {s : L1}
    (h : linethRollupInit keccak ctx d = .ok s) :
    ∃ currentPeriodEnd, s = .initial keccak ctx.self d currentPeriodEnd := by
  simp only [linethRollupInit, bind_eq_ok, throw_eq_error, pure_eq_ok, error_bind,
    ite_error_eq_ok, ok.injEq] at h
  obtain ⟨-, -, -, -, currentPeriodEnd, -, -, -, -, rfl⟩ := h
  exact ⟨currentPeriodEnd, rfl⟩

/-! ### Setters -/

def setForcedTransactionFee (ctx : Ctx) (fee : Word) (s : L1) : Except Error (L1 × List Log) := do
  onlyRole ctx .forcedTransactionFeeSetter
  if fee = 0 then throw .zeroValueNotAllowed
  return ({ s with forcedTransactionFeeInWei := fee }, [])

def setVerifierAddress (ctx : Ctx) (newVerifierAddress : Address) (proofType : Word) (s : L1) :
    Except Error (L1 × List Log) := do
  onlyRole ctx .verifierSetter
  if newVerifierAddress = 0 then throw .zeroAddressNotAllowed
  return ({ s with verifiers := update s.verifiers proofType newVerifierAddress }, [])

def unsetVerifierAddress (ctx : Ctx) (proofType : Word) (s : L1) : Except Error (L1 × List Log) := do
  onlyRole ctx .verifierUnsetter
  return ({ s with verifiers := update s.verifiers proofType 0 }, [])

def setAddressFilter (ctx : Ctx) (addressFilter : Address) (s : L1) : Except Error (L1 × List Log) := do
  onlyRole ctx .setAddressFilter
  if addressFilter = 0 then throw .zeroAddressNotAllowed
  return ({ s with addressFilter := addressFilter }, [])

/-! ### Entry points -/

/-- The state-changing entry points of the rollup and the gateway. -/
inductive Entrypoint where
  | sendMessage (to_ : Address) (fee : Word) (calldata : List Byte)
  | reportNativeYield (amount : Word) (l2YieldRecipient : Address)
  | claimMessageWithProof (params : ClaimMessageWithProofParams)
  | claimMessageWithProofAndWithdrawLST (params : ClaimMessageWithProofParams)
  | claimMessage (message : Message) (feeRecipient : Address)
  | transferFundsForNativeYield
  | fund
  | setYieldManager (newYieldManager : Address)
  | resetRateLimitAmount (amount : Word)
  | resetAmountUsedInPeriod
  | submitBlobs (blobSubmissions : List BlobSubmission) (parentShnarf finalBlobShnarf : Word)
  | submitDataAsCalldata (submission : CompressedCalldataSubmission) (parentShnarf expectedShnarf : Word)
  | acceptShnarfData (parentShnarf shnarf finalStateRootHash : Word)
  | finalizeBlocks (calldata : Calldata)
  | storeForcedTransaction (rollingHash : Word) (from_ : Address) (blockNumberDeadline : Word) (rlp : List Byte)
  | submitForcedTransaction (transaction : Eip1559Transaction) (lastFinalizedState : FinalizedState)
  | toggleUseAddressFilter (useAddressFilter : Bool)
  | setForcedTransactionFee (fee : Word)
  | setVerifierAddress (newVerifierAddress : Address) (proofType : Word)
  | unsetVerifierAddress (proofType : Word)
  | setAddressFilter (addressFilter : Address)

structure Action where
  ctx : Ctx
  entrypoint : Entrypoint

variable (P : Primitives) (G : GatewayConfig)

def code (a : Action) (s : L1) : Prog L1 Log Error :=
  match a.entrypoint with
  | .sendMessage to_ fee calldata => .atomic (sendMessage P.keccak a.ctx to_ fee calldata s)
  | .reportNativeYield amount recipient => .atomic (reportNativeYield P.keccak a.ctx amount recipient s)
  | .claimMessageWithProof p => claimMessageWithProof P.keccak a.ctx p s
  | .claimMessageWithProofAndWithdrawLST p => claimMessageWithProofAndWithdrawLST P.keccak a.ctx p s
  | .claimMessage m feeRecipient => claimMessage P.keccak a.ctx m feeRecipient s
  | .transferFundsForNativeYield => transferFundsForNativeYield a.ctx s
  | .fund => .atomic (fund a.ctx s)
  | .setYieldManager newYieldManager => .atomic (setYieldManager a.ctx newYieldManager s)
  | .resetRateLimitAmount amount => .atomic (resetRateLimitAmount a.ctx amount s)
  | .resetAmountUsedInPeriod => .atomic (resetAmountUsedInPeriod a.ctx s)
  | .submitBlobs blobs parent final => .atomic (submitBlobs P.keccak a.ctx blobs parent final s)
  | .submitDataAsCalldata submission parent expected =>
    .atomic (submitDataAsCalldata P.keccak a.ctx submission parent expected s)
  | .acceptShnarfData parent shnarf root => .atomic (acceptShnarfData a.ctx parent shnarf root s)
  | .finalizeBlocks calldata => finalizeBlocks P.keccak a.ctx calldata s
  | .storeForcedTransaction rollingHash from_ deadline rlp =>
    .atomic (storeForcedTransaction a.ctx.hasRole rollingHash from_ deadline rlp s)
  | .submitForcedTransaction t last => .atomic (submitForcedTransaction P G a.ctx t last s)
  | .toggleUseAddressFilter b => .atomic (toggleUseAddressFilter a.ctx b s)
  | .setForcedTransactionFee fee => .atomic (setForcedTransactionFee a.ctx fee s)
  | .setVerifierAddress verifier proofType => .atomic (setVerifierAddress a.ctx verifier proofType s)
  | .unsetVerifierAddress proofType => .atomic (unsetVerifierAddress a.ctx proofType s)
  | .setAddressFilter addressFilter => .atomic (setAddressFilter a.ctx addressFilter s)

/-! ### What a segment does -/

/-- The part of the storage that messaging, finalization and forced transactions are about. -/
structure Core where
  nextMessageNumber : Word
  rollingHashes : Word → Word
  messageClaimedBitMap : Word → Bool
  l2MerkleRootsDepths : Word → Word
  currentL2BlockNumber : Word
  stateRootHashes : Word → Word
  currentFinalizedShnarf : Word
  currentFinalizedState : Word
  nextForcedTransactionNumber : Word
  forcedTransactionL2BlockNumbers : Word → Word
  forcedTransactionRollingHashes : Word → Word

def L1.core (s : L1) : Core where
  nextMessageNumber := s.nextMessageNumber
  rollingHashes := s.rollingHashes
  messageClaimedBitMap := s.messageClaimedBitMap
  l2MerkleRootsDepths := s.l2MerkleRootsDepths
  currentL2BlockNumber := s.currentL2BlockNumber
  stateRootHashes := s.stateRootHashes
  currentFinalizedShnarf := s.currentFinalizedShnarf
  currentFinalizedState := s.currentFinalizedState
  nextForcedTransactionNumber := s.nextForcedTransactionNumber
  forcedTransactionL2BlockNumbers := s.forcedTransactionL2BlockNumbers
  forcedTransactionRollingHashes := s.forcedTransactionRollingHashes

/-- Logs of segments that leave the core alone. -/
def Log.Unrelated : Log → Prop
  | .messageClaimed _ => True
  | .dataSubmittedV3 _ _ _ => True
  | _ => False

structure Sends (keccak : List Byte → Word) (messageHash : Word) (s : L1) (l : List Log) (s' : L1) : Prop where
  number_lt : s.nextMessageNumber.toNat + 1 < 2 ^ 256
  state : s' = { s with
    nextMessageNumber := s.nextMessageNumber + 1
    rollingHashes := update s.rollingHashes s.nextMessageNumber
      (efficientKeccak keccak (s.rollingHashes (s.nextMessageNumber - 1)) messageHash) }
  logs : ∃ message, l = [.rollingHashUpdated s.nextMessageNumber
      (efficientKeccak keccak (s.rollingHashes (s.nextMessageNumber - 1)) messageHash) messageHash,
    .messageSent message messageHash]

/-- What the code between two hand-overs does; `direct` says whether the rollup's own function for registering forced
transactions may be what is called. -/
inductive Step (direct : Prop) : L1 → List Log → L1 → Prop where
  | send {s l s'} (messageHash : Word) : Sends P.keccak messageHash s l s' → Step direct s l s'
  | consume {s s'} (messageNumber : Word) : s.messageClaimedBitMap messageNumber = false →
      s'.core = { s.core with messageClaimedBitMap := update s.messageClaimedBitMap messageNumber true } →
      Step direct s [] s'
  | finalize {s l s'} (f : Finalization) : Finalizes P.keccak f s l s' → Step direct s l s'
  | register {s l s'} (deadline rollingHash : Word) : direct →
    Registers deadline rollingHash s l s' → Step direct s l s'
  | submit {s l s'} (elapsed : Word) : GatewaySubmits G elapsed s l s' → Step direct s l s'
  | other {s l s'} : s'.core = s.core → (∀ x ∈ l, x.Unrelated) → Step direct s l s'

variable {P G} {direct : Prop} {ctx : Ctx} {s s' : L1} {l : List Log}

theorem Step.unchanged : Step P G direct s [] s := .other rfl (by simp)

theorem Step.mono {direct' : Prop} (h : Step P G direct s l s') (hd : direct → direct') : Step P G direct' s l s' := by
  cases h with
  | send hash h => exact .send hash h
  | consume n h hc => exact .consume n h hc
  | finalize f h => exact .finalize f h
  | register d r h' h => exact .register d r (hd h') h
  | submit e h => exact .submit e h
  | other hc hl => exact .other hc hl

theorem sendMessage_sends {to_ : Address} {fee : Word} {calldata : List Byte}
    (h : sendMessage P.keccak ctx to_ fee calldata s = .ok (s', l)) : ∃ hash, Sends P.keccak hash s l s' := by
  simp only [sendMessage, addRollingHash, bind_eq_ok, throw_eq_error, error_bind,
    pure_eq_ok, ite_error_eq_ok, ok.injEq, Prod.mk.injEq, checkedAdd_eq_ok] at h
  obtain ⟨_, -, -, -, _, ⟨hlt, rfl⟩, rfl, rfl⟩ := h
  exact ⟨_, hlt, rfl, _, rfl⟩

theorem reportNativeYield_sends {amount : Word} {recipient : Address}
    (h : reportNativeYield P.keccak ctx amount recipient s = .ok (s', l)) : ∃ hash, Sends P.keccak hash s l s' := by
  simp only [reportNativeYield, addRollingHash, bind_eq_ok, throw_eq_error, error_bind,
    pure_eq_ok, ite_error_eq_ok, ok.injEq, Prod.mk.injEq, checkedAdd_eq_ok] at h
  obtain ⟨_, -, -, -, _, ⟨hlt, rfl⟩, rfl, rfl⟩ := h
  exact ⟨_, hlt, rfl, _, rfl⟩

theorem enterNonReentrant_eq_ok (h : enterNonReentrant s = .ok s') :
    s.reentrancyGuardEntered = false ∧ s' = { s with reentrancyGuardEntered := true } := by
  simp only [enterNonReentrant, ite_error_eq_ok, ok.injEq, Bool.not_eq_true] at h
  exact ⟨h.1, h.2.symm⟩

/-- What a claim has checked before it calls out. -/
structure Consumes (keccak : List Byte → Word) (p : ClaimMessageWithProofParams) (s s' : L1) (leaf : Word) : Prop where
  leaf : leaf = hashMessage keccak p.message
  depth_ne : s.l2MerkleRootsDepths p.merkleRoot ≠ 0
  depth : (s.l2MerkleRootsDepths p.merkleRoot).toNat = p.proof.length
  unclaimed : s.messageClaimedBitMap p.messageNumber = false
  leafIndex_lt : p.leafIndex.toNat < 2 ^ p.proof.length
  climb : Merkle.climb (efficientKeccak keccak) p.leafIndex.toNat (hashMessage keccak p.message) p.proof = p.merkleRoot
  state : ∃ rateLimiter, s' = { s with
    messageClaimedBitMap := update s.messageClaimedBitMap p.messageNumber true
    rateLimiter := rateLimiter }

variable {p : ClaimMessageWithProofParams}

theorem validateAndConsumeMessageProof_consumes {keccak : List Byte → Word} {leaf : Word}
    (h : validateAndConsumeMessageProof keccak ctx p s = .ok (s', leaf)) : Consumes keccak p s s' leaf := by
  simp only [validateAndConsumeMessageProof, bind_eq_ok, throw_eq_error, error_bind,
    pure_eq_ok, ite_error_eq_ok] at h
  obtain ⟨_, -, hne, hdepth, _, hclaimed, _, -, rateLimiter, -, valid, hvalid, htrue, h⟩ := h
  simp only [setL2L1MessageToClaimed, ite_error_eq_ok, ok.injEq] at hclaimed
  obtain ⟨hbit, rfl⟩ := hclaimed
  cases h
  have hv : valid = true := by simpa using htrue
  rw [hv, verifyMerkleProof_eq_ok_true] at hvalid
  exact ⟨rfl, hne, not_not.1 hdepth, by simpa using hbit, hvalid.2.1, hvalid.2.2, rateLimiter, rfl⟩

theorem distributeFees_step {fee : Word} {to_ feeRecipient : Address} {calldata : List Byte} {leaf : Word}
    (hs : s'.core = s.core) :
    (distributeFees leaveNonReentrant ctx fee to_ calldata feeRecipient s' [Log.messageClaimed leaf]).Segments
      (Step P G direct) s := by
  have hlog : ∀ x ∈ [Log.messageClaimed leaf], x.Unrelated := by simp [Log.Unrelated]
  exact distributeFees_segments (.other hs hlog) (.other hs hlog) (fun _ => .unchanged) fun _ => .other rfl (by simp)

theorem claimMessageWithProof_segments :
    (claimMessageWithProof P.keccak ctx p s).Segments (Step P G direct) s := by
  refine attempt_segments fun s₁ h₁ => attempt_segments fun ⟨s₂, leaf⟩ h₂ => ?_
  obtain ⟨-, rfl⟩ := enterNonReentrant_eq_ok h₁
  have hc := validateAndConsumeMessageProof_consumes h₂
  obtain ⟨_, rfl⟩ := hc.state
  exact ⟨.consume p.messageNumber hc.unclaimed rfl, fun _ _ =>
    ite_segments (fun _ => distributeFees_step rfl) fun _ => trivial⟩

theorem claimMessageWithProofAndWithdrawLST_segments :
    (claimMessageWithProofAndWithdrawLST P.keccak ctx p s).Segments (Step P G direct) s := by
  refine attempt_segments fun s₁ h₁ => attempt_segments fun ⟨s₂, leaf⟩ h₂ => ?_
  obtain ⟨-, rfl⟩ := enterNonReentrant_eq_ok h₁
  simp only [throw_eq_error, error_bind, ite_error_eq_ok] at h₂
  have hc := validateAndConsumeMessageProof_consumes h₂.2.2
  obtain ⟨_, rfl⟩ := hc.state
  exact ⟨.consume p.messageNumber hc.unclaimed rfl, fun _ _ =>
    ite_segments (fun _ => .other rfl (by simp [Log.Unrelated])) fun _ => trivial⟩

theorem claimMessage_segments {m : Message} {feeRecipient : Address} :
    (claimMessage P.keccak ctx m feeRecipient s).Segments (Step P G direct) s := by
  refine attempt_segments fun s₁ h₁ => attempt_segments fun s₂ h₂ => ?_
  obtain ⟨-, rfl⟩ := enterNonReentrant_eq_ok h₁
  simp only [bind_eq_ok, throw_eq_error, error_bind, pure_eq_ok, ite_error_eq_ok,
    ok.injEq] at h₂
  obtain ⟨_, -, -, _, -, _, -, rfl⟩ := h₂
  exact ⟨.other rfl (by simp), fun _ _ =>
    ite_segments (fun _ => distributeFees_step rfl) fun _ => trivial⟩

theorem finalizeBlocks_segments {cd : Calldata} : (finalizeBlocks P.keccak ctx cd s).Segments (Step P G direct) s :=
  attempt_segments fun _ hr => ⟨.finalize _ (prepareFinalization_finalizes hr), fun _ _ =>
    ite_segments (fun _ => ite_segments (fun _ => .unchanged) fun _ => trivial) fun _ => trivial⟩

theorem Submits.step (h : Submits s l s') : Step P G direct s l s' := by
  obtain ⟨⟨_, rfl⟩, _, _, _, rfl⟩ := h
  exact .other rfl (by simp [Log.Unrelated])

/-- A call that succeeds leaves the core alone and logs nothing. -/
def KeepsCore (s : L1) (x : Except Error (L1 × List Log)) : Prop := ∀ s' l, x = .ok (s', l) → s'.core = s.core ∧ l = []

theorem keepsCore_ok (h : s'.core = s.core) : KeepsCore s (.ok (s', [])) := by
  rintro _ _ ⟨⟩
  exact ⟨h, rfl⟩

theorem keepsCore_unless {p : Prop} [Decidable p] {e : Error} {x y : Except Error (L1 × List Log)} (hx : x = .error e)
    (hy : KeepsCore s y) : KeepsCore s (if p then x else y) := by
  subst hx
  exact fun s' l h => hy s' l (ite_error_eq_ok.1 h).2

theorem keepsCore_bind {α : Type} {c : Except Error α} {f : α → Except Error (L1 × List Log)}
    (h : ∀ a, KeepsCore s (f a)) :
    KeepsCore s (c >>= f) := fun s' l hx =>
  let ⟨a, _, hx⟩ := bind_eq_ok.1 hx
  h a s' l hx

theorem KeepsCore.segments {x : Except Error (L1 × List Log)} (h : KeepsCore s x) :
    (atomic x).Segments (Step P G direct) s :=
  atomic_segments fun s' l hx => .other (h s' l hx).1 (by simp [(h s' l hx).2])

/-- The call is one of `storeForcedTransaction`, without the gateway. -/
def Action.isDirect (a : Action) : Bool :=
  match a.entrypoint with
  | .storeForcedTransaction _ _ _ _ => true
  | _ => false

theorem code_segments (a : Action) (s : L1) : (code P G a s).Segments (Step P G a.isDirect) s := by
  obtain ⟨ctx, e⟩ := a
  cases e with
  | sendMessage => exact atomic_segments fun s' l h => let ⟨hash, hs⟩ := sendMessage_sends h; .send hash hs
  | reportNativeYield =>
    exact atomic_segments fun s' l h => let ⟨hash, hs⟩ := reportNativeYield_sends h; .send hash hs
  | claimMessageWithProof => exact claimMessageWithProof_segments
  | claimMessageWithProofAndWithdrawLST => exact claimMessageWithProofAndWithdrawLST_segments
  | claimMessage => exact claimMessage_segments
  | finalizeBlocks => exact finalizeBlocks_segments
  | submitBlobs => exact atomic_segments fun s' l h => (submitBlobs_submits h).step
  | submitDataAsCalldata => exact atomic_segments fun s' l h => (submitDataAsCalldata_submits h).step
  | acceptShnarfData => exact atomic_segments fun s' l h => (acceptShnarfData_submits h).step
  | storeForcedTransaction =>
    exact atomic_segments fun s' l h => .register _ _ rfl (storeForcedTransaction_registers h)
  | submitForcedTransaction => exact atomic_segments fun s' l h => .submit _ (submitForcedTransaction_submits h)
  | transferFundsForNativeYield =>
    exact attempt_segments fun _ _ =>
      ⟨.unchanged, fun _ _ => ite_segments (fun _ => .unchanged) fun _ => trivial⟩
  | fund => exact KeepsCore.segments (keepsCore_unless rfl (keepsCore_ok rfl))
  | setYieldManager | toggleUseAddressFilter | setForcedTransactionFee | setVerifierAddress | setAddressFilter =>
    exact KeepsCore.segments (keepsCore_bind fun _ => keepsCore_unless rfl (keepsCore_ok rfl))
  | resetRateLimitAmount | resetAmountUsedInPeriod | unsetVerifierAddress =>
    exact KeepsCore.segments (keepsCore_bind fun _ => keepsCore_ok rfl)

theorem run_steps (calls : Calls Action) (s : L1) :
    Steps (Step P G True) s (events (calls.exec (code P G) s).2) (calls.exec (code P G) s).1 :=
  calls.exec_steps (fun a s => (code_segments a s).mono fun h => h.mono fun _ => trivial) s

/-- The storage of messaging is append-only from `s` to `s'`. -/
structure Keeps (s s' : L1) : Prop where
  next : s.nextMessageNumber ≤ s'.nextMessageNumber
  rollingHashes : ∀ n < s.nextMessageNumber, s'.rollingHashes n = s.rollingHashes n
  claimed : ∀ n, s.messageClaimedBitMap n = true → s'.messageClaimedBitMap n = true
  depths : ∀ r, s.l2MerkleRootsDepths r ≠ 0 → s'.l2MerkleRootsDepths r = s.l2MerkleRootsDepths r

theorem Step.keeps (h : Step P G direct s l s') : Keeps s s' := by
  cases h with
  | send _ h =>
    obtain ⟨hlt, rfl, -⟩ := h
    exact ⟨by bv_omega, fun n hn => Function.update_of_ne (by bv_omega) .., fun _ => id, fun _ _ => rfl⟩
  | consume n _ hc =>
    simp only [L1.core, Core.mk.injEq] at hc
    constructor <;> simp +contextual [hc, Function.update_apply]
  | finalize f h =>
    rw [h.state]
    exact ⟨BitVec.le_refl _, fun _ _ => rfl, fun _ => id, fun r hr => if_neg fun hm => hr (h.newRoots r hm)⟩
  | register _ _ _ h =>
    obtain ⟨_, rfl⟩ := h.state
    constructor <;> simp
  | submit _ h =>
    obtain ⟨_, _, _, -, h, -⟩ := h.registers
    obtain ⟨_, rfl⟩ := h.state
    constructor <;> simp
  | other hc =>
    simp only [L1.core, Core.mk.injEq] at hc
    constructor <;> simp [hc]

/-- No run takes anything of it away, whatever calls other contracts make back. -/
theorem run_keeps (calls : Calls Action) (s : L1) : Keeps s (calls.exec (code P G) s).1 := by
  have hsteps := run_steps (P := P) (G := G) calls s
  generalize (calls.exec (code P G) s).1 = s', events (calls.exec (code P G) s).2 = l at hsteps ⊢
  induction hsteps with
  | refl => constructor <;> simp
  | tail _ hs ih =>
    have h := hs.keeps
    refine ⟨BitVec.le_trans ih.next h.next, fun n hn => ?_, fun n hn => h.claimed n (ih.claimed n hn), fun r hr => ?_⟩
    · rw [h.rollingHashes n (Nat.lt_of_lt_of_le hn ih.next), ih.rollingHashes n hn]
    · rw [h.depths r (by rwa [ih.depths r hr]), ih.depths r hr]

/-! ### A deployment -/

def sampleKeccak (bytes : List Byte) : Word := bytes.foldl (fun h b => 31 * h + b.setWidth 256 + 1) 7

def Primitives.sample : Primitives where
  keccak := sampleKeccak
  mimcHash := sampleKeccak
  rlpEncode _ := []
  ecdsaRecover _ _ _ _ := some 1

def GatewayConfig.sample : GatewayConfig where
  destinationChainId := 1
  l2BlockBuffer := 1
  maxGasLimit := 1000000
  maxInputLengthLimit := 1000
  addressFilter := 1
  l2BlockDurationSeconds := 1
  blockNumberDeadlineBuffer := 1
  destinationChainId_ne := by decide
  l2BlockBuffer_ne := by decide
  maxGasLimit_ne := by decide
  maxInputLengthLimit_ne := by decide
  addressFilter_ne := by decide
  l2BlockDurationSeconds_ne := by decide
  blockNumberDeadlineBuffer_ne := by decide

/-- A call by an account with all roles while nothing is paused. -/
def Ctx.sample : Ctx where
  self := 100
  sender := 1
  value := 0
  timestamp := 1000
  blockNumber := 10
  balance := 0
  paused _ := false
  hasRole _ := true
  gatewayHasRole _ := true
  isEOA _ := true
  deliveryFee := 0
  addressIsFiltered _ _ := false
  blobShnarfExists _ _ := 1
  getChainConfiguration _ := some 1
  verify _ _ _ := true
  blobhash _ := 0
  pointEvaluation _ := none
  memory _ := 0
  freeMemoryPointer := 128

def InitializationData.sample : InitializationData where
  initialStateRootHash := 1
  initialL2BlockNumber := 0
  genesisTimestamp := 100
  defaultVerifier := 1
  rateLimitPeriodInSeconds := 100
  rateLimitAmountInWei := 1000
  defaultAdmin := 1
  shnarfProvider := 7
  addressFilter := 1
  livenessRecoveryOperator := 1
  yieldManager := 1

/-- A first finalization after `InitializationData.sample`. -/
def FinalizationData.sample : FinalizationData where
  parentStateRootHash := 1
  endBlockNumber := 5
  parentShnarf := 0
  snarkHash := 0
  finalStateRootHash := 2
  dataEvaluationPoint := 0
  dataEvaluationClaim := 0
  lastFinalizedTimestamp := 100
  finalTimestamp := 200
  lastFinalizedL1RollingHash := 0
  l1RollingHash := 0
  lastFinalizedL1RollingHashMessageNumber := 0
  l1RollingHashMessageNumber := 0
  l2MerkleTreesDepth := 1
  lastFinalizedForcedTransactionNumber := 0
  finalForcedTransactionNumber := 0
  lastFinalizedForcedTransactionRollingHash := 0

/-- The calldata of `finalizeBlocks` for these members and at most one root, with a proof of one byte and the other
arrays empty. -/
def FinalizationData.calldata (d : FinalizationData) (root : Option Word) : Calldata where
  bytes := [0, 0, 0, 0] ++ words ([0x60, 0, 0xa0, 1, 1] ++
    [d.parentStateRootHash, d.endBlockNumber, d.parentShnarf, d.snarkHash, d.finalStateRootHash, d.dataEvaluationPoint,
      d.dataEvaluationClaim, d.lastFinalizedTimestamp, d.finalTimestamp, d.lastFinalizedL1RollingHash, d.l1RollingHash,
      d.lastFinalizedL1RollingHashMessageNumber, d.l1RollingHashMessageNumber, d.l2MerkleTreesDepth,
      d.lastFinalizedForcedTransactionNumber, d.finalForcedTransactionNumber,
      d.lastFinalizedForcedTransactionRollingHash] ++
    [0x280, BitVec.ofNat 256 (0x2a0 + 0x20 * root.toList.length),
      BitVec.ofNat 256 (0x2c0 + 0x20 * root.toList.length)] ++
    [BitVec.ofNat 256 root.toList.length] ++ root.toList ++ [0, 0])
  size_lt := by cases root <;> simp

end Lineth.Rollup
