import Lineth.Rollup.State

/-!
# Data submission

A shnarf commits to a parent shnarf and one blob of compressed data. The acceptors differ in where the data comes from
(EIP-4844 blobs, calldata, or only its shnarf); each ends in `_acceptShnarfData`. -/

namespace Lineth.Rollup

open Evm Messaging Except

def blsCurveModulus : Nat := 52435875175126190479447740508185965837690552500527637822603658699938581184513

def pointEvaluationReturnDataLength : Nat := 64

def pointEvaluationFieldElementsLength : Nat := 4096

def shnarfExistsDefaultValue : Word := 1

variable (keccak : List Byte → Word)

def computeShnarf (parentShnarf snarkHash finalStateRootHash dataEvaluationPoint dataEvaluationClaim : Word) : Word :=
  keccak (words [parentShnarf, snarkHash, finalStateRootHash, dataEvaluationPoint, dataEvaluationClaim])

def acceptShnarf (parentShnarf shnarf finalStateRootHash : Word) (s : L1) : Except Error (L1 × List Log) := do
  if s.blobShnarfExists parentShnarf = 0 then throw (.parentShnarfNotSubmitted parentShnarf)
  if s.blobShnarfExists shnarf ≠ 0 then throw (.shnarfAlreadySubmitted shnarf)
  return ({ s with blobShnarfExists := Function.update s.blobShnarfExists shnarf shnarfExistsDefaultValue },
    [.dataSubmittedV3 parentShnarf shnarf finalStateRootHash])

def acceptShnarfData (ctx : Ctx) (parentShnarf shnarf finalStateRootHash : Word) (s : L1) :
    Except Error (L1 × List Log) := do
  requireTypeAndGeneralNotPaused ctx .stateDataSubmission
  onlyRole ctx .operator
  if shnarf = 0 then throw .shnarfSubmissionIsZeroHash
  if finalStateRootHash = 0 then throw .finalStateRootHashIsZeroHash
  acceptShnarf parentShnarf shnarf finalStateRootHash s

structure BlobSubmission where
  dataEvaluationClaim : Word
  kzgCommitment : List Byte
  kzgProof : List Byte
  finalStateRootHash : Word
  snarkHash : Word

def verifyPointEvaluation (ctx : Ctx) (currentDataHash dataEvaluationPoint dataEvaluationClaim : Word)
    (kzgCommitment kzgProof : List Byte) : Except Error Unit := do
  let point := BitVec.ofNat 256 (dataEvaluationPoint.toNat % blsCurveModulus)
  match ctx.pointEvaluation (words [currentDataHash, point, dataEvaluationClaim] ++ kzgCommitment ++ kzgProof) with
  | none => throw .pointEvaluationFailed
  | some returnData =>
    if returnData.length ≠ pointEvaluationReturnDataLength then
      throw (.precompileReturnDataLengthWrong pointEvaluationReturnDataLength returnData.length)
    let fieldElements := ofBytes (returnData.take 32)
    let modulus := ofBytes (returnData.drop 32)
    if fieldElements.toNat ≠ pointEvaluationFieldElementsLength ∨ modulus.toNat ≠ blsCurveModulus then
      throw (.pointEvaluationResponseInvalid fieldElements modulus)

/-- The loop of `_submitBlobs` from blob `i` on; `shnarf` is the shnarf computed so far. -/
def submitBlobsLoop (ctx : Ctx) : Nat → Word → List BlobSubmission → Except Error Word
  | _, shnarf, [] => .ok shnarf
  | i, shnarf, b :: bs => do
    let currentDataHash := ctx.blobhash i
    if currentDataHash = 0 then throw (.emptyBlobDataAtIndex i)
    let currentDataEvaluationPoint := efficientKeccak keccak b.snarkHash currentDataHash
    verifyPointEvaluation ctx currentDataHash currentDataEvaluationPoint b.dataEvaluationClaim
      b.kzgCommitment b.kzgProof
    submitBlobsLoop ctx (i + 1)
      (computeShnarf keccak shnarf b.snarkHash b.finalStateRootHash currentDataEvaluationPoint b.dataEvaluationClaim) bs

def submitBlobs (ctx : Ctx) (blobSubmissions : List BlobSubmission) (parentShnarf finalBlobShnarf : Word) (s : L1) :
    Except Error (L1 × List Log) := do
  requireTypeAndGeneralNotPaused ctx .stateDataSubmission
  onlyRole ctx .operator
  match blobSubmissions.getLast? with
  | none => throw .blobSubmissionDataIsMissing
  | some last =>
    if ctx.blobhash blobSubmissions.length ≠ 0 then throw (.blobSubmissionDataEmpty blobSubmissions.length)
    let computedShnarf ← submitBlobsLoop keccak ctx 0 parentShnarf blobSubmissions
    let r ← acceptShnarf parentShnarf finalBlobShnarf last.finalStateRootHash s
    if finalBlobShnarf ≠ computedShnarf then throw (.finalShnarfWrong finalBlobShnarf computedShnarf)
    return r

structure CompressedCalldataSubmission where
  finalStateRootHash : Word
  snarkHash : Word
  compressedData : List Byte

/-- `_calculateY`: the chunks are taken from the last to the first. -/
def calculateY (data : List Byte) (dataEvaluationPoint : Word) : Except Error Word := do
  if data.length % 0x20 ≠ 0 then throw .bytesLengthNotMultipleOf32
  let y ← ((Memory.ofList data).readWords 0 (data.length / 0x20)).foldrM (fun (chunk : Word) (y : Nat) => do
    if chunk >>> 248 ≠ 0 then throw .firstByteIsNotZero
    pure ((y * dataEvaluationPoint.toNat % blsCurveModulus + chunk.toNat) % blsCurveModulus)) 0
  return BitVec.ofNat 256 y

def submitDataAsCalldata (ctx : Ctx) (submission : CompressedCalldataSubmission) (parentShnarf expectedShnarf : Word)
    (s : L1) : Except Error (L1 × List Log) := do
  requireTypeAndGeneralNotPaused ctx .stateDataSubmission
  onlyRole ctx .operator
  if submission.compressedData.length = 0 then throw .emptySubmissionData
  let currentDataHash := keccak submission.compressedData
  let dataEvaluationPoint := efficientKeccak keccak submission.snarkHash currentDataHash
  let y ← calculateY submission.compressedData dataEvaluationPoint
  let computedShnarf := computeShnarf keccak parentShnarf submission.snarkHash submission.finalStateRootHash
    dataEvaluationPoint y
  let r ← acceptShnarf parentShnarf expectedShnarf submission.finalStateRootHash s
  if expectedShnarf ≠ computedShnarf then throw (.finalShnarfWrong expectedShnarf computedShnarf)
  return r

/-! ### What a submission changes -/

/-- Every acceptor changes the shnarf table only, and logs one submission. -/
structure Submits (s : L1) (l : List Log) (s' : L1) : Prop where
  state : ∃ shnarfs, s' = { s with blobShnarfExists := shnarfs }
  logs : ∃ parent shnarf root, l = [.dataSubmittedV3 parent shnarf root]

variable {keccak} {ctx : Ctx} {s s' : L1} {l : List Log}

theorem acceptShnarf_submits {parent shnarf root : Word} (h : acceptShnarf parent shnarf root s = .ok (s', l)) :
    Submits s l s' := by
  simp only [acceptShnarf, throw_eq_error, pure_eq_ok, error_bind, ite_error_eq_ok,
    ok.injEq, Prod.mk.injEq] at h
  obtain ⟨-, -, rfl, rfl⟩ := h
  exact ⟨⟨_, rfl⟩, _, _, _, rfl⟩

theorem acceptShnarfData_submits {parent shnarf root : Word}
    (h : acceptShnarfData ctx parent shnarf root s = .ok (s', l)) : Submits s l s' := by
  simp only [acceptShnarfData, bind_eq_ok, throw_eq_error, error_bind, ite_error_eq_ok] at h
  obtain ⟨_, -, _, -, -, -, h⟩ := h
  exact acceptShnarf_submits h

theorem submitBlobs_submits {blobs : List BlobSubmission} {parent final : Word}
    (h : submitBlobs keccak ctx blobs parent final s = .ok (s', l)) : Submits s l s' := by
  simp only [submitBlobs, bind_eq_ok, throw_eq_error, error_bind, pure_eq_ok] at h
  obtain ⟨_, -, _, -, h⟩ := h
  split at h
  · cases h
  · simp only [bind_eq_ok, ite_error_eq_ok, ok.injEq] at h
    obtain ⟨-, _, -, _, hr, -, rfl⟩ := h
    exact acceptShnarf_submits hr

theorem submitDataAsCalldata_submits {submission : CompressedCalldataSubmission} {parent expected : Word}
    (h : submitDataAsCalldata keccak ctx submission parent expected s = .ok (s', l)) : Submits s l s' := by
  simp only [submitDataAsCalldata, bind_eq_ok, throw_eq_error, error_bind, pure_eq_ok,
    ite_error_eq_ok, ok.injEq] at h
  obtain ⟨_, -, _, -, -, _, -, _, hr, -, rfl⟩ := h
  exact acceptShnarf_submits hr

end Lineth.Rollup
