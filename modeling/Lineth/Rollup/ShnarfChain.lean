import Lineth.Lib.RollingHash
import Lineth.Rollup.Contract

/-!
# The chain of shnarfs

Each accepted submission computes a shnarf from its parent, one `_computeShnarf` step for each blob, and stores the
last one only. The stored shnarfs form a tree: in every run each of them is at the end of a chain of accepted
submissions that starts at the genesis shnarf. -/

namespace Lineth.Rollup

open Evm Messaging Except List

variable (keccak : List Byte → Word)

inductive Submission where
  | blobs (ctx : Ctx) (blobSubmissions : List BlobSubmission) (parentShnarf finalBlobShnarf : Word)
  | calldata (ctx : Ctx) (submission : CompressedCalldataSubmission) (parentShnarf expectedShnarf : Word)

namespace Submission

def parent : Submission → Word
  | blobs _ _ parentShnarf _ => parentShnarf
  | calldata _ _ parentShnarf _ => parentShnarf

def shnarf : Submission → Word
  | blobs _ _ _ finalBlobShnarf => finalBlobShnarf
  | calldata _ _ _ expectedShnarf => expectedShnarf

def exec (s : L1) : Submission → Except Error (L1 × List Log)
  | blobs ctx blobSubmissions parentShnarf finalBlobShnarf =>
    submitBlobs keccak ctx blobSubmissions parentShnarf finalBlobShnarf s
  | calldata ctx submission parentShnarf expectedShnarf =>
    submitDataAsCalldata keccak ctx submission parentShnarf expectedShnarf s

end Submission

/-- A call; one that reverts leaves the storage as it was. -/
def L1.submit (s : L1) (c : Submission) : L1 :=
  match c.exec keccak s with
  | .ok (s', _) => s'
  | .error _ => s

def L1.submitAll (s : L1) (cs : List Submission) : L1 := cs.foldl (L1.submit keccak) s

/-- What a `_computeShnarf` step adds to its parent. -/
structure Link where
  snarkHash : Word
  finalStateRootHash : Word
  dataEvaluationPoint : Word
  dataEvaluationClaim : Word
deriving DecidableEq

def Link.encode (parent : Word) (l : Link) : List Byte :=
  words [parent, l.snarkHash, l.finalStateRootHash, l.dataEvaluationPoint, l.dataEvaluationClaim]

def Link.compute (parent : Word) (l : Link) : Word := keccak (l.encode parent)

/-- The link of the blob at position `i`, whose point is hashed from its `blobhash`. -/
def BlobSubmission.link (ctx : Ctx) (b : BlobSubmission) (i : Nat) : Link :=
  ⟨b.snarkHash, b.finalStateRootHash, efficientKeccak keccak b.snarkHash (ctx.blobhash i), b.dataEvaluationClaim⟩

def blobLinks (ctx : Ctx) (i : Nat) (bs : List BlobSubmission) : List Link :=
  (bs.zipIdx i).map fun p => p.1.link keccak ctx p.2

def Submission.links : Submission → Except Error (List Link)
  | blobs ctx blobSubmissions _ _ => return blobLinks keccak ctx 0 blobSubmissions
  | calldata _ submission _ _ => do
    let point := efficientKeccak keccak submission.snarkHash (keccak submission.compressedData)
    let y ← calculateY submission.compressedData point
    return [⟨submission.snarkHash, submission.finalStateRootHash, point, y⟩]

/-- The shnarf is computed from the genesis shnarf: by the links of calls, each from a stored shnarf to a stored one. -/
inductive Derived (genesis : Word) (stored : Word → Word) (cs : List Submission) : Word → Prop
  | genesis : Derived genesis stored cs genesis
  | call {c : Submission} {links : List Link} (hc : c ∈ cs) (hparent : stored c.parent ≠ 0)
      (hstored : stored c.shnarf ≠ 0)
      (hlinks : c.links keccak = .ok links) (hne : links ≠ [])
      (hshnarf : links.foldl (Link.compute keccak) c.parent = c.shnarf)
      (h : Derived genesis stored cs c.parent) : Derived genesis stored cs c.shnarf

variable {keccak}

/-- The precompile has accepted the claim of a blob: its hash, its point and its claim, with a valid answer. -/
structure Evaluated (keccak : List Byte → Word) (ctx : Ctx) (b : BlobSubmission) (i : Nat) : Prop where
  blobhash_ne : ctx.blobhash i ≠ 0
  evaluation : ∃ answer, ctx.pointEvaluation (words [ctx.blobhash i,
      BitVec.ofNat 256 ((b.link keccak ctx i).dataEvaluationPoint.toNat % blsCurveModulus),
        (b.link keccak ctx i).dataEvaluationClaim] ++
      b.kzgCommitment ++ b.kzgProof) = some answer ∧ answer.length = pointEvaluationReturnDataLength ∧
    (ofBytes (answer.take 32)).toNat = pointEvaluationFieldElementsLength ∧
      (ofBytes (answer.drop 32)).toNat = blsCurveModulus

variable {ctx : Ctx}

theorem verifyPointEvaluation_eq_ok {hash point claim : Word} {commitment proof : List Byte}
    (h : verifyPointEvaluation ctx hash point claim commitment proof = .ok ()) :
    ∃ answer, ctx.pointEvaluation (words [hash, BitVec.ofNat 256 (point.toNat % blsCurveModulus),
      claim] ++ commitment ++ proof) =
        some answer ∧ answer.length = pointEvaluationReturnDataLength ∧
      (ofBytes (answer.take 32)).toNat = pointEvaluationFieldElementsLength ∧
        (ofBytes (answer.drop 32)).toNat = blsCurveModulus := by
  unfold verifyPointEvaluation at h
  dsimp only at h
  split at h
  · cases h
  · next answer hanswer =>
    simp only [throw_eq_error, error_bind, ite_error_eq_ok, not_or, not_not, ne_eq] at h
    exact ⟨answer, hanswer, h.1, h.2.1.1, h.2.1.2⟩

theorem submitBlobsLoop_eq_ok {bs : List BlobSubmission} {i : Nat} {shnarf r : Word}
    (h : submitBlobsLoop keccak ctx i shnarf bs = .ok r) :
    r = (blobLinks keccak ctx i bs).foldl (Link.compute keccak) shnarf ∧
    ∀ p ∈ bs.zipIdx i, Evaluated keccak ctx p.1 p.2 := by
  induction bs generalizing i shnarf with
  | nil =>
    cases h
    exact ⟨rfl, fun p hp => absurd hp not_mem_nil⟩
  | cons b bs ih =>
    simp only [submitBlobsLoop, throw_eq_error, error_bind, ite_error_eq_ok, bind_eq_ok] at h
    obtain ⟨hhash, _, heval, h⟩ := h
    obtain ⟨hr, hrest⟩ := ih h
    refine ⟨hr, ?_⟩
    rw [zipIdx_cons, forall_mem_cons]
    exact ⟨⟨hhash, verifyPointEvaluation_eq_ok heval⟩, hrest⟩

/-- An accepted call stores its shnarf, which its links compute from a stored parent. -/
structure Accepted (keccak : List Byte → Word) (s : L1) (c : Submission) (s' : L1) : Prop where
  parent : s.blobShnarfExists c.parent ≠ 0
  state : s' = { s with blobShnarfExists := Function.update s.blobShnarfExists c.shnarf shnarfExistsDefaultValue }
  links : ∃ links, c.links keccak = .ok links ∧ links ≠ [] ∧ links.foldl (Link.compute keccak) c.parent = c.shnarf

theorem acceptShnarf_eq_ok {parent shnarf root : Word} {s : L1} {r : L1 × List Log}
    (h : acceptShnarf parent shnarf root s = .ok r) :
    s.blobShnarfExists parent ≠ 0 ∧
      r.1 = { s with blobShnarfExists := Function.update s.blobShnarfExists shnarf shnarfExistsDefaultValue } := by
  simp only [acceptShnarf, throw_eq_error, pure_eq_ok, error_bind, ite_error_eq_ok, ok.injEq] at h
  obtain ⟨hparent, -, rfl⟩ := h
  exact ⟨hparent, rfl⟩

variable {s s' : L1} {l : List Log}

theorem submitBlobs_eq_ok {bs : List BlobSubmission} {parent final : Word}
    (h : submitBlobs keccak ctx bs parent final s = .ok (s', l)) :
    Accepted keccak s (.blobs ctx bs parent final) s' ∧ ctx.blobhash bs.length = 0 ∧
      ∀ i (hi : i < bs.length), Evaluated keccak ctx bs[i] i := by
  simp only [submitBlobs, bind_eq_ok, throw_eq_error, error_bind, pure_eq_ok] at h
  obtain ⟨_, -, _, -, h⟩ := h
  split at h
  · cases h
  · next last hlast =>
    simp only [bind_eq_ok, ite_error_eq_ok, ok.injEq, not_not, ne_eq] at h
    obtain ⟨hcount, computed, hloop, r, hr, rfl, rfl⟩ := h
    obtain ⟨hcomputed, hall⟩ := submitBlobsLoop_eq_ok hloop
    obtain ⟨hparent, hstate⟩ := acceptShnarf_eq_ok hr
    refine ⟨⟨hparent, hstate, _, rfl, ?_, hcomputed.symm⟩, hcount, fun i hi => ?_⟩
    · intro hnil
      have hzero : bs.length = 0 := by
        rw [← length_zipIdx (i := 0), ← length_map (f := fun p => p.1.link keccak ctx p.2),
          ← blobLinks, hnil, length_nil]
      rw [eq_nil_of_length_eq_zero hzero] at hlast
      cases hlast
    · exact hall (bs[i], i) (mem_zipIdx_iff_getElem?.2 (getElem?_eq_getElem hi))

theorem submitDataAsCalldata_eq_ok {d : CompressedCalldataSubmission} {parent expected : Word}
    (h : submitDataAsCalldata keccak ctx d parent expected s = .ok (s', l)) :
    Accepted keccak s (.calldata ctx d parent expected) s' := by
  simp only [submitDataAsCalldata, bind_eq_ok, throw_eq_error, error_bind, pure_eq_ok,
    ite_error_eq_ok, ok.injEq, not_not, ne_eq] at h
  obtain ⟨_, -, _, -, -, y, hy, r, hr, hshnarf, rfl⟩ := h
  obtain ⟨hparent, hstate⟩ := acceptShnarf_eq_ok hr
  refine ⟨hparent, hstate,
    [⟨d.snarkHash, d.finalStateRootHash, efficientKeccak keccak d.snarkHash (keccak d.compressedData), y⟩], ?_,
    cons_ne_nil _ _, hshnarf.symm⟩
  rw [Submission.links, hy, ok_bind, pure_eq_ok]

theorem Submission.exec_eq_ok {c : Submission} (h : c.exec keccak s = .ok (s', l)) : Accepted keccak s c s' := by
  cases c with
  | blobs ctx bs parent final => exact (submitBlobs_eq_ok h).1
  | calldata ctx d parent expected => exact submitDataAsCalldata_eq_ok h

theorem Accepted.stored {c : Submission} (h : Accepted keccak s c s') {x : Word} :
    s'.blobShnarfExists x ≠ 0 ↔ x = c.shnarf ∨ s.blobShnarfExists x ≠ 0 := by
  rw [h.state]
  by_cases hx : x = c.shnarf
  · subst hx
    simp [shnarfExistsDefaultValue]
  · simp [hx]

theorem Derived.mono {genesis x : Word} {stored stored' : Word → Word} {cs cs' : List Submission}
    (h : Derived keccak genesis stored cs x)
    (hstored : ∀ y, stored y ≠ 0 → stored' y ≠ 0) (hcs : ∀ c ∈ cs, c ∈ cs') : Derived keccak genesis stored' cs' x := by
  induction h with
  | genesis => exact .genesis
  | call hc hparent hend hlinks hne hshnarf _ ih =>
    exact .call (hcs _ hc) (hstored _ hparent) (hstored _ hend) hlinks hne hshnarf ih

theorem derived_submit {genesis : Word} {s : L1} {cs : List Submission} (c : Submission)
    (h : ∀ x, s.blobShnarfExists x ≠ 0 → Derived keccak genesis s.blobShnarfExists cs x) :
    ∀ x, (s.submit keccak c).blobShnarfExists x ≠ 0 →
      Derived keccak genesis (s.submit keccak c).blobShnarfExists (cs ++ [c]) x := by
  rw [L1.submit]
  cases hexec : c.exec keccak s with
  | error e => exact fun x hx => (h x hx).mono (fun _ hy => hy) fun c hc => mem_append_left _ hc
  | ok r =>
    have hacc := Submission.exec_eq_ok hexec
    have hmono (x : Word) (hx : s.blobShnarfExists x ≠ 0) : Derived keccak genesis r.1.blobShnarfExists (cs ++ [c]) x :=
      (h x hx).mono (fun y hy => hacc.stored.2 (.inr hy)) fun c hc => mem_append_left _ hc
    intro x hx
    rcases hacc.stored.1 hx with rfl | hx
    · obtain ⟨links, hlinks, hne, hshnarf⟩ := hacc.links
      exact .call (mem_append_right _ (mem_singleton_self c)) (hacc.stored.2 (.inr hacc.parent))
        (hacc.stored.2 (.inl rfl))
        hlinks hne hshnarf (hmono _ hacc.parent)
    · exact hmono x hx

theorem derived_submitAll {genesis : Word} {s : L1} (hs : ∀ x, s.blobShnarfExists x ≠ 0 → x = genesis)
    (cs : List Submission) :
    ∀ x, (s.submitAll keccak cs).blobShnarfExists x ≠ 0 →
      Derived keccak genesis (s.submitAll keccak cs).blobShnarfExists cs x := by
  induction cs using reverseRecOn with
  | nil => exact fun x hx => hs x hx ▸ .genesis
  | append_singleton cs c ih =>
    rw [L1.submitAll, foldl_append]
    exact derived_submit c ih

/-! ### What a shnarf binds -/

/-- The strings hashed for the shnarf of a call with blobs. -/
def blobPreimages (keccak : List Byte → Word) (ctx : Ctx) (parent : Word) (bs : List BlobSubmission) :
    Set (List Byte) :=
  {x | ∃ p ∈ RollingHash.inputs (Link.compute keccak) parent (blobLinks keccak ctx 0 bs), x = p.2.encode p.1} ∪
    {x | ∃ p ∈ bs.zipIdx, x = words [p.1.snarkHash, ctx.blobhash p.2]}

theorem Link.encode_injective : Function.Injective fun p : Word × Link => p.2.encode p.1 := by
  rintro ⟨a, ⟨b, c, d, e⟩⟩ ⟨a', ⟨b', c', d', e'⟩⟩ h
  have := words_injective h
  simp only [List.cons.injEq, and_true] at this
  obtain ⟨rfl, rfl, rfl, rfl, rfl⟩ := this
  rfl

theorem blobs_bound {ctx ctx' : Ctx} {bs bs' : List BlobSubmission} {parent parent' : Word}
    (hinj : Set.InjOn keccak (blobPreimages keccak ctx parent bs ∪ blobPreimages keccak ctx' parent' bs'))
    (hlen : bs.length = bs'.length)
    (h : (blobLinks keccak ctx 0 bs).foldl (Link.compute keccak) parent =
      (blobLinks keccak ctx' 0 bs').foldl (Link.compute keccak) parent') :
    parent = parent' ∧ ∀ i (hi : i < bs.length) (hi' : i < bs'.length), ctx.blobhash i = ctx'.blobhash i ∧
      bs[i].snarkHash = bs'[i].snarkHash ∧ bs[i].finalStateRootHash = bs'[i].finalStateRootHash ∧
      bs[i].dataEvaluationClaim = bs'[i].dataEvaluationClaim := by
  have hQ : Set.InjOn (fun p : Word × Link => Link.compute keccak p.1 p.2) {p | p.2.encode p.1 ∈
      blobPreimages keccak ctx parent bs ∪ blobPreimages keccak ctx' parent' bs'} :=
    fun p hp q hq hpq => Link.encode_injective (hinj hp hq hpq)
  have hmaps : (blobLinks keccak ctx 0 bs).length = (blobLinks keccak ctx' 0 bs').length := by
    simpa [blobLinks] using hlen
  obtain ⟨hparent, hlinks⟩ := RollingHash.foldl_injOn_start hQ (fun p hp => .inl (.inl ⟨p, hp, rfl⟩))
    (fun p hp => .inr (.inl ⟨p, hp, rfl⟩))
    hmaps h
  refine ⟨hparent, fun i hi hi' => ?_⟩
  have hlink : bs[i].link keccak ctx i = bs'[i].link keccak ctx' i := by
    have := congrArg (·[i]?) hlinks
    simpa [blobLinks, hi, hi'] using this
  rw [BlobSubmission.link, BlobSubmission.link, Link.mk.injEq] at hlink
  obtain ⟨hsnark, hroot, hpoint, hclaim⟩ := hlink
  -- equal points have equal preimages
  have hmem : (bs[i], i) ∈ bs.zipIdx := mem_zipIdx_iff_getElem?.2 (getElem?_eq_getElem hi)
  have hmem' : (bs'[i], i) ∈ bs'.zipIdx := mem_zipIdx_iff_getElem?.2 (getElem?_eq_getElem hi')
  have hpre := hinj (.inl (.inr ⟨_, hmem, rfl⟩)) (.inr (.inr ⟨_, hmem', rfl⟩)) hpoint
  exact ⟨(Prod.mk.inj (@efficientKeccak_input_injective (_, _) (_, _) hpre)).2, hsnark, hroot, hclaim⟩

theorem initial_stored {self : Address} {d : InitializationData} {currentPeriodEnd x : Word}
    (h : (L1.initial keccak self d currentPeriodEnd).blobShnarfExists x ≠ 0) : x = genesisShnarf keccak d := by
  by_contra hx
  apply h
  change Function.update (fun _ => (0 : Word)) (genesisShnarf keccak d) shnarfExistsDefaultValue x = 0
  rw [Function.update_of_ne hx]

/-- After initialization and any submissions, each stored shnarf is derived from the genesis shnarf, a reverted call
leaves the stored shnarfs unchanged, and an accepted call with blobs binds the hash of each blob to its evaluated
claim. -/
theorem shnarfs_derived (keccak : List Byte → Word) (ctx₀ : Ctx) (d : InitializationData) (s₀ : L1)
    (hinit : linethRollupInit keccak ctx₀ d = .ok s₀) (cs : List Submission) :
    (∀ x, (s₀.submitAll keccak cs).blobShnarfExists x ≠ 0 →
      Derived keccak (genesisShnarf keccak d) (s₀.submitAll keccak cs).blobShnarfExists cs x) ∧
    (∀ (s : L1) (c : Submission) (e : Error), c.exec keccak s = .error e →
      (s.submit keccak c).blobShnarfExists = s.blobShnarfExists) ∧
    (∀ s ctx bs parent final r, submitBlobs keccak ctx bs parent final s = .ok r →
      final = (blobLinks keccak ctx 0 bs).foldl (Link.compute keccak) parent ∧ ctx.blobhash bs.length = 0 ∧
      ∀ i (hi : i < bs.length), Evaluated keccak ctx bs[i] i) ∧
    (∀ ctx ctx' bs bs' parent parent',
      Set.InjOn keccak (blobPreimages keccak ctx parent bs ∪ blobPreimages keccak ctx' parent' bs') →
      bs.length = bs'.length →
      (blobLinks keccak ctx 0 bs).foldl (Link.compute keccak) parent =
        (blobLinks keccak ctx' 0 bs').foldl (Link.compute keccak) parent' →
      parent = parent' ∧ ∀ i (hi : i < bs.length) (hi' : i < bs'.length), ctx.blobhash i = ctx'.blobhash i ∧
        bs[i].snarkHash = bs'[i].snarkHash ∧ bs[i].finalStateRootHash = bs'[i].finalStateRootHash ∧
        bs[i].dataEvaluationClaim = bs'[i].dataEvaluationClaim) := by
  obtain ⟨currentPeriodEnd, rfl⟩ := linethRollupInit_eq_ok hinit
  refine ⟨derived_submitAll (fun x => initial_stored) cs, fun s c e h => ?_, fun s ctx bs parent final r h => ?_,
    fun ctx ctx' bs bs' parent parent' => blobs_bound⟩
  · rw [L1.submit, h]
  · obtain ⟨hacc, hcount, hall⟩ := submitBlobs_eq_ok h
    obtain ⟨links, hlinks, -, hfinal⟩ := hacc.links
    cases hlinks
    exact ⟨hfinal.symm, hcount, hall⟩

/-- A transaction with one blob, whose claim the precompile accepts. -/
def Ctx.oneBlob : Ctx :=
  { Ctx.sample with
    blobhash := fun i => if i = 0 then 9 else 0
    pointEvaluation :=
      fun _ => some (words [BitVec.ofNat 256 pointEvaluationFieldElementsLength, BitVec.ofNat 256 blsCurveModulus]) }

def BlobSubmission.sample : BlobSubmission := ⟨3, [], [], 2, 4⟩

def firstBlob : Submission :=
  let genesis := genesisShnarf sampleKeccak InitializationData.sample
  .blobs Ctx.oneBlob [BlobSubmission.sample] genesis
    (Link.compute sampleKeccak genesis (BlobSubmission.sample.link sampleKeccak Ctx.oneBlob 0))

theorem shnarfs_derived_firstBlob :
    ∃ s₀, linethRollupInit sampleKeccak Ctx.sample InitializationData.sample = .ok s₀ ∧
      (s₀.submitAll sampleKeccak [firstBlob]).blobShnarfExists firstBlob.shnarf = 1 ∧
      Derived sampleKeccak (genesisShnarf sampleKeccak InitializationData.sample)
        (s₀.submitAll sampleKeccak [firstBlob]).blobShnarfExists [firstBlob] firstBlob.shnarf := by
  have hinit : linethRollupInit sampleKeccak Ctx.sample InitializationData.sample =
      .ok (.initial sampleKeccak Ctx.sample.self InitializationData.sample 1100) := rfl
  have hstored : ((L1.initial sampleKeccak Ctx.sample.self InitializationData.sample 1100).submitAll sampleKeccak
      [firstBlob]).blobShnarfExists firstBlob.shnarf = 1 := by decide +kernel
  refine ⟨_, hinit, hstored, (shnarfs_derived sampleKeccak _ _ _ hinit [firstBlob]).1 _ ?_⟩
  rw [hstored]
  decide

end Lineth.Rollup
