import Lineth.Accumulator.Honest

/-!
# When the verifications panic

The Merkle verifier panics on a path that does not fit the siblings, which nothing checks before. A verification
panics exactly if it comes to such a proof: one after a check that fails is not reached. -/

namespace Lineth

open Except

def Smt.Proof.Fits {H : Type} (p : Smt.Proof H) : Prop := 0 ≤ p.path ∧ p.path < 2 ^ p.siblings.length

theorem Smt.recoverRoot_isOk_iff {H : Type} {hashLR : H → H → H} {p : Smt.Proof H} {x : H} :
    (∃ root, Smt.recoverRoot hashLR p x = .ok root) ↔ p.Fits := by
  simp only [Smt.recoverRoot_eq_ok]
  constructor
  · rintro ⟨root, i, hi, hlt, -⟩
    refine ⟨by omega, ?_⟩
    rw [hi]
    exact_mod_cast hlt
  · rintro ⟨hnonneg, hlt⟩
    obtain ⟨i, hi⟩ := Int.eq_ofNat_of_zero_le hnonneg
    rw [hi] at hlt
    exact ⟨_, i, hi, by exact_mod_cast hlt, rfl⟩

namespace Accumulator

open Smt (Proof)

variable {K V H : Type}

def Failure.isPanic : Failure K H → Bool
  | .panic _ => true
  | _ => false

section

variable {α β : Type}

def Returns (x : Except (Failure K H) α) : Prop := ErrorsIn (fun e => e.isPanic = false) x

@[simp] theorem returns_ok (a : α) : Returns (.ok a : Except (Failure K H) α) := errorsIn_ok _ a

@[simp] theorem returns_error {e : Failure K H} : Returns (.error e : Except (Failure K H) α) ↔ e.isPanic = false :=
  errorsIn_error

theorem returns_bind {x : Except (Failure K H) α} {f : α → Except (Failure K H) β} :
    Returns (x >>= f) ↔ Returns x ∧ ∀ a, x = .ok a → Returns (f a) := errorsIn_bind

theorem returns_check {x : Except (Failure K H) Unit} {y : Except (Failure K H) β} (hx : Returns x) :
    Returns (x >>= fun _ => y) ↔ (x = .ok () → Returns y) :=
  returns_bind.trans ⟨fun h => h.2 (), fun h => ⟨hx, fun _ => h⟩⟩

theorem returns_ite_error {c : Prop} [Decidable c] {e : Failure K H} (he : e.isPanic = false)
    {x : Except (Failure K H) α} : Returns (if c then .error e else x) ↔ (¬ c → Returns x) :=
  errorsIn_ite_error.trans (and_iff_right fun _ => he)

end

variable [LinearOrder H] {hs : Hashes K V H}

theorem checkProof_returns {err : Failure K H} (herr : err.isPanic = false) {proof : Proof H} {leaf root : H} :
    Returns (checkProof hs err proof leaf root) ↔ proof.Fits := by
  rw [checkProof, Smt.verify, ← @Smt.recoverRoot_isOk_iff _ hs.node proof leaf]
  cases hactual : Smt.recoverRoot hs.node proof leaf with
  | error p => exact iff_of_false (fun h => absurd (returns_error.1 h) Bool.noConfusion) (by rintro ⟨root, ⟨⟩⟩)
  | ok actual =>
    refine iff_of_true ?_ ⟨actual, rfl⟩
    rw [ok_bind]
    by_cases heq : actual = root
    · rw [decide_eq_true heq]
      exact returns_ok _
    · rw [decide_eq_false heq]
      exact returns_error.2 herr

theorem updateCheckRoot_returns {err : Failure K H} (herr : err.isPanic = false) {proof : Proof H} {root old new : H} :
    Returns (updateCheckRoot hs err proof root old new) ↔ proof.Fits := by
  rw [updateCheckRoot, returns_bind, checkProof_returns herr]
  refine and_iff_left_of_imp fun hfits _ _ => ?_
  obtain ⟨newRoot, hnew⟩ := (@Smt.recoverRoot_isOk_iff _ hs.node proof new).2 hfits
  rw [hnew]
  exact returns_ok _

theorem checkSandwich_returns (minus plus : LeafOpening H) (iMinus iPlus : Int) (hkey : H) :
    Returns (checkSandwich minus plus iMinus iPlus hkey : Except (Failure K H) Unit) := by
  rw [checkSandwich]
  exact (returns_ite_error rfl).2 fun _ => (returns_ite_error rfl).2 fun _ => returns_ok _

/-! ### The proofs that are reached -/

/-- The first proof fits, and so does every other one that the updates before it lead to. -/
def ReachedFit (hs : Hashes K V H) : H → List (LeafUpdate H) → Prop
  | _, [] => True
  | root, u :: us => u.proof.Fits ∧ ∀ next, Smt.recoverRoot hs.node u.proof u.old = .ok root →
    Smt.recoverRoot hs.node u.proof u.new = .ok next → ReachedFit hs next us

theorem returns_update {α : Type} {err : Failure K H} (herr : err.isPanic = false) {proof : Proof H} {root old new : H}
    {f : H → Except (Failure K H) α} {us : List (LeafUpdate H)}
    (hf : ∀ next, Returns (f next) ↔ ReachedFit hs next us) :
    Returns (updateCheckRoot hs err proof root old new >>= f) ↔ ReachedFit hs root (⟨proof, old, new⟩ :: us) := by
  simp only [returns_bind, updateCheckRoot_returns herr, ReachedFit, updateCheckRoot_eq_ok, and_imp, hf]

variable [BoundedOrder H]

/-- The leaves that a verification opens one after the other; a read leaves them as they are. -/
def Trace.opened (hs : Hashes K V H) : Trace K V H → List (LeafUpdate H)
  | .insertion t => t.leafUpdates hs
  | .update t => t.leafUpdates hs
  | .deletion t => t.leafUpdates hs
  | .readNonZero t => [⟨t.proof, hs.leaf t.leafOpening, hs.leaf t.leafOpening⟩]
  | .readZero t => [⟨t.proofMinus, hs.leaf t.openingMinus, hs.leaf t.openingMinus⟩,
    ⟨t.proofPlus, hs.leaf t.openingPlus, hs.leaf t.openingPlus⟩]

namespace VerifierState

/-- The verification comes to the Merkle proofs: all other checks pass, but for the one of the next free node, which is
the last. -/
def Opens (hs : Hashes K V H) (v : VerifierState H) : Trace K V H → Prop
  | .insertion t => v.subTreeRoot = t.oldSubRoot ∧
    v.NonMerkle hs (.insertion { t with newNextFreeNode := addInt64 v.nextFreeNode 1 })
  | t => v.subTreeRoot = t.oldRoot ∧ NonMerkle hs { v with nextFreeNode := t.nextFree } t

def PathsFit (hs : Hashes K V H) (v : VerifierState H) (t : Trace K V H) : Prop :=
  v.Opens hs t → ReachedFit hs t.oldRoot (t.opened hs)

omit [BoundedOrder H] in
theorem checkHeader_returns (v : VerifierState H) (location : String) (root : H) :
    Returns (v.checkHeader location root : Except (Failure K H) Unit) := by
  rw [checkHeader]
  exact (returns_ite_error rfl).2 fun _ => (returns_ite_error rfl).2 fun _ => returns_ok _

omit [LinearOrder H] [BoundedOrder H] in
theorem checkNextFreeNode_returns (v : VerifierState H) (n : Int) :
    Returns (v.checkNextFreeNode n : Except (Failure K H) Unit) := by
  rw [checkNextFreeNode]
  exact (returns_ite_error rfl).2 fun _ => returns_ok _

variable (v : VerifierState H)

theorem auditOpening_returns {location : String} {root : H} {tuple : KVOpeningTuple K V H} {proof : Proof H} :
    Returns (v.auditOpening hs location root tuple proof) ↔
      (v.location = location ∧ v.subTreeRoot = root → tuple.Consistent hs → proof.Fits) := by
  rw [auditOpening, returns_check (v.checkHeader_returns location root), checkHeader_eq_ok]
  refine imp_congr_right fun _ => ?_
  cases hleaf : tuple.checkAndLeaf hs with
  | error e =>
    refine iff_of_true (returns_error.2 rfl) fun hcons => ?_
    rw [hcons.checkAndLeaf_eq] at hleaf
    cases hleaf
  | ok leaf =>
    have hcons := (KVOpeningTuple.checkAndLeaf_eq_ok.1 hleaf).1
    dsimp only
    rw [returns_bind, checkProof_returns rfl]
    exact ⟨fun h _ => h.1, fun h => ⟨h hcons, fun _ _ => returns_ok _⟩⟩

theorem auditInsertion_returns (t : InsertionTrace K V H) :
    Returns (v.auditInsertion hs t) ↔ v.PathsFit hs (.insertion t) := by
  unfold auditInsertion
  rw [returns_check (v.checkHeader_returns _ _), checkHeader_eq_ok]
  simp only [throw_eq_error, error_bind]
  rw [returns_ite_error rfl, not_not, returns_check (checkSandwich_returns _ _ _ _ _)]
  refine Iff.trans (b := _ → _ → _ → ReachedFit hs t.oldSubRoot (t.leafUpdates hs))
    (imp_congr_right fun _ => imp_congr_right fun hplace => imp_congr_right fun _ => ?_) ⟨?_, ?_⟩
  · rw [← hplace]
    refine returns_update rfl fun _ => returns_update rfl fun _ => returns_update rfl fun _ => ?_
    exact iff_of_true ((returns_ite_error rfl).2 fun _ => returns_ok _) trivial
  · rintro h ⟨hroot, hloc, hplace, hsand, -⟩
    exact h ⟨hloc, hroot⟩ hplace hsand
  · rintro h ⟨hloc, hroot⟩ hplace hsand
    exact h ⟨hroot, hloc, hplace, hsand, rfl⟩

theorem auditDeletion_returns (t : DeletionTrace K V H) :
    Returns (v.auditDeletion hs t) ↔ v.PathsFit hs (.deletion t) := by
  unfold auditDeletion
  rw [returns_check (v.checkHeader_returns _ _), checkHeader_eq_ok]
  simp only [throw_eq_error, error_bind]
  rw [returns_ite_error rfl, returns_ite_error rfl, returns_ite_error rfl, returns_ite_error rfl]
  simp only [ne_eq, not_not, not_or]
  refine Iff.trans (b := _ → _ → _ → _ → _ → ReachedFit hs t.oldSubRoot (t.leafUpdates hs))
    (imp_congr_right fun _ => imp_congr_right fun _ => imp_congr_right fun _ => imp_congr_right fun _ =>
      imp_congr_right fun _ => ?_) ⟨?_, ?_⟩
  · refine returns_update rfl fun _ => returns_update rfl fun _ => returns_update rfl fun _ => ?_
    refine iff_of_true ((returns_ite_error rfl).2 fun _ => ?_) trivial
    exact (returns_check (v.checkNextFreeNode_returns _)).2 fun _ => returns_ok _
  · rintro h ⟨hroot, hloc, hval, hleft, hright, hkey, -⟩
    exact h ⟨hloc, hroot⟩ hval hleft hright hkey
  · rintro h ⟨hloc, hroot⟩ hval hleft hright hkey
    exact h ⟨hroot, hloc, hval, hleft, hright, hkey, rfl⟩

theorem auditUpdate_returns (t : UpdateTrace K V H) :
    Returns (v.auditUpdate hs t) ↔ v.PathsFit hs (.update t) := by
  rw [auditUpdate, returns_bind, auditOpening_returns]
  constructor
  · rintro ⟨hfits, -⟩ ⟨hroot, hloc, hcons, -⟩
    exact ⟨hfits ⟨hloc, hroot⟩ hcons, fun _ _ _ => trivial⟩
  · intro h
    refine ⟨fun hheader hcons => (h ⟨hheader.2, hheader.1, hcons, rfl⟩).1, fun leaf hleaf => ?_⟩
    obtain ⟨hloc, hroot, hcons, -⟩ := auditOpening_eq_ok.1 hleaf
    rw [returns_bind, updateCheckRoot_returns rfl]
    refine ⟨(h ⟨hroot, hloc, hcons, rfl⟩).1, fun newRoot _ => ?_⟩
    simp only [throw_eq_error, error_bind]
    exact (returns_ite_error rfl).2 fun _ => v.checkNextFreeNode_returns _

theorem readZeroVerify_returns (t : ReadZeroTrace K H) :
    Returns (v.readZeroVerify hs t) ↔ v.PathsFit hs (.readZero t) := by
  rw [readZeroVerify, returns_check (v.checkHeader_returns _ _), checkHeader_eq_ok,
    returns_check (checkSandwich_returns _ _ _ _ _), returns_bind, checkProof_returns rfl]
  constructor
  · rintro h ⟨hroot, hloc, hsand, -⟩
    obtain ⟨hminus, hplus⟩ := h ⟨hloc, hroot⟩ hsand
    refine ⟨hminus, fun next hold hnew => ?_⟩
    cases hold.symm.trans hnew
    have hplus := hplus () (checkProof_eq_ok.2 hold)
    rw [returns_bind, checkProof_returns rfl] at hplus
    exact ⟨hplus.1, fun _ _ _ => trivial⟩
  · rintro h ⟨hloc, hroot⟩ hsand
    obtain ⟨hminus, hplus⟩ := h ⟨hroot, hloc, hsand, rfl⟩
    refine ⟨hminus, fun _ hok => ?_⟩
    have hopens := checkProof_eq_ok.1 hok
    rw [returns_bind, checkProof_returns rfl]
    exact ⟨(hplus _ hopens hopens).1, fun _ _ => v.checkNextFreeNode_returns _⟩

theorem verify_returns (t : Trace K V H) : Returns (v.verify hs t).1 ↔ v.PathsFit hs t := by
  cases t with
  | insertion t =>
    rw [verify, verifyInsertion, ← auditInsertion_returns]
    cases v.auditInsertion hs t with
    | error e => exact returns_error.trans returns_error.symm
    | ok root => exact iff_of_true (checkNextFreeNode_returns _ _) (returns_ok _)
  | update t =>
    rw [verify, updateVerify, ← auditUpdate_returns]
    cases v.auditUpdate hs t <;> exact Iff.rfl
  | deletion t =>
    rw [verify, verifyDeletion, ← auditDeletion_returns]
    cases v.auditDeletion hs t with
    | error e => exact returns_error.trans returns_error.symm
    | ok root => exact iff_of_true (returns_ok _) (returns_ok _)
  | readNonZero t =>
    rw [verify, readNonZeroVerify, returns_bind, auditOpening_returns]
    constructor
    · rintro ⟨hfits, -⟩ ⟨hroot, hloc, hcons, -⟩
      exact ⟨hfits ⟨hloc, hroot⟩ hcons, fun _ _ _ => trivial⟩
    · intro h
      refine ⟨fun hheader hcons => ?_, fun _ _ => v.checkNextFreeNode_returns _⟩
      exact (h ⟨hheader.2, hheader.1, hcons, rfl⟩).1
  | readZero t => exact v.readZeroVerify_returns t

/-- The verifications in a row end with the first one that fails. -/
def AllPathsFit (hs : Hashes K V H) (v : VerifierState H) : List (Trace K V H) → Prop
  | [] => True
  | t :: ts => v.PathsFit hs t ∧ ((v.verify hs t).1 = .ok () → (v.verify hs t).2.AllPathsFit hs ts)

theorem verifyAll_returns (ts : List (Trace K V H)) : Returns (v.verifyAll hs ts).1 ↔ v.AllPathsFit hs ts := by
  induction ts generalizing v with
  | nil => exact iff_of_true (returns_ok _) trivial
  | cons t ts ih =>
    rw [verifyAll, AllPathsFit, ← verify_returns, ← ih]
    rcases v.verify hs t with ⟨e | _, v'⟩
    · exact ⟨fun h => ⟨h, fun hok => by cases hok⟩, And.left⟩
    · exact ⟨fun h => ⟨returns_ok _, fun _ => h⟩, fun h => h.2 rfl⟩

end VerifierState

end Accumulator

end Lineth
