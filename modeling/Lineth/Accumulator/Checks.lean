import Lineth.Accumulator.Verifier
import Lineth.Smt.Spec

/-!
# What a verification checks

Each verification compares fields of the trace (`NonMerkle`) and follows updates of single leaves from the old root of
the trace to its new root (`Replaces`); a read only opens leaves under one root. -/

namespace Lineth.Accumulator

open Except
open Smt (Proof)

variable {K V H : Type} [LinearOrder H] [BoundedOrder H] (hs : Hashes K V H)

/-- The leaf of `CheckAndLeaf` when its error is ignored. -/
def KVOpeningTuple.leafOrZero (t : KVOpeningTuple K V H) : H :=
  match t.checkAndLeaf hs with
  | .ok leaf => leaf
  | .error _ => ⊥

namespace Trace

def oldRoot : Trace K V H → H
  | .insertion t => t.oldSubRoot
  | .update t => t.oldSubRoot
  | .deletion t => t.oldSubRoot
  | .readNonZero t => t.subRoot
  | .readZero t => t.subRoot

def newRoot : Trace K V H → H
  | .insertion t => t.newSubRoot
  | .update t => t.newSubRoot
  | .deletion t => t.newSubRoot
  | .readNonZero t => t.subRoot
  | .readZero t => t.subRoot

/-- The next free position after the trace. -/
def nextFree : Trace K V H → Int
  | .insertion t => t.newNextFreeNode
  | .update t => t.newNextFreeNode
  | .deletion t => t.newNextFreeNode
  | .readNonZero t => t.nextFreeNode
  | .readZero t => t.nextFreeNode

end Trace

/-- The checks of a verification other than those of the roots and of the Merkle proofs. -/
def VerifierState.NonMerkle (v : VerifierState H) : Trace K V H → Prop
  | .insertion t => v.location = t.location ∧ t.proofNew.path = v.nextFreeNode ∧
    (checkSandwich t.oldOpenMinus t.oldOpenPlus t.proofMinus.path t.proofPlus.path
      (hs.key t.key) : Except (Failure K H) Unit) = .ok () ∧
    addInt64 v.nextFreeNode 1 = t.newNextFreeNode
  | .deletion t => v.location = t.location ∧ hs.val t.deletedValue = t.deletedOpen.hVal ∧
    (t.oldOpenMinus.next = t.proofDeleted.path ∧ t.deletedOpen.prev = t.proofMinus.path) ∧
    (t.deletedOpen.next = t.proofPlus.path ∧ t.oldOpenPlus.prev = t.proofDeleted.path) ∧
    t.deletedOpen.matchKey hs t.key = true ∧ v.nextFreeNode = t.newNextFreeNode
  | .update t => v.location = t.location ∧ KVOpeningTuple.Consistent hs ⟨t.oldOpening, t.key, t.oldValue⟩ ∧
    v.nextFreeNode = t.newNextFreeNode
  | .readNonZero t => v.location = t.location ∧ KVOpeningTuple.Consistent hs ⟨t.leafOpening, t.key, t.value⟩ ∧
    v.nextFreeNode = t.nextFreeNode
  | .readZero t => v.location = t.location ∧
    (checkSandwich t.openingMinus t.openingPlus t.proofMinus.path t.proofPlus.path
      (hs.key t.key) : Except (Failure K H) Unit) = .ok () ∧
    v.nextFreeNode = t.nextFreeNode

/-! ### Updates of leaves in a row -/

/-- The update of one leaf: its proof, the old and the new leaf. -/
structure LeafUpdate (H : Type) where
  proof : Proof H
  old : H
  new : H

variable {hs}

def Replaces (hs : Hashes K V H) (root' : H) : H → List (LeafUpdate H) → Prop
  | root, [] => root = root'
  | root, u :: us => Smt.recoverRoot hs.node u.proof u.old = .ok root ∧
    ∃ next, Smt.recoverRoot hs.node u.proof u.new = .ok next ∧ Replaces hs root' next us

omit [BoundedOrder H] in
theorem checkProof_eq_ok {err : Failure K H} {proof : Proof H} {leaf root : H} :
    checkProof hs err proof leaf root = .ok () ↔ Smt.recoverRoot hs.node proof leaf = .ok root := by
  rw [← Smt.verify_eq_ok_true, checkProof]
  split <;> simp_all

omit [BoundedOrder H] in
theorem updateCheckRoot_eq_ok {err : Failure K H} {proof : Proof H} {root old new next : H} :
    updateCheckRoot hs err proof root old new = .ok next ↔
      Smt.recoverRoot hs.node proof old = .ok root ∧ Smt.recoverRoot hs.node proof new = .ok next := by
  rw [updateCheckRoot, bind_eq_ok]
  constructor
  · rintro ⟨_, hold, hnew⟩
    refine ⟨checkProof_eq_ok.1 hold, ?_⟩
    split at hnew
    · next hr => rw [hr, ok.inj hnew]
    · cases hnew
  · rintro ⟨hold, hnew⟩
    refine ⟨(), checkProof_eq_ok.2 hold, ?_⟩
    rw [hnew]
    rfl

/-! ### The leaves that a trace updates -/

def InsertionTrace.leafUpdates (hs : Hashes K V H) (t : InsertionTrace K V H) : List (LeafUpdate H) :=
  [⟨t.proofMinus, hs.leaf t.oldOpenMinus, hs.leaf (t.oldOpenMinus.copyWithNext t.proofNew.path)⟩,
    ⟨t.proofNew, Smt.emptyLeaf, hs.leaf ⟨t.proofMinus.path, t.proofPlus.path, hs.key t.key, hs.val t.val⟩⟩,
    ⟨t.proofPlus, hs.leaf t.oldOpenPlus, hs.leaf (t.oldOpenPlus.copyWithPrev t.proofNew.path)⟩]

def DeletionTrace.leafUpdates (hs : Hashes K V H) (t : DeletionTrace K V H) : List (LeafUpdate H) :=
  [⟨t.proofMinus, hs.leaf t.oldOpenMinus, hs.leaf (t.oldOpenMinus.copyWithNext t.proofPlus.path)⟩,
    ⟨t.proofDeleted, hs.leaf t.deletedOpen, Smt.emptyLeaf⟩,
    ⟨t.proofPlus, hs.leaf t.oldOpenPlus, hs.leaf (t.oldOpenPlus.copyWithPrev t.proofMinus.path)⟩]

def UpdateTrace.leafUpdates (hs : Hashes K V H) (t : UpdateTrace K V H) : List (LeafUpdate H) :=
  [⟨t.proof, KVOpeningTuple.leafOrZero hs ⟨t.oldOpening, t.key, t.oldValue⟩,
    hs.leaf { t.oldOpening with hVal := hs.val t.newValue }⟩]

def Trace.Merkle (hs : Hashes K V H) : Trace K V H → Prop
  | .insertion t => Replaces hs t.newSubRoot t.oldSubRoot (t.leafUpdates hs)
  | .update t => Replaces hs t.newSubRoot t.oldSubRoot (t.leafUpdates hs)
  | .deletion t => Replaces hs t.newSubRoot t.oldSubRoot (t.leafUpdates hs)
  | .readNonZero t => Smt.recoverRoot hs.node t.proof (hs.leaf t.leafOpening) = .ok t.subRoot
  | .readZero t => Smt.recoverRoot hs.node t.proofMinus (hs.leaf t.openingMinus) = .ok t.subRoot ∧
    Smt.recoverRoot hs.node t.proofPlus (hs.leaf t.openingPlus) = .ok t.subRoot

theorem KVOpeningTuple.Consistent.checkAndLeaf_eq {t : KVOpeningTuple K V H} (h : t.Consistent hs) :
    t.checkAndLeaf hs = .ok (hs.leaf t.leafOpening) := checkAndLeaf_eq_ok.2 ⟨h, rfl⟩

theorem KVOpeningTuple.Consistent.leafOrZero_eq {t : KVOpeningTuple K V H} (h : t.Consistent hs) :
    t.leafOrZero hs = hs.leaf t.leafOpening := by
  rw [leafOrZero, h.checkAndLeaf_eq]

namespace VerifierState

variable {v : VerifierState H}

theorem auditInsertion_eq_ok {t : InsertionTrace K V H} {root : H} :
    v.auditInsertion hs t = .ok root ↔ (v.location = t.location ∧ v.subTreeRoot = t.oldSubRoot) ∧
      t.proofNew.path = v.nextFreeNode ∧
      (checkSandwich t.oldOpenMinus t.oldOpenPlus t.proofMinus.path t.proofPlus.path
        (hs.key t.key) : Except (Failure K H) Unit) = .ok () ∧
      Replaces hs t.newSubRoot t.oldSubRoot (t.leafUpdates hs) ∧ root = t.newSubRoot := by
  simp only [auditInsertion, bind_eq_ok, throw_eq_error, pure_eq_ok, error_bind, ite_error_eq_ok,
    ne_eq, not_not, ok.injEq, updateCheckRoot_eq_ok, ← checkHeader_eq_ok (K := K)]
  constructor
  · rintro ⟨_, hheader, hplace, _, hsand, root₁, hu₁, root₂, hu₂, root₃, hu₃, hnew, rfl⟩
    rw [← hplace] at hu₁
    exact ⟨hheader, hplace, hsand, ⟨hu₁.1, root₁, hu₁.2, hu₂.1, root₂, hu₂.2, hu₃.1, root₃, hu₃.2, hnew⟩, hnew⟩
  · rintro ⟨hheader, hplace, hsand, ⟨hold₁, root₁, hnew₁, hold₂, root₂, hnew₂, hold₃, root₃, hnew₃, hnew⟩, rfl⟩
    dsimp only at hnew₁
    rw [hplace] at hnew₁
    exact ⟨(), hheader, hplace, (), hsand, root₁, ⟨hold₁, hnew₁⟩, root₂, ⟨hold₂, hnew₂⟩, root₃,
      ⟨hold₃, hnew₃⟩, hnew, hnew⟩

theorem auditDeletion_eq_ok {t : DeletionTrace K V H} {root : H} :
    v.auditDeletion hs t = .ok root ↔ v.NonMerkle hs (.deletion t) ∧ v.subTreeRoot = t.oldSubRoot ∧
      Replaces hs t.newSubRoot t.oldSubRoot (t.leafUpdates hs) ∧ root = t.newSubRoot := by
  simp only [auditDeletion, bind_eq_ok, throw_eq_error, pure_eq_ok, error_bind, ite_error_eq_ok,
    ne_eq, not_not, not_or, ok.injEq, updateCheckRoot_eq_ok]
  constructor
  · rintro ⟨_, hheader, hval, hleft, hright, hkey, root₁, hu₁, root₂, hu₂, root₃, hu₃, hnew, _, hnf, rfl⟩
    obtain ⟨hloc, hroot⟩ := checkHeader_eq_ok.1 hheader
    exact ⟨⟨hloc, hval, hleft, hright, hkey, checkNextFreeNode_eq_ok.1 hnf⟩, hroot,
      ⟨hu₁.1, root₁, hu₁.2, hu₂.1, root₂, hu₂.2, hu₃.1, root₃, hu₃.2, hnew⟩, hnew⟩
  · rintro ⟨⟨hloc, hval, hleft, hright, hkey, hnf⟩, hroot,
      ⟨hold₁, root₁, hnew₁, hold₂, root₂, hnew₂, hold₃, root₃, hnew₃, hnew⟩, rfl⟩
    exact ⟨(), checkHeader_eq_ok.2 ⟨hloc, hroot⟩, hval, hleft, hright, hkey, root₁, ⟨hold₁, hnew₁⟩,
      root₂, ⟨hold₂, hnew₂⟩, root₃,
      ⟨hold₃, hnew₃⟩, hnew, (), checkNextFreeNode_eq_ok.2 hnf, hnew⟩

theorem auditOpening_eq_ok {location : String} {root leaf : H} {tuple : KVOpeningTuple K V H} {proof : Proof H} :
    v.auditOpening hs location root tuple proof = .ok leaf ↔ v.location = location ∧
    v.subTreeRoot = root ∧ tuple.Consistent hs ∧
      leaf = hs.leaf tuple.leafOpening ∧ Smt.recoverRoot hs.node proof leaf = .ok root := by
  rw [auditOpening, bind_eq_ok]
  constructor
  · rintro ⟨_, hheader, h⟩
    obtain ⟨hloc, hroot⟩ := checkHeader_eq_ok.1 hheader
    split at h
    · cases h
    · next leaf' hleaf =>
      obtain ⟨_, hproof, h⟩ := bind_eq_ok.1 h
      cases h
      obtain ⟨hcons, rfl⟩ := KVOpeningTuple.checkAndLeaf_eq_ok.1 hleaf
      exact ⟨hloc, hroot, hcons, rfl, checkProof_eq_ok.1 hproof⟩
  · rintro ⟨hloc, hroot, hcons, rfl, hproof⟩
    refine ⟨(), checkHeader_eq_ok.2 ⟨hloc, hroot⟩, ?_⟩
    rw [hcons.checkAndLeaf_eq]
    dsimp only
    rw [checkProof_eq_ok.2 hproof]
    rfl

theorem auditUpdate_eq_ok {t : UpdateTrace K V H} :
    v.auditUpdate hs t = .ok () ↔ v.NonMerkle hs (.update t) ∧ v.subTreeRoot = t.oldSubRoot ∧
      Replaces hs t.newSubRoot t.oldSubRoot (t.leafUpdates hs) := by
  simp only [auditUpdate, bind_eq_ok, throw_eq_error, error_bind, ite_error_eq_ok, ne_eq, not_not,
    updateCheckRoot_eq_ok, checkNextFreeNode_eq_ok, auditOpening_eq_ok]
  constructor
  · rintro ⟨_, ⟨hloc, hroot, hcons, rfl, hproof⟩, root, hu, hnew, hnf⟩
    refine ⟨⟨hloc, hcons, hnf⟩, hroot, ?_, root, hu.2, hnew⟩
    dsimp only
    rw [hcons.leafOrZero_eq]
    exact hproof
  · rintro ⟨⟨hloc, hcons, hnf⟩, hroot, hold, root, hnew, hlast⟩
    dsimp only at hold
    rw [hcons.leafOrZero_eq] at hold
    exact ⟨_, ⟨hloc, hroot, hcons, rfl, hold⟩, root, ⟨hold, hnew⟩, hlast, hnf⟩

theorem readNonZeroVerify_eq_ok {t : ReadNonZeroTrace K V H} :
    v.readNonZeroVerify hs t = .ok () ↔ v.NonMerkle hs (.readNonZero t) ∧ v.subTreeRoot = t.subRoot ∧
      Smt.recoverRoot hs.node t.proof (hs.leaf t.leafOpening) = .ok t.subRoot := by
  simp only [readNonZeroVerify, bind_eq_ok, checkNextFreeNode_eq_ok, auditOpening_eq_ok]
  constructor
  · rintro ⟨_, ⟨hloc, hroot, hcons, rfl, hproof⟩, hnf⟩
    exact ⟨⟨hloc, hcons, hnf⟩, hroot, hproof⟩
  · rintro ⟨⟨hloc, hcons, hnf⟩, hroot, hproof⟩
    exact ⟨_, ⟨hloc, hroot, hcons, rfl, hproof⟩, hnf⟩

theorem readZeroVerify_eq_ok {t : ReadZeroTrace K H} :
    v.readZeroVerify hs t = .ok () ↔ v.NonMerkle hs (.readZero t) ∧ v.subTreeRoot = t.subRoot ∧
      Smt.recoverRoot hs.node t.proofMinus (hs.leaf t.openingMinus) = .ok t.subRoot ∧
      Smt.recoverRoot hs.node t.proofPlus (hs.leaf t.openingPlus) = .ok t.subRoot := by
  simp only [readZeroVerify, bind_eq_ok, checkNextFreeNode_eq_ok]
  constructor
  · rintro ⟨_, hheader, _, hsand, _, hminus, _, hplus, hnf⟩
    obtain ⟨hloc, hroot⟩ := checkHeader_eq_ok.1 hheader
    exact ⟨⟨hloc, hsand, hnf⟩, hroot, checkProof_eq_ok.1 hminus, checkProof_eq_ok.1 hplus⟩
  · rintro ⟨⟨hloc, hsand, hnf⟩, hroot, hminus, hplus⟩
    exact ⟨(), checkHeader_eq_ok.2 ⟨hloc, hroot⟩, (), hsand, (), checkProof_eq_ok.2 hminus, (),
      checkProof_eq_ok.2 hplus, hnf⟩

theorem verify_iff (trace : Trace K V H) {v' : VerifierState H} :
    v.verify hs trace = (.ok (), v') ↔ v.NonMerkle hs trace ∧ trace.oldRoot = v.subTreeRoot ∧ trace.Merkle hs ∧
      v' = ⟨v.location, trace.nextFree, trace.newRoot⟩ := by
  cases trace with
  | insertion t =>
    rw [verify, verifyInsertion]
    constructor
    · intro h
      split at h
      · cases h
      · next root haudit =>
        obtain ⟨⟨hloc, hroot⟩, hplace, hsand, hreplaces, rfl⟩ := auditInsertion_eq_ok.1 haudit
        obtain ⟨hcheck, rfl⟩ := Prod.mk.inj h
        have hnext : addInt64 v.nextFreeNode 1 = t.newNextFreeNode := checkNextFreeNode_eq_ok.1 hcheck
        exact ⟨⟨hloc, hplace, hsand, hnext⟩, hroot.symm, hreplaces, by rw [hnext]; rfl⟩
    · rintro ⟨⟨hloc, hplace, hsand, hnext⟩, hroot, hreplaces, rfl⟩
      rw [auditInsertion_eq_ok.2 ⟨⟨hloc, hroot.symm⟩, hplace, hsand, hreplaces, rfl⟩]
      refine Prod.ext (checkNextFreeNode_eq_ok.2 hnext) ?_
      rw [hnext]
      rfl
  | deletion t =>
    rw [verify, verifyDeletion]
    constructor
    · intro h
      split at h
      · cases h
      · next root haudit =>
        obtain ⟨hother, hroot, hreplaces, rfl⟩ := auditDeletion_eq_ok.1 haudit
        exact ⟨hother, hroot.symm, hreplaces, by rw [← (Prod.mk.inj h).2, hother.2.2.2.2.2]; rfl⟩
    · rintro ⟨hother, hroot, hreplaces, rfl⟩
      rw [auditDeletion_eq_ok.2 ⟨hother, hroot.symm, hreplaces, rfl⟩, hother.2.2.2.2.2]
      rfl
  | update t =>
    rw [verify, updateVerify]
    constructor
    · intro h
      split at h
      · cases h
      · next haudit =>
        obtain ⟨hother, hroot, hreplaces⟩ := auditUpdate_eq_ok.1 haudit
        exact ⟨hother, hroot.symm, hreplaces, by rw [← (Prod.mk.inj h).2, hother.2.2]; rfl⟩
    · rintro ⟨hother, hroot, hreplaces, rfl⟩
      rw [auditUpdate_eq_ok.2 ⟨hother, hroot.symm, hreplaces⟩, hother.2.2]
      rfl
  | _ =>
    simp only [verify, Prod.mk.injEq, readNonZeroVerify_eq_ok, readZeroVerify_eq_ok]
    constructor
    · rintro ⟨⟨hother, hroot, hproof⟩, rfl⟩
      exact ⟨hother, hroot.symm, hproof, by rw [Trace.nextFree, Trace.newRoot, ← hother.2.2, ← hroot]⟩
    · rintro ⟨hother, hroot, hproof, rfl⟩
      exact ⟨⟨hother, hroot.symm, hproof⟩, by rw [Trace.nextFree, Trace.newRoot, ← hother.2.2, ← Trace.oldRoot, hroot]⟩

end VerifierState

end Lineth.Accumulator
