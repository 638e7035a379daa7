import Lineth.Accumulator.Sound

/-!
# Deferred Merkle checks

The Merkle proofs of a trace can be collected as claims that a circuit verifies later (`DeferMerkleChecks`): for each
update a claim on the old leaf under the current root, and one on the new leaf under the next root, which is
recomputed from the proof. -/

namespace Lineth.Accumulator

open Except List
open Smt (Proof)

/-- A Merkle proof with the claim it proves. -/
structure ProvedClaim (H : Type) where
  proof : Proof H
  root : H
  leaf : H
deriving DecidableEq, Repr

variable {K V H : Type} [LinearOrder H] [BoundedOrder H] (hs : Hashes K V H)

def ProvedClaim.verify (c : ProvedClaim H) : Except Smt.Panic Bool := Smt.verify hs.node c.proof c.leaf c.root

def deferCheckUpdateRoot (proof : Proof H) (root old new : H) (appendTo : List (ProvedClaim H)) :
    Except Smt.Panic (List (ProvedClaim H) × H) := do
  let newRoot ← Smt.recoverRoot hs.node proof new
  return (appendTo ++ [⟨proof, root, old⟩, ⟨proof, newRoot, new⟩], newRoot)

def InsertionTrace.deferMerkleChecks (trace : InsertionTrace K V H) (appendTo : List (ProvedClaim H)) :
    Except Smt.Panic (List (ProvedClaim H)) := do
  let iInserted := trace.proofNew.path
  let hkey := hs.key trace.key
  let (appendTo, currentRoot) ← deferCheckUpdateRoot hs trace.proofMinus trace.oldSubRoot (hs.leaf trace.oldOpenMinus)
    (hs.leaf (trace.oldOpenMinus.copyWithNext trace.proofNew.path)) appendTo
  let newLeaf := hs.leaf
    { prev := trace.proofMinus.path, next := trace.proofPlus.path, hKey := hkey, hVal := hs.val trace.val }
  let (appendTo, currentRoot) ← deferCheckUpdateRoot hs trace.proofNew currentRoot Smt.emptyLeaf newLeaf appendTo
  let (appendTo, _) ← deferCheckUpdateRoot hs trace.proofPlus currentRoot (hs.leaf trace.oldOpenPlus)
    (hs.leaf (trace.oldOpenPlus.copyWithPrev iInserted)) appendTo
  return appendTo

def DeletionTrace.deferMerkleChecks (trace : DeletionTrace K V H) (appendTo : List (ProvedClaim H)) :
    Except Smt.Panic (List (ProvedClaim H)) := do
  let iMinus := trace.proofMinus.path
  let iPlus := trace.proofPlus.path
  let (appendTo, currentRoot) ← deferCheckUpdateRoot hs trace.proofMinus trace.oldSubRoot (hs.leaf trace.oldOpenMinus)
    (hs.leaf (trace.oldOpenMinus.copyWithNext iPlus)) appendTo
  let (appendTo, currentRoot) ← deferCheckUpdateRoot hs trace.proofDeleted currentRoot (hs.leaf trace.deletedOpen)
    Smt.emptyLeaf appendTo
  let (appendTo, _) ← deferCheckUpdateRoot hs trace.proofPlus currentRoot (hs.leaf trace.oldOpenPlus)
    (hs.leaf (trace.oldOpenPlus.copyWithPrev iMinus)) appendTo
  return appendTo

def UpdateTrace.deferMerkleChecks (trace : UpdateTrace K V H) (appendTo : List (ProvedClaim H)) :
    Except Smt.Panic (List (ProvedClaim H)) := do
  let tuple : KVOpeningTuple K V H := { key := trace.key, value := trace.oldValue, leafOpening := trace.oldOpening }
  let newLeaf := hs.leaf { trace.oldOpening with hVal := hs.val trace.newValue }
  let (appendTo, _) ← deferCheckUpdateRoot hs trace.proof trace.oldSubRoot (tuple.leafOrZero hs) newLeaf appendTo
  return appendTo

def ReadNonZeroTrace.deferMerkleChecks (trace : ReadNonZeroTrace K V H) (appendTo : List (ProvedClaim H)) :
    List (ProvedClaim H) :=
  let tuple : KVOpeningTuple K V H := { key := trace.key, value := trace.value, leafOpening := trace.leafOpening }
  appendTo ++ [⟨trace.proof, trace.subRoot, tuple.leafOrZero hs⟩]

def ReadZeroTrace.deferMerkleChecks (trace : ReadZeroTrace K H) (appendTo : List (ProvedClaim H)) :
    List (ProvedClaim H) :=
  appendTo ++ [⟨trace.proofMinus, trace.subRoot, hs.leaf trace.openingMinus⟩] ++
    [⟨trace.proofPlus, trace.subRoot, hs.leaf trace.openingPlus⟩]

namespace Trace

def deferMerkleChecks (appendTo : List (ProvedClaim H)) : Trace K V H → Except Smt.Panic (List (ProvedClaim H))
  | .insertion t => t.deferMerkleChecks hs appendTo
  | .update t => t.deferMerkleChecks hs appendTo
  | .deletion t => t.deferMerkleChecks hs appendTo
  | .readNonZero t => return t.deferMerkleChecks hs appendTo
  | .readZero t => return t.deferMerkleChecks hs appendTo

def isWrite : Trace K V H → Bool
  | .insertion _ | .update _ | .deletion _ => true
  | .readNonZero _ | .readZero _ => false

end Trace

/-- Pairs of claims, one pair for each leaf written, that lead from a root to another. -/
def ChainsTo (root' : H) : H → List (ProvedClaim H) → Prop
  | root, [] => root = root'
  | _, [_] => False
  | root, old :: new :: rest => old.root = root ∧ ChainsTo root' new.root rest

/-- The claims of a write lead from its old to its new root, those of a read are all under its root. -/
def Trace.Chains (trace : Trace K V H) (claims : List (ProvedClaim H)) : Prop :=
  if trace.isWrite then ChainsTo trace.newRoot trace.oldRoot claims else ∀ c ∈ claims, c.root = trace.oldRoot

variable {hs}

/-! ### Updates of leaves in a row -/

/-- The claims of updates in a row. -/
def deferUpdates (hs : Hashes K V H) : List (LeafUpdate H) → H → List (ProvedClaim H) →
    Except Smt.Panic (List (ProvedClaim H))
  | [], _, appendTo => return appendTo
  | u :: us, root, appendTo => do
    let (appendTo, next) ← deferCheckUpdateRoot hs u.proof root u.old u.new appendTo
    deferUpdates hs us next appendTo

omit [BoundedOrder H] in
theorem ProvedClaim.verify_eq_ok {c : ProvedClaim H} :
    c.verify hs = .ok true ↔ Smt.recoverRoot hs.node c.proof c.leaf = .ok c.root := Smt.verify_eq_ok_true

omit [LinearOrder H] [BoundedOrder H] in
theorem deferUpdates_append (us : List (LeafUpdate H)) (root : H) (appendTo : List (ProvedClaim H)) :
    deferUpdates hs us root appendTo = (appendTo ++ ·) <$> deferUpdates hs us root [] := by
  induction us generalizing root appendTo with
  | nil => simp [deferUpdates]
  | cons u us ih =>
    simp only [deferUpdates, deferCheckUpdateRoot]
    cases Smt.recoverRoot hs.node u.proof u.new with
    | error e => rfl
    | ok next =>
      simp only [ok_bind, pure_eq_ok]
      rw [ih next (appendTo ++ _), ih next ([] ++ _)]
      cases deferUpdates hs us next [] with
      | error e => rfl
      | ok claims => simp [Functor.map, Except.map]

omit [BoundedOrder H] in
theorem deferUpdates_chain (hs : Hashes K V H) (us : List (LeafUpdate H)) (root root' : H) :
    (∃ claims, deferUpdates hs us root [] = .ok claims ∧ (∀ c ∈ claims, c.verify hs = .ok true) ∧
      ChainsTo root' root claims) ↔
      Replaces hs root' root us := by
  induction us generalizing root with
  | nil => simp [deferUpdates, ChainsTo, Replaces]
  | cons u us ih =>
    simp only [deferUpdates, deferCheckUpdateRoot, Replaces, ← ih]
    cases hnext : Smt.recoverRoot hs.node u.proof u.new with
    | error e => simp
    | ok next =>
      simp only [ok_bind, pure_eq_ok, ok.injEq, exists_eq_left', nil_append]
      rw [deferUpdates_append]
      cases deferUpdates hs us next [] with
      | error e => simp [Functor.map, Except.map]
      | ok claims =>
        simp [Functor.map, Except.map, ChainsTo, ProvedClaim.verify_eq_ok, hnext]
        tauto

theorem InsertionTrace.deferMerkleChecks_eq (t : InsertionTrace K V H) (appendTo : List (ProvedClaim H)) :
    t.deferMerkleChecks hs appendTo = deferUpdates hs (t.leafUpdates hs) t.oldSubRoot appendTo := rfl

theorem DeletionTrace.deferMerkleChecks_eq (t : DeletionTrace K V H) (appendTo : List (ProvedClaim H)) :
    t.deferMerkleChecks hs appendTo = deferUpdates hs (t.leafUpdates hs) t.oldSubRoot appendTo := rfl

theorem UpdateTrace.deferMerkleChecks_eq (t : UpdateTrace K V H) (appendTo : List (ProvedClaim H)) :
    t.deferMerkleChecks hs appendTo = deferUpdates hs (t.leafUpdates hs) t.oldSubRoot appendTo := rfl

namespace VerifierState

variable {v : VerifierState H} {trace : Trace K V H}

theorem merkle_iff (hother : v.NonMerkle hs trace) :
    trace.Merkle hs ↔
      ∃ claims, trace.deferMerkleChecks hs [] = .ok claims ∧ (∀ c ∈ claims, c.verify hs = .ok true) ∧
        trace.Chains claims := by
  cases trace with
  | insertion t => exact (deferUpdates_chain hs (t.leafUpdates hs) t.oldSubRoot t.newSubRoot).symm
  | deletion t => exact (deferUpdates_chain hs (t.leafUpdates hs) t.oldSubRoot t.newSubRoot).symm
  | update t => exact (deferUpdates_chain hs (t.leafUpdates hs) t.oldSubRoot t.newSubRoot).symm
  | readNonZero t =>
    have hleaf : KVOpeningTuple.leafOrZero hs ⟨t.leafOpening, t.key, t.value⟩ = hs.leaf t.leafOpening :=
      hother.2.1.leafOrZero_eq
    simp [Trace.Merkle, Trace.deferMerkleChecks, ReadNonZeroTrace.deferMerkleChecks,
      ProvedClaim.verify_eq_ok, hleaf, Trace.Chains,
      Trace.isWrite, Trace.oldRoot]
  | readZero t =>
    simp [Trace.Merkle, Trace.deferMerkleChecks, ReadZeroTrace.deferMerkleChecks,
      ProvedClaim.verify_eq_ok, Trace.Chains,
      Trace.isWrite, Trace.oldRoot]

theorem verify_eq_ok :
    (v.verify hs trace).1 = .ok () ↔ v.NonMerkle hs trace ∧ trace.oldRoot = v.subTreeRoot ∧
      ∃ claims, trace.deferMerkleChecks hs [] = .ok claims ∧ (∀ c ∈ claims, c.verify hs = .ok true) ∧
        trace.Chains claims := by
  constructor
  · intro h
    obtain ⟨hother, hroot, hmerkle, -⟩ := (verify_iff trace).1 (Prod.ext h rfl)
    exact ⟨hother, hroot, (merkle_iff hother).1 hmerkle⟩
  · rintro ⟨hother, hroot, hclaims⟩
    rw [(verify_iff trace).2 ⟨hother, hroot, (merkle_iff hother).2 hclaims, rfl⟩]

theorem subTreeRoot_verify (h : (v.verify hs trace).1 = .ok ()) :
    (v.verify hs trace).2.subTreeRoot = trace.newRoot := by
  obtain ⟨-, -, -, hstate⟩ := (verify_iff trace).1 (Prod.ext h rfl)
  exact congrArg VerifierState.subTreeRoot hstate

end VerifierState

variable {claims : List (ProvedClaim H)}

omit [LinearOrder H] [BoundedOrder H] in
theorem ChainsTo.getLast {root root' : H} (h : ChainsTo root' root claims) (hne : claims ≠ []) :
    (claims.getLast hne).root = root' := by
  induction claims using twoStepInduction generalizing root with
  | nil => exact absurd rfl hne
  | singleton c => exact h.elim
  | cons_cons old new rest ih _ =>
    rcases rest with _ | ⟨c, rest⟩
    · exact h.2
    · exact ih h.2 (cons_ne_nil c rest)

theorem Trace.deferMerkleChecks_append (trace : Trace K V H) (appendTo : List (ProvedClaim H)) :
    trace.deferMerkleChecks hs appendTo = (appendTo ++ ·) <$> trace.deferMerkleChecks hs [] := by
  cases trace with
  | insertion t => exact deferUpdates_append (t.leafUpdates hs) t.oldSubRoot appendTo
  | deletion t => exact deferUpdates_append (t.leafUpdates hs) t.oldSubRoot appendTo
  | update t => exact deferUpdates_append (t.leafUpdates hs) t.oldSubRoot appendTo
  | readNonZero t => rfl
  | readZero t =>
    simp [deferMerkleChecks, ReadZeroTrace.deferMerkleChecks]

omit [LinearOrder H] [BoundedOrder H] in
theorem deferUpdates_ne_nil {us : List (LeafUpdate H)} (hus : us ≠ []) {root : H}
    (h : deferUpdates hs us root [] = .ok claims) : claims ≠ [] := by
  cases us with
  | nil => exact absurd rfl hus
  | cons u us =>
    rw [deferUpdates, bind_eq_ok] at h
    obtain ⟨⟨appendTo, next⟩, hcheck, h⟩ := h
    obtain ⟨_, -, hcheck⟩ := bind_eq_ok.1 hcheck
    cases hcheck
    dsimp only at h
    rw [deferUpdates_append] at h
    cases hrest : deferUpdates hs us next [] with
    | error e =>
      rw [hrest] at h
      cases h
    | ok rest =>
      rw [hrest] at h
      rw [← ok.inj h]
      exact cons_ne_nil _ _

theorem Trace.deferMerkleChecks_ne_nil {trace : Trace K V H}
    (h : trace.deferMerkleChecks hs [] = .ok claims) : claims ≠ [] := by
  cases trace with
  | insertion t => exact deferUpdates_ne_nil (cons_ne_nil _ _) ((t.deferMerkleChecks_eq []).symm.trans h)
  | deletion t => exact deferUpdates_ne_nil (cons_ne_nil _ _) ((t.deferMerkleChecks_eq []).symm.trans h)
  | update t => exact deferUpdates_ne_nil (cons_ne_nil _ _) ((t.deferMerkleChecks_eq []).symm.trans h)
  | readNonZero t => exact ok.inj h ▸ cons_ne_nil _ _
  | readZero t => exact ok.inj h ▸ cons_ne_nil _ _

omit [LinearOrder H] [BoundedOrder H] in
theorem Trace.Chains.getLast {trace : Trace K V H} (h : trace.Chains claims) (hne : claims ≠ []) :
    (claims.getLast hne).root = trace.newRoot := by
  cases trace with
  | insertion t => exact ChainsTo.getLast h hne
  | deletion t => exact ChainsTo.getLast h hne
  | update t => exact ChainsTo.getLast h hne
  | readNonZero t => exact h _ (getLast_mem hne)
  | readZero t => exact h _ (getLast_mem hne)

/-- Deferred Merkle checks agree with direct verification. -/
theorem deferred_checks_agree (hs : Hashes K V H) (v : VerifierState H) (trace : Trace K V H)
    (hother : v.NonMerkle hs trace) :
    ((v.verify hs trace).1 = .ok () ↔ trace.oldRoot = v.subTreeRoot ∧
      ∃ claims, trace.deferMerkleChecks hs [] = .ok claims ∧ (∀ c ∈ claims, c.verify hs = .ok true) ∧
        trace.Chains claims) ∧
    ((v.verify hs trace).1 = .ok () → ∀ claims, trace.deferMerkleChecks hs [] = .ok claims →
      ∃ hne : claims ≠ [], (claims.getLast hne).root = (v.verify hs trace).2.subTreeRoot) ∧
    ∀ appendTo, trace.deferMerkleChecks hs appendTo = (appendTo ++ ·) <$> trace.deferMerkleChecks hs [] := by
  refine ⟨VerifierState.verify_eq_ok.trans (and_iff_right hother), fun h claims hclaims => ?_,
    trace.deferMerkleChecks_append⟩
  obtain ⟨-, -, claims', hclaims', -, hchains⟩ := VerifierState.verify_eq_ok.1 h
  rw [hclaims] at hclaims'
  cases hclaims'
  have hne := Trace.deferMerkleChecks_ne_nil hclaims
  exact ⟨hne, (hchains.getLast hne).trans (VerifierState.subTreeRoot_verify h).symm⟩

theorem deferred_checks_agree_insertion :
    ∃ (trace : Trace Nat Nat (WithTop Nat)) (claims : List (ProvedClaim (WithTop Nat))),
      emptyState.NonMerkle natHashes trace ∧ trace.deferMerkleChecks natHashes [] = .ok claims ∧
      (∀ c ∈ claims, c.verify natHashes = .ok true) ∧ trace.Chains claims := by
  have hin : ∀ i : Int, 0 ≤ i → i ≤ 2 → InTree i := fun i h0 h2 => ⟨h0, by simp [Smt.defaultDepth]; omega⟩
  have haccept : emptyState.verifyInsertion natHashes
      (insertionTrace natHashes emptyState.location 2 Contents.empty.cell 0 1 .head .tail 5 8) = (.ok (), _) :=
    verifyInsertion_insertionTrace rfl rfl rfl rfl rfl (hin 0 (by omega) (by omega)) (hin 2 (by omega) (by omega))
      (hin 1 (by omega) (by omega)) (by omega) rfl rfl (by decide) (by decide)
  have hok : (emptyState.verify natHashes
      (.insertion (insertionTrace natHashes emptyState.location 2 Contents.empty.cell 0 1 .head .tail 5 8))).1 =
        .ok () :=
    congrArg Prod.fst haccept
  have hother := (VerifierState.verify_eq_ok.1 hok).1
  obtain ⟨-, claims, hclaims⟩ := (deferred_checks_agree natHashes emptyState _ hother).1.1 hok
  exact ⟨_, claims, hother, hclaims⟩

end Lineth.Accumulator
