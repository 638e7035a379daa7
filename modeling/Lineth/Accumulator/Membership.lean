import Lineth.Accumulator.Sound

/-!
# Reads and updates of a present key

`ReadNonZeroVerify` and `UpdateVerify` compare the opening that they authenticate with the key and the value of the
trace, except when it is a sentinel: `CheckAndLeaf` lets those through. With the opening of the head or of the tail a
trace is accepted for every key and value, and an update overwrites the value hash of the sentinel. -/

namespace Lineth.Accumulator

open Contents
open Function (update update_of_ne update_self update_eq_self)
open Smt (Proof defaultDepth)

variable {K V H : Type} [LinearOrder H] [BoundedOrder H] {hs : Hashes K V H}

def ReadHolds (hs : Hashes K V H) (A : Contents H) (key : K) (value : V) : Prop :=
  A.toMap (hs.key key) = some (hs.val value)

def UpdateHolds (hs : Hashes K V H) (A : Contents H) (v' : VerifierState H) (key : K) (old new : V) : Prop :=
  A.toMap (hs.key key) = some (hs.val old) ∧
    ∃ A', Commits hs v' A' ∧ A'.toMap = update A.toMap (hs.key key) (some (hs.val new)) ∧
      A'.cell 0 = A.cell 0 ∧ A'.cell 1 = A.cell 1

/-- `CheckAndLeaf` does not look at the key and the value of a sentinel. -/
theorem checkAndLeaf_sentinel {o : LeafOpening H} (ho : o.headOrTail = true) (k : K) (x : V) :
    KVOpeningTuple.checkAndLeaf hs ⟨o, k, x⟩ = .ok (hs.leaf o) := by
  simp [KVOpeningTuple.checkAndLeaf, ho]

namespace VerifierState

variable {v : VerifierState H}

theorem readNonZeroVerify_sentinel {tr : ReadNonZeroTrace K V H} (ho : tr.leafOpening.headOrTail = true) (key : K)
    (value : V) : v.readNonZeroVerify hs { tr with key := key, value := value } = v.readNonZeroVerify hs tr := by
  simp only [readNonZeroVerify, auditOpening, checkAndLeaf_sentinel ho]

theorem updateVerify_sentinel {tr : UpdateTrace K V H} (ho : tr.oldOpening.headOrTail = true) (key : K) (old : V) :
    v.updateVerify hs { tr with key := key, oldValue := old } = v.updateVerify hs tr := by
  simp only [updateVerify, auditUpdate, auditOpening, checkAndLeaf_sentinel ho]

end VerifierState

namespace Commits

variable {v v' : VerifierState H} {A : Contents H}

section

variable (hc : Commits hs v A) (hh : hs.Sound)

include hc hh

theorem readNonZero {tr : ReadNonZeroTrace K V H}
    (h : v.readNonZeroVerify hs tr = .ok ()) (hint : tr.leafOpening.headOrTail = false) :
    ReadHolds hs A tr.key tr.value := by
  obtain ⟨⟨-, hcons, -⟩, hroot, hproof⟩ := VerifierState.readNonZeroVerify_eq_ok.1 h
  rw [← hroot, hc.root] at hproof
  obtain ⟨-, hcell, -⟩ := recoverRoot_sound (o := some _) hh hproof
  obtain ⟨hkey, hval⟩ := hcons hint
  exact toMap_eq_some.2 ⟨_, _, hcell, hint, hkey, hval⟩

theorem updateVerify_root {tr : UpdateTrace K V H}
    (h : v.updateVerify hs tr = (.ok (), v')) :
    KVOpeningTuple.Consistent hs ⟨tr.oldOpening, tr.key, tr.oldValue⟩ ∧ A.cell tr.proof.path = some tr.oldOpening ∧
      v' = ⟨v.location, v.nextFreeNode,
        rootOf hs (update A.cell tr.proof.path (some { tr.oldOpening with hVal := hs.val tr.newValue }))⟩ := by
  obtain ⟨⟨-, hcons, hnext⟩, hroot, hreplaces, rfl⟩ := (VerifierState.verify_iff (.update tr)).1 h
  replace hroot : tr.oldSubRoot = rootOf hs A.cell := hroot.trans hc.root
  replace hreplaces : Replaces hs tr.newSubRoot tr.oldSubRoot (tr.leafUpdates hs) := hreplaces
  rw [hroot, UpdateTrace.leafUpdates, hcons.leafOrZero_eq] at hreplaces
  obtain ⟨-, hcell, hnew⟩ := replaces_sound hh (some tr.oldOpening) (some _) hreplaces
  refine ⟨hcons, hcell, ?_⟩
  rw [hnext, show rootOf hs _ = tr.newSubRoot from hnew]
  rfl

theorem updateVerify {tr : UpdateTrace K V H}
    (h : v.updateVerify hs tr = (.ok (), v')) (hint : tr.oldOpening.headOrTail = false) :
    UpdateHolds hs A v' tr.key tr.oldValue tr.newValue := by
  obtain ⟨hcons, hcell, rfl⟩ := hc.updateVerify_root hh h
  obtain ⟨hkey, hval⟩ := hcons hint
  obtain ⟨h0, h1⟩ := (headOrTail_eq_false_iff hcell).1 hint
  obtain ⟨A', hA', hnf, hmap⟩ := exists_set hcell hint (hs.val tr.newValue)
  refine ⟨toMap_eq_some.2 ⟨_, _, hcell, hint, hkey, hval⟩, A',
    ⟨hc.nextFreeNode.trans hnf.symm, by rw [hA']⟩, ?_, ?_, ?_⟩
  · rw [hmap]; exact congrArg (update A.toMap · _) hkey
  · rw [hA', update_of_ne h0.symm]
  · rw [hA', update_of_ne h1.symm]

end

end Commits

/-- Reads and updates are sound exactly when the opening of the trace is not a sentinel: the first two parts are the
property for such traces, and the last two say that it fails for every other accepted trace, as soon as some key is
absent. -/
theorem membership_sound_iff [DecidableEq K] (hs : Hashes K V H) (hh : hs.Sound) (v : VerifierState H) (A : Contents H)
    (hc : Commits hs v A) :
    (∀ tr, v.readNonZeroVerify hs tr = .ok () → tr.leafOpening.headOrTail = false → ReadHolds hs A tr.key tr.value) ∧
    (∀ tr v', v.updateVerify hs tr = (.ok (), v') → tr.oldOpening.headOrTail = false →
      UpdateHolds hs A v' tr.key tr.oldValue tr.newValue) ∧
    (Function.Injective hs.key → Function.Injective hs.val → ∀ M : K → Option V, Represents hs A M →
      (∀ tr, v.readNonZeroVerify hs tr = .ok () → tr.leafOpening.headOrTail = false → M tr.key = some tr.value) ∧
      (∀ tr v', v.updateVerify hs tr = (.ok (), v') → tr.oldOpening.headOrTail = false → M tr.key = some tr.oldValue ∧
        ∃ A', Commits hs v' A' ∧ Represents hs A' (update M tr.key (some tr.newValue)))) ∧
    ((∃ k, A.toMap (hs.key k) = none) →
      (∀ tr, v.readNonZeroVerify hs tr = .ok () →
        ((∀ key value, v.readNonZeroVerify hs { tr with key := key, value := value } = .ok () →
          ReadHolds hs A key value) ↔
          tr.leafOpening.headOrTail = false)) ∧
      (∀ tr v', v.updateVerify hs tr = (.ok (), v') →
        ((∀ key old, v.updateVerify hs { tr with key := key, oldValue := old } = (.ok (), v') →
          UpdateHolds hs A v' key old tr.newValue) ↔ tr.oldOpening.headOrTail = false))) := by
  refine ⟨fun tr => hc.readNonZero hh, fun tr v' => hc.updateVerify hh, fun hkey hval M hM => ⟨fun tr h hint => ?_,
    fun tr v' h hint => ?_⟩, fun ⟨k, hk⟩ => ⟨fun tr h => ⟨fun hall => ?_, fun hint key value h' => ?_⟩,
    fun tr v' h => ⟨fun hall => ?_, fun hint key old h' => ?_⟩⟩⟩
  · exact hM.eq_some hval (hc.readNonZero hh h hint)
  · obtain ⟨hold, A', hc', hmap, -⟩ := hc.updateVerify hh h hint
    exact ⟨hM.eq_some hval hold, A', hc', hM.update (y := some tr.newValue) hkey hmap⟩
  · by_contra hs'
    rw [Bool.not_eq_false] at hs'
    have := hall k tr.value (by rw [VerifierState.readNonZeroVerify_sentinel hs', h])
    rw [ReadHolds, hk] at this
    cases this
  · exact hc.readNonZero hh h' hint
  · by_contra hs'
    rw [Bool.not_eq_false] at hs'
    have := (hall k tr.oldValue (by rw [VerifierState.updateVerify_sentinel hs', h])).1
    rw [hk] at this
    cases this
  · exact hc.updateVerify hh h' hint

theorem membership_sound_iff_nat :
    ∃ v A tr, Commits natHashes v A ∧ v.readNonZeroVerify natHashes tr = .ok () ∧ tr.leafOpening.headOrTail = false ∧
      ReadHolds natHashes A tr.key tr.value := by
  have h0 : (empty : Contents (WithTop Nat)).cell 0 = some .head := rfl
  have h1 : (empty : Contents (WithTop Nat)).cell 1 = some .tail := rfl
  obtain ⟨A, -, hnf, hmap⟩ := exists_insert (k := natHashes.key 5) h0 h1 rfl (by decide) (by decide)
    (by decide) (natHashes.val 8)
  have h5 : A.toMap (natHashes.key 5) = some (natHashes.val 8) := by rw [hmap, update_self]
  obtain ⟨i, o, hi, hint, hkey, hval⟩ := toMap_eq_some.1 h5
  have hc : Commits natHashes ⟨"", A.nextFreeNode, rootOf natHashes A.cell⟩ A := ⟨rfl, rfl⟩
  have hread := readNonZeroVerify_readNonZeroTrace (v := ⟨"", A.nextFreeNode, rootOf natHashes A.cell⟩)
    (k := 5) (x := 8)
    rfl rfl hi (Tracks.inTree hi) fun _ => ⟨hkey, hval⟩
  exact ⟨_, A, _, hc, hread, hint, (membership_sound_iff natHashes natHashes_sound _ A hc).1 _ hread hint⟩

/-! ### The head, read and overwritten -/

theorem rootOf_inj (hh : hs.Sound) {cell cell' : Int → Option (LeafOpening H)}
    (h : rootOf hs cell = rootOf hs cell') {i : Int} (hi : InTree i) : cell i = cell' i := by
  have hrec : Smt.recoverRoot hs.node (honestProof hs cell' i) (leafOf hs (cell' i)) = .ok (rootOf hs cell) := by
    rw [recoverRoot_honestProof hi, update_eq_self, h]
  exact (recoverRoot_sound hh hrec).2.1

/-- With the opening of the head, the verifier of an empty accumulator accepts the read of a value and
its update; the new root commits to no accumulator at all. -/
theorem head_accepted :
    natHashes.Sound ∧ Commits natHashes emptyState empty ∧
    emptyState.readNonZeroVerify natHashes (readNonZeroTrace natHashes "" 2 empty.cell 0 .head 7 9) = .ok () ∧
    empty.toMap (natHashes.key 7) = none ∧
    ∃ v', emptyState.updateVerify natHashes (updateTrace natHashes "" 2 empty.cell 0 .head 7 9 4) = (.ok (), v') ∧
      ¬ ∃ A, Commits natHashes v' A := by
  have hin : InTree 0 := ⟨by omega, by simp [defaultDepth]⟩
  have hcons : KVOpeningTuple.Consistent natHashes ⟨.head, 7, 9⟩ := fun h => by
    simp [LeafOpening.headOrTail, LeafOpening.head] at h
  have hread := readNonZeroVerify_readNonZeroTrace (v := emptyState) (n := 2) emptyState_commits.root rfl
    (show empty.cell 0 = some .head from rfl) hin hcons
  have hupdate := updateVerify_updateTrace (v := emptyState) (n := 2) (y := 4) emptyState_commits.root rfl
    (show empty.cell 0 = some .head from rfl) hin hcons
  refine ⟨natHashes_sound, emptyState_commits, hread, empty_toMap _, _, hupdate, ?_⟩
  rintro ⟨A, hc⟩
  have h0 := rootOf_inj natHashes_sound hc.root hin
  obtain ⟨next, hnext⟩ := A.wf.head
  rw [update_self, hnext] at h0
  have hval : (⊥ : WithTop Nat) = natHashes.val 4 := congrArg LeafOpening.hVal (Option.some_inj.1 h0).symm
  exact absurd hval (by decide)

end Lineth.Accumulator
