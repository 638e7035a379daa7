import Lineth.Accumulator.Run

/-!
# Soundness: what the verifier accepts is true

The trace is adversarial. With an injective hash whose images on leaves and on nodes are disjoint and never the empty
leaf, an accepted Merkle proof is the honest one for its position, so each accepted write is a write of the committed
contents, which the checks on links and order place in the linked list. -/

namespace Lineth.Accumulator

open Function (update update_of_ne update_self)
open Smt (Proof defaultDepth)
open LinkedList Contents

variable {K V H : Type} [LinearOrder H] [BoundedOrder H]

structure Hashes.Sound (hs : Hashes K V H) : Prop where
  leaf_inj : Function.Injective hs.leaf
  node_inj : ∀ a b c d, hs.node a b = hs.node c d → a = c ∧ b = d
  leaf_ne_node : ∀ o a b, hs.leaf o ≠ hs.node a b
  leaf_ne_empty : ∀ o, hs.leaf o ≠ Smt.emptyLeaf
  node_ne_empty : ∀ a b, hs.node a b ≠ Smt.emptyLeaf

variable {hs : Hashes K V H}

/-! ### Authenticated openings -/

theorem Hashes.Sound.leafOf_inj (hh : hs.Sound) {o o' : Option (LeafOpening H)}
    (h : leafOf hs o = leafOf hs o') : o = o' := by
  cases o with
  | none =>
    cases o' with
    | none => rfl
    | some o' => exact absurd h.symm (hh.leaf_ne_empty o')
  | some o =>
    cases o' with
    | none => exact absurd h (hh.leaf_ne_empty o)
    | some o' => exact congrArg some (hh.leaf_inj h)

theorem Hashes.Sound.leafOf_ne_node (hh : hs.Sound) (o : Option (LeafOpening H)) (a b : H) :
    leafOf hs o ≠ hs.node a b := by
  cases o with
  | none => exact (hh.node_ne_empty a b).symm
  | some o => exact hh.leaf_ne_node o a b

variable {cell : Int → Option (LeafOpening H)} {proof : Proof H}

theorem recoverRoot_sound (hh : hs.Sound) {o : Option (LeafOpening H)}
    (h : Smt.recoverRoot hs.node proof (leafOf hs o) = .ok (rootOf hs cell)) :
    InTree proof.path ∧ cell proof.path = o ∧ proof = honestProof hs cell proof.path := by
  obtain ⟨n, hpath, hn, hclimb⟩ := Smt.recoverRoot_eq_ok.1 h
  rw [rootOf] at hclimb
  obtain ⟨hlen, hleaf, hsib⟩ := Merkle.climb_root_sound hh.node_inj (fun j => hh.leafOf_ne_node (cell j))
    (hh.leafOf_ne_node o) hn hclimb
  rw [hlen] at hn
  refine ⟨⟨by omega, by rw [hpath]; exact_mod_cast hn⟩, ?_, ?_⟩
  · rw [hpath]; exact (hh.leafOf_inj hleaf).symm
  · have hsib : proof.siblings = Merkle.siblings hs.node (leafAt hs cell) 0 defaultDepth n := hsib
    rw [hpath, honestProof, Int.toNat_natCast, ← hsib, ← hpath]

theorem replaces_sound (hh : hs.Sound) (o o' : Option (LeafOpening H)) {root' : H} {us : List (LeafUpdate H)}
    (h : Replaces hs root' (rootOf hs cell) (⟨proof, leafOf hs o, leafOf hs o'⟩ :: us)) :
    InTree proof.path ∧ cell proof.path = o ∧ Replaces hs root' (rootOf hs (update cell proof.path o')) us := by
  obtain ⟨hold, next, hnew, hrest⟩ := h
  dsimp only at hold hnew
  obtain ⟨hin, hcell, hproof⟩ := recoverRoot_sound hh hold
  rw [hproof, recoverRoot_honestProof hin] at hnew
  rw [Except.ok.inj hnew]
  exact ⟨hin, hcell, hrest⟩

/-! ### Insertions, deletions and zero reads -/

theorem not_self_linked {A : Contents H} {i : Int} {o : LeafOpening H} (hi : A.cell i = some o)
    (hnext : o.next = i) (hprev : o.prev = i) : False := by
  have hnd := A.wf.spine.nodup
  by_cases h1 : i = 1
  · obtain ⟨l₁, l₂, horder⟩ := A.wf.spine.split_prev hi (by omega)
    rw [horder, LeafOpening.links_prev, hprev] at hnd
    simp [List.nodup_append] at hnd
  · obtain ⟨l₁, l₂, horder⟩ := A.wf.spine.split_next hi h1
    rw [horder, LeafOpening.links_next, hnext] at hnd
    simp [List.nodup_append] at hnd

namespace Commits

variable {v v' : VerifierState H} {A : Contents H}

section

variable (hc : Commits hs v A) (hh : hs.Sound)

include hc hh

theorem readZero {tr : ReadZeroTrace K H} (h : v.readZeroVerify hs tr = .ok ()) :
    A.toMap (hs.key tr.key) = none := by
  obtain ⟨⟨-, hsand, -⟩, hroot, hminus, hplus⟩ := VerifierState.readZeroVerify_eq_ok.1 h
  obtain ⟨⟨hnext, -⟩, hlo, hhi⟩ := checkSandwich_eq_ok.1 hsand
  rw [← hroot, hc.root] at hminus hplus
  obtain ⟨-, hm, -⟩ := recoverRoot_sound (o := some _) hh hminus
  obtain ⟨-, hp, -⟩ := recoverRoot_sound (o := some _) hh hplus
  exact toMap_eq_none_of_between hm hp hnext hlo hhi

theorem verifyInsertion {tr : InsertionTrace K V H}
    (h : v.verifyInsertion hs tr = (.ok (), v')) :
    A.toMap (hs.key tr.key) = none ∧ ∃ A', Commits hs v' A' ∧
      A'.toMap = update A.toMap (hs.key tr.key) (some (hs.val tr.val)) := by
  obtain ⟨⟨-, hplace, hsand, hnext'⟩, hroot, hreplaces, rfl⟩ := (VerifierState.verify_iff (.insertion tr)).1 h
  obtain ⟨⟨hnext, hprev⟩, hlo, hhi⟩ := checkSandwich_eq_ok.1 hsand
  replace hroot : tr.oldSubRoot = rootOf hs A.cell := hroot.trans hc.root
  replace hreplaces : Replaces hs tr.newSubRoot tr.oldSubRoot (tr.leafUpdates hs) := hreplaces
  rw [hroot] at hreplaces
  obtain ⟨-, hm, hreplaces⟩ := replaces_sound hh (some _) (some _) hreplaces
  obtain ⟨hin, -, hreplaces⟩ := replaces_sound hh none (some _) hreplaces
  obtain ⟨-, hp, hreplaces⟩ := replaces_sound hh (some _) (some _) hreplaces
  rw [hplace, hc.nextFreeNode] at hin hp hreplaces
  -- the right neighbour is neither of the two leaves just written: its key is above the new one
  have hpn : tr.proofPlus.path ≠ A.nextFreeNode := by
    intro e
    rw [e, update_self] at hp
    rw [← Option.some_inj.1 hp] at hhi
    exact lt_irrefl _ hhi
  have hpm : tr.proofPlus.path ≠ tr.proofMinus.path := by
    intro e
    rw [update_of_ne hpn, e, update_self] at hp
    rw [← Option.some_inj.1 hp] at hhi
    exact lt_irrefl _ (hlo.trans hhi)
  rw [update_of_ne hpn, update_of_ne hpm] at hp
  obtain ⟨A', hcell, hnf, hmap⟩ := exists_insert hm hp hnext hlo hhi hin.2 (hs.val tr.val)
  have hpos := A.nextFreeNode_pos
  refine ⟨toMap_eq_none_of_between hm hp hnext hlo hhi, A', ⟨?_, ?_⟩, hmap⟩
  · show tr.newNextFreeNode = _
    rw [← hnext', hc.nextFreeNode, addInt64_one (by omega) hin.2, hnf]
  · rw [hcell]
    exact hreplaces.symm

theorem verifyDeletion {tr : DeletionTrace K V H}
    (h : v.verifyDeletion hs tr = (.ok (), v')) :
    A.toMap (hs.key tr.key) = some (hs.val tr.deletedValue) ∧ ∃ A', Commits hs v' A' ∧
      A'.toMap = update A.toMap (hs.key tr.key) none := by
  obtain ⟨⟨-, hval, ⟨hmd, hdm⟩, ⟨hdp, hpd⟩, hmatch, hnext'⟩, hroot, hreplaces, rfl⟩ :=
    (VerifierState.verify_iff (.deletion tr)).1 h
  have hkey : tr.deletedOpen.hKey = hs.key tr.key := of_decide_eq_true hmatch
  replace hroot : tr.oldSubRoot = rootOf hs A.cell := hroot.trans hc.root
  replace hreplaces : Replaces hs tr.newSubRoot tr.oldSubRoot (tr.leafUpdates hs) := hreplaces
  rw [hroot] at hreplaces
  obtain ⟨-, hm, hreplaces⟩ := replaces_sound hh (some _) (some _) hreplaces
  obtain ⟨-, hd, hreplaces⟩ := replaces_sound hh (some _) none hreplaces
  obtain ⟨-, hp, hreplaces⟩ := replaces_sound hh (some _) (some _) hreplaces
  have hne : tr.proofDeleted.path ≠ tr.proofMinus.path := by
    intro e
    rw [e, update_self] at hd
    rw [← Option.some_inj.1 hd] at hdm
    exact not_self_linked hm (hmd.trans e) hdm
  rw [update_of_ne hne] at hd
  have hpdne : tr.proofPlus.path ≠ tr.proofDeleted.path := by
    intro e
    rw [e, update_self] at hp
    cases hp
  rw [update_of_ne hpdne] at hp
  -- neither sentinel was deleted: the head is its own predecessor, the tail its own successor
  have hint : tr.deletedOpen.headOrTail = false := by
    refine (headOrTail_eq_false_iff hd).2 ⟨fun e => ?_, fun e => ?_⟩
    · obtain ⟨next, h0⟩ := A.wf.head
      rw [e, h0] at hd
      rw [← Option.some_inj.1 hd] at hdm
      exact hne (e.trans hdm)
    · obtain ⟨prev, h1⟩ := A.wf.tail
      rw [e, h1] at hd
      rw [← Option.some_inj.1 hd] at hdp
      exact hpdne (hdp.symm.trans e.symm)
  have hpm : tr.proofPlus.path ≠ tr.proofMinus.path := by
    intro e
    obtain ⟨l₁, l₂, -, -, horder, -⟩ := exists_neighbours hd hint
    have hnd := A.wf.spine.nodup
    rw [horder, hdm, hdp, e] at hnd
    simp [List.nodup_append] at hnd
  rw [update_of_ne hpm, ← hdp] at hp
  rw [← hdm] at hm
  obtain ⟨A', hcell, hnf, hmap⟩ := exists_remove hd hint hm hp
  refine ⟨toMap_eq_some.2 ⟨_, _, hd, hint, hkey, hval.symm⟩, A', ⟨?_, ?_⟩, by rw [hmap, hkey]⟩
  · exact hnext'.symm.trans (hc.nextFreeNode.trans hnf.symm)
  · rw [hcell, hdm, hdp]
    exact hreplaces.symm

end

end Commits

/-- Soundness of insertions, deletions and zero reads against any trace: on the hashes, and on keys and
values when they hash injectively. -/
theorem verifier_sound [DecidableEq K] (hs : Hashes K V H) (hh : hs.Sound) (v : VerifierState H) (A : Contents H)
    (hc : Commits hs v A) :
    (∀ tr, v.readZeroVerify hs tr = .ok () → A.toMap (hs.key tr.key) = none) ∧
    (∀ tr v', v.verifyInsertion hs tr = (.ok (), v') → A.toMap (hs.key tr.key) = none ∧
      ∃ A', Commits hs v' A' ∧ A'.toMap = update A.toMap (hs.key tr.key) (some (hs.val tr.val))) ∧
    (∀ tr v', v.verifyDeletion hs tr = (.ok (), v') → A.toMap (hs.key tr.key) = some (hs.val tr.deletedValue) ∧
      ∃ A', Commits hs v' A' ∧ A'.toMap = update A.toMap (hs.key tr.key) none) ∧
    (Function.Injective hs.key → Function.Injective hs.val → ∀ M : K → Option V, Represents hs A M →
      (∀ tr, v.readZeroVerify hs tr = .ok () → M tr.key = none) ∧
      (∀ tr v', v.verifyInsertion hs tr = (.ok (), v') → M tr.key = none ∧
        ∃ A', Commits hs v' A' ∧ Represents hs A' (update M tr.key (some tr.val))) ∧
      (∀ tr v', v.verifyDeletion hs tr = (.ok (), v') → M tr.key = some tr.deletedValue ∧
        ∃ A', Commits hs v' A' ∧ Represents hs A' (update M tr.key none))) := by
  refine ⟨fun tr => hc.readZero hh, fun tr v' => hc.verifyInsertion hh, fun tr v' => hc.verifyDeletion hh,
    fun hkey hval M hM => ⟨fun tr h => ?_, fun tr v' h => ?_, fun tr v' h => ?_⟩⟩
  · exact hM.eq_none (hc.readZero hh h)
  · obtain ⟨habs, A', hc', hmap⟩ := hc.verifyInsertion hh h
    exact ⟨hM.eq_none habs, A', hc', hM.update (y := some tr.val) hkey hmap⟩
  · obtain ⟨hpres, A', hc', hmap⟩ := hc.verifyDeletion hh h
    exact ⟨hM.eq_some hval hpres, A', hc', hM.update (y := none) hkey hmap⟩

theorem natHashes_sound : natHashes.Sound where
  leaf_inj o o' h := by
    have : 3 * leafCode o + 1 = 3 * leafCode o' + 1 := WithTop.coe_injective h
    exact leafCode_injective (by omega)
  node_inj a b c d h := by
    have : 3 * nodeCode a b + 2 = 3 * nodeCode c d + 2 := WithTop.coe_injective h
    exact nodeCode_injective (by omega)
  leaf_ne_node o a b h := by
    have : 3 * leafCode o + 1 = 3 * nodeCode a b + 2 := WithTop.coe_injective h
    omega
  leaf_ne_empty o h := by
    have : 3 * leafCode o + 1 = 0 := WithTop.coe_injective h
    omega
  node_ne_empty := natHashes_honest.node_ne_bot

def emptyState : VerifierState (WithTop Nat) := ⟨"", 2, rootOf natHashes empty.cell⟩

theorem emptyState_commits : Commits natHashes emptyState empty := ⟨rfl, rfl⟩

theorem verifier_sound_nat :
    ∃ tr v', emptyState.verifyInsertion natHashes tr = (.ok (), v') ∧ tr.key = 5 ∧ tr.val = 8 ∧
      ∃ A', Commits natHashes v' A' ∧ A'.toMap = update empty.toMap 6 (some 8) := by
  have hin : ∀ i : Int, 0 ≤ i → i ≤ 2 → InTree i := fun i h0 h2 => ⟨h0, by simp [defaultDepth]; omega⟩
  have haccept : emptyState.verifyInsertion natHashes
      (insertionTrace natHashes emptyState.location 2 empty.cell 0 1 .head .tail 5 8) = (.ok (), _) :=
    verifyInsertion_insertionTrace rfl rfl rfl rfl rfl (hin 0 (by omega) (by omega)) (hin 2 (by omega) (by omega))
      (hin 1 (by omega) (by omega)) (by omega) rfl rfl (by decide) (by decide)
  obtain ⟨-, A', hc', hmap⟩ :=
    (verifier_sound natHashes natHashes_sound emptyState _ emptyState_commits).2.1 _ _ haccept
  exact ⟨_, _, haccept, rfl, rfl, A', hc', hmap⟩

end Lineth.Accumulator
