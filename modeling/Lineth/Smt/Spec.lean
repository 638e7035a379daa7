import Lineth.Lib.Except
import Lineth.Smt.Tree
import Mathlib.Tactic.NormNum

/-!
# What the sparse Merkle tree stores

`Holds hashLR t leaf`: the slices of `t`, read with the empty node of their level past the end, are the levels of the
complete tree over `leaf`. `Tree.update` keeps this for the overwritten leaf function and `Tree.prove` returns the
honest siblings, provided no node hashes to the zero octuplet (the tree reads a zero node as a corruption). -/

namespace Lineth.Smt
open Merkle Except List Nat

variable {H : Type}

theorem shl1_eq {d : Nat} (hd : d ≤ 62) : shl1 d = 2 ^ d := by
  have h1 : (2 : Int) ^ d ≤ 2 ^ 62 := by exact_mod_cast Nat.pow_le_pow_right (by omega) hd
  have h2 : (0 : Int) ≤ 2 ^ d := Int.pow_nonneg (by omega)
  unfold shl1
  rw [Int.bmod_eq_of_le] <;> omega

theorem natCast_lt_shl1 {d n : Nat} (hd : d ≤ 62) : (n : Int) < shl1 d ↔ n < 2 ^ d := by
  rw [shl1_eq hd]; exact_mod_cast Iff.rfl

/-! ### The verifier's side -/

section Recover

variable {hashLR : H → H → H}

theorem recoverFrom_eq (i : Nat) (x : H) (s : List H) :
    recoverFrom hashLR i x s = (((i / 2 ^ s.length : Nat) : Int), climb hashLR i x s) := by
  induction s generalizing i x with
  | nil => simp [recoverFrom, climb]
  | cons a s ih =>
    have h1 : ((i : Int) % 2 = 1) ↔ i % 2 = 1 := by omega
    rw [recoverFrom, show (i : Int) / 2 = ((i / 2 : Nat) : Int) by omega, ih, climb, Nat.div_div_eq_div_mul,
      ← Nat.pow_succ', length_cons]
    simp only [h1, combine]

theorem recoverFrom_neg (hashLR : H → H → H) {p : Int} (hp : p < 0) (x : H) (s : List H) :
    (recoverFrom hashLR p x s).1 < 0 := by
  induction s generalizing p x with
  | nil => exact hp
  | cons a s ih => exact ih (by omega) _

theorem recoverRoot_eq_ok {p : Proof H} {x r : H} :
    recoverRoot hashLR p x = .ok r ↔
      ∃ i : Nat, p.path = i ∧ i < 2 ^ p.siblings.length ∧ climb hashLR i x p.siblings = r := by
  unfold recoverRoot
  rcases lt_or_ge p.path 0 with hneg | hnn
  · have := (recoverFrom_neg hashLR hneg x p.siblings).ne
    simp only [this, ne_eq, not_false_eq_true, ↓reduceIte, throw_eq_error, reduceCtorEq, false_iff, not_exists,
      not_and]
    intro i hi
    omega
  · obtain ⟨i, hi⟩ := Int.eq_ofNat_of_zero_le hnn
    simp only [hi, recoverFrom_eq, ne_eq, Nat.cast_eq_zero, Nat.div_eq_zero_iff, Nat.pow_eq_zero]
    have h2 : ¬ ((2 : Nat) = 0 ∧ p.siblings.length ≠ 0) := by omega
    by_cases hlt : i < 2 ^ p.siblings.length <;> simp [hlt]

theorem verify_eq_ok_true [DecidableEq H] {p : Proof H} {x r : H} :
    verify hashLR p x r = .ok true ↔ recoverRoot hashLR p x = .ok r := by
  simp only [verify, bind_eq_ok, pure_eq_ok, ok.injEq, decide_eq_true_eq]
  exact ⟨fun ⟨a, h, e⟩ => e ▸ h, fun h => ⟨r, h, rfl⟩⟩

end Recover

/-! ### The levels of a tree -/

namespace Tree

theorem getD_pad (ns : List H) (n j : Nat) (e : H) : (pad ns n e).getD j e = ns.getD j e := by
  simp only [pad, getD_eq_getElem?_getD, getElem?_append, getElem?_replicate]
  split
  · rfl
  · rw [getElem?_eq_none (by omega)]
    split <;> rfl

theorem length_pad (ns : List H) (n : Nat) (e : H) : (pad ns n e).length = max n ns.length := by
  simp [pad]; omega

variable {ns : List H}

theorem getD_set_of_lt {i : Nat} (hi : i < ns.length) (x e : H) (j : Nat) :
    (ns.set i x).getD j e = if j = i then x else ns.getD j e := by
  simp only [getD_eq_getElem?_getD, getElem?_set, hi, ↓reduceIte, eq_comm (a := i)]
  split <;> rfl

def level (t : Tree H) : Nat → List H
  | 0 => t.occupiedLeaves
  | l + 1 => t.occupiedNodes.getD l []

theorem level_setLeaves {t : Tree H} {k : Nat} (hk : k ≠ 0) :
    level { t with occupiedLeaves := ns } k = t.level k := by
  cases k with
  | zero => exact absurd rfl hk
  | succ k => rfl

theorem level_setNodes {t : Tree H} {l : Nat} (hl : l < t.occupiedNodes.length) (k : Nat) :
    level { t with occupiedNodes := t.occupiedNodes.set l ns } k = if k = l + 1 then ns else t.level k := by
  cases k with
  | zero => rfl
  | succ k =>
    simp only [level, getD_eq_getElem?_getD, getElem?_set, add_right_cancel_iff, hl, ↓reduceIte,
      eq_comm (a := l)]
    split <;> rfl

end Tree

variable [Bot H] {hashLR : H → H → H}

/-- The node of an empty subtree of height `l`. -/
def emptyAt (hashLR : H → H → H) (l : Nat) : H := nodeAt hashLR (fun _ => emptyLeaf) l 0

theorem nodeAt_empty (l j : Nat) : nodeAt hashLR (fun _ => (emptyLeaf : H)) l j = emptyAt hashLR l := by
  induction l generalizing j with
  | zero => rfl
  | succ l ih => rw [emptyAt, nodeAt, nodeAt, ih, ih, ih, ih]

theorem emptyAt_succ (hashLR : H → H → H) (l : Nat) :
    emptyAt hashLR (l + 1) = hashLR (emptyAt hashLR l) (emptyAt hashLR l) := by
  rw [emptyAt, nodeAt, nodeAt_empty, nodeAt_empty]

namespace Tree

section

variable (hashLR : H → H → H) (t : Tree H)

structure Shape : Prop where
  depth_pos : 1 ≤ t.depth
  depth_le : t.depth ≤ 62
  nodes : t.occupiedNodes.length = t.depth - 1
  empties : ∀ l, l + 1 < t.depth → t.emptyNodes[l]? = some (emptyAt hashLR (l + 1))

/-- Level `l` of `t` is level `l` of the complete tree over `leaf`. -/
def LevelOk (leaf : Nat → H) (l : Nat) : Prop :=
  ∀ j, (t.level l).getD j (emptyAt hashLR l) = nodeAt hashLR leaf l j

/-- `t` is the sparse form of the complete tree over `leaf`. -/
structure Holds (leaf : Nat → H) : Prop extends Shape hashLR t where
  levels : ∀ l, l < t.depth → LevelOk hashLR t leaf l
  root_eq : t.root = nodeAt hashLR leaf t.depth 0

end

variable {t : Tree H} {leaf : Nat → H}

namespace Shape

section

variable (h : Shape hashLR t)

include h

theorem nodesOf_eq {l : Nat} (hl : l + 1 < t.depth) :
    t.nodesOf (l + 1) = .ok (t.level (l + 1)) := by
  have hlt : l < t.occupiedNodes.length := by have := h.nodes; omega
  simp [nodesOf, level, hlt]

theorem emptyNode_eq {l : Nat} (hl : l + 1 < t.depth) :
    t.emptyNode (l + 1) = .ok (emptyAt hashLR (l + 1)) := by
  simp [emptyNode, h.empties l hl]

theorem setNodes (l : Nat) (ns : List H) :
    Shape hashLR { t with occupiedNodes := t.occupiedNodes.set l ns } :=
  ⟨h.depth_pos, h.depth_le, by simpa using h.nodes, h.empties⟩

theorem setLeaves (ns : List H) : Shape hashLR { t with occupiedLeaves := ns } :=
  ⟨h.depth_pos, h.depth_le, h.nodes, h.empties⟩

end

end Shape

variable [DecidableEq H]

section

variable (h : Shape hashLR t)

include h

/-- Both branches of `updateNode` on the leaves write into the slice padded far enough. -/
theorem updateNode_zero {idx : Nat} (hidx : idx < 2 ^ t.depth) (x : H) :
    t.updateNode 0 idx x =
      .ok { t with occupiedLeaves := (pad t.occupiedLeaves (idx + 1) emptyLeaf).set idx x } := by
  have hpos := h.depth_pos
  have h1 : ¬ (0 = t.depth) := by omega
  have h0 : ¬ (1 ≤ 0 ∧ 0 < t.depth) := by omega
  have hb : ¬ ((idx : Int) ≥ shl1 t.depth) := by
    rw [ge_iff_le, not_le, natCast_lt_shl1 h.depth_le]; exact hidx
  have hr : ¬ (((idx + 1 : Nat) : Int) > shl1 t.depth) := by
    rw [gt_iff_lt, not_lt, shl1_eq h.depth_le]; exact_mod_cast hidx
  by_cases hp : idx ≥ t.occupiedLeaves.length
  · have h2 : ¬ (idx + 1 ≤ t.occupiedLeaves.length) := by omega
    have hres : t.reserveLevel 0 (idx + 1) =
        .ok { t with occupiedLeaves := pad t.occupiedLeaves (idx + 1) emptyLeaf } := by
      simp only [reserveLevel, gt_iff_lt, Nat.not_lt_zero, h1, Nat.sub_zero, hr, h2, ↓reduceIte, pure_eq_ok]
    simp only [updateNode, h0, h1, hb, hp, hres, ↓reduceIte, ok_bind,
      pure_eq_ok]
  · have hpad : pad t.occupiedLeaves (idx + 1) emptyLeaf = t.occupiedLeaves := by
      rw [pad, Nat.sub_eq_zero_of_le (by omega), replicate_zero, append_nil]
    simp only [updateNode, h0, h1, hb, hp, hpad, ↓reduceIte, ok_bind,
      pure_eq_ok]

/-- Both branches of `updateNode` on an inner level, likewise. -/
theorem updateNode_succ {l idx : Nat} (hl : l + 1 < t.depth)
    (hidx : idx < 2 ^ (t.depth - (l + 1))) (x : H) :
    t.updateNode (l + 1) idx x =
      .ok { t with occupiedNodes := t.occupiedNodes.set l ((pad (t.level (l + 1)) (idx + 1)
        (emptyAt hashLR (l + 1))).set idx x) } := by
  have hle := h.depth_le
  have hlen : l < t.occupiedNodes.length := by have := h.nodes; omega
  have h1 : ¬ (l + 1 = t.depth) := by omega
  have h2 : 1 ≤ l + 1 ∧ l + 1 < t.depth := ⟨by omega, hl⟩
  have hb : ¬ ((idx : Int) ≥ shl1 (t.depth - (l + 1))) := by
    rw [ge_iff_le, not_le, natCast_lt_shl1 (by omega)]; exact hidx
  have hr : ¬ (((idx + 1 : Nat) : Int) > shl1 (t.depth - (l + 1))) := by
    rw [gt_iff_lt, not_lt, shl1_eq (by omega)]; exact_mod_cast hidx
  by_cases hp : idx ≥ (t.level (l + 1)).length
  · have h3 : ¬ (l + 1 > t.depth) := by omega
    have h4 : ¬ (idx + 1 ≤ (t.level (l + 1)).length) := by omega
    have hres : t.reserveLevel (l + 1) (idx + 1) =
        .ok { t with occupiedNodes := t.occupiedNodes.set l (pad (t.level (l + 1)) (idx + 1)
          (emptyAt hashLR (l + 1))) } := by
      simp only [reserveLevel, h1, h3, hr, h4, h.nodesOf_eq hl, h.emptyNode_eq hl, Nat.add_one_ne_zero, ↓reduceIte,
        ok_bind, pure_eq_ok, Nat.add_sub_cancel]
    have hn := (h.setNodes l (pad (t.level (l + 1)) (idx + 1) (emptyAt hashLR (l + 1)))).nodesOf_eq hl
    rw [level_setNodes hlen, if_pos rfl] at hn
    simp only [updateNode, h1, h2, hb, hp, h.nodesOf_eq hl, hres, hn, and_self, ↓reduceIte, ok_bind,
      pure_eq_ok, Nat.add_sub_cancel, set_set]
  · have hpad : pad (t.level (l + 1)) (idx + 1) (emptyAt hashLR (l + 1)) = t.level (l + 1) := by
      rw [pad, Nat.sub_eq_zero_of_le (by omega), replicate_zero, append_nil]
    simp only [updateNode, h1, h2, hb, hp, hpad, h.nodesOf_eq hl, and_self, ↓reduceIte, ok_bind,
      pure_eq_ok, Nat.add_sub_cancel]

theorem updateNode_spec {l idx : Nat} (hl : l < t.depth) (hidx : idx < 2 ^ (t.depth - l)) (x : H) :
    ∃ t', t.updateNode l idx x = .ok t' ∧ Shape hashLR t' ∧ t'.depth = t.depth ∧
      (∀ k, k ≠ l → t'.level k = t.level k) ∧
      ∀ j, (t'.level l).getD j (emptyAt hashLR l) = if j = idx then x else (t.level l).getD j (emptyAt hashLR l) := by
  cases l with
  | zero =>
    refine ⟨_, updateNode_zero h hidx x, h.setLeaves _, rfl, fun k hk => level_setLeaves hk, fun j => ?_⟩
    show ((pad t.occupiedLeaves (idx + 1) emptyLeaf).set idx x).getD j emptyLeaf = _
    rw [getD_set_of_lt (by rw [length_pad]; omega), getD_pad]
    rfl
  | succ l =>
    have hlen : l < t.occupiedNodes.length := by have := h.nodes; omega
    refine ⟨_, updateNode_succ h hl hidx x, h.setNodes _ _, rfl, fun k hk => ?_, fun j => ?_⟩
    · rw [level_setNodes hlen, if_neg hk]
    · rw [level_setNodes hlen, if_pos rfl, getD_set_of_lt (by rw [length_pad]; omega), getD_pad]

theorem getNode_leaf (hlev : LevelOk hashLR t leaf 0) {j : Nat} (hj : j < 2 ^ t.depth) :
    t.getNode 0 j = .ok (leaf j) := by
  have hpos := h.depth_pos
  have h1 : ¬ (0 = t.depth) := by omega
  have h0 : ¬ (1 ≤ 0 ∧ 0 < t.depth) := by omega
  have hb : ¬ ((j : Int) ≥ shl1 t.depth) := by rwa [ge_iff_le, not_le, natCast_lt_shl1 h.depth_le]
  have hneg : ¬ ((j : Int) < 0) := by omega
  have hj : t.occupiedLeaves.getD j emptyLeaf = leaf j := hlev j
  rw [getD_eq_getElem?_getD] at hj
  simp only [getNode, getLeaf, h0, h1, hb, hneg, ↓reduceIte, Int.toNat_natCast]
  by_cases hlen : (j : Int) ≥ t.occupiedLeaves.length
  · rw [getElem?_eq_none (by omega)] at hj
    rw [if_pos hlen, ← hj]; rfl
  · rw [getElem?_eq_getElem (by omega)] at hj ⊢
    rw [if_neg hlen, ← hj]; rfl

theorem getNode_inner (hnz : ∀ a b, hashLR a b ≠ ⊥) {l j : Nat} (hl : l + 1 < t.depth)
    (hlev : LevelOk hashLR t leaf (l + 1)) (hj : j < 2 ^ (t.depth - (l + 1))) :
    t.getNode (l + 1) j = .ok (nodeAt hashLR leaf (l + 1) j) := by
  have hle := h.depth_le
  have h1 : ¬ (l + 1 = t.depth) := by omega
  have h2 : 1 ≤ l + 1 ∧ l + 1 < t.depth := ⟨by omega, hl⟩
  have hb : ¬ ((j : Int) ≥ shl1 (t.depth - (l + 1))) := by rwa [ge_iff_le, not_le, natCast_lt_shl1 (by omega)]
  have hx := hlev j
  have hne : nodeAt hashLR leaf (l + 1) j ≠ ⊥ := by rw [nodeAt]; exact hnz _ _
  rw [getD_eq_getElem?_getD] at hx
  simp only [getNode, h1, h2, hb, h.nodesOf_eq hl, h.emptyNode_eq hl, and_self, ↓reduceIte, ok_bind]
  cases hg : (t.level (l + 1))[j]? with
  | none => rw [hg] at hx; exact congrArg _ hx
  | some x =>
    obtain rfl : x = nodeAt hashLR leaf (l + 1) j := by rw [hg] at hx; exact hx
    exact if_neg hne

theorem getNode_spec (hnz : ∀ a b, hashLR a b ≠ ⊥) {l j : Nat} (hl : l < t.depth)
    (hlev : LevelOk hashLR t leaf l) (hj : j < 2 ^ (t.depth - l)) :
    t.getNode l j = .ok (nodeAt hashLR leaf l j) := by
  cases l with
  | zero => exact getNode_leaf h hlev hj
  | succ l => exact getNode_inner h hnz hl hlev hj

end

theorem div_two_pow_succ (i l : Nat) : i / 2 ^ l / 2 = i / 2 ^ (l + 1) := by
  rw [Nat.div_div_eq_div_mul, ← Nat.pow_succ]

theorem div_two_pow_lt {i d l : Nat} (hi : i < 2 ^ d) (hl : l ≤ d) : i / 2 ^ l < 2 ^ (d - l) := by
  rw [Nat.div_lt_iff_lt_mul (Nat.two_pow_pos l), ← Nat.pow_add, Nat.sub_add_cancel hl]; exact hi

theorem sib_lt {i n : Nat} (hn : n ≠ 0) (hi : i < 2 ^ n) : sib i < 2 ^ n := by
  obtain ⟨m, rfl⟩ := exists_eq_succ_of_ne_zero hn
  have := sib_div i
  rw [Nat.pow_succ] at hi ⊢
  omega

/-- The loop of `Update`: below the current level the tree is already the new one, from it on still
the old one. -/
theorem updateFrom_spec (hnz : ∀ a b, hashLR a b ≠ ⊥) {pos : Nat} {x : H} {n l : Nat} (h : Shape hashLR t)
    (hnl : n + l = t.depth) (hpos : pos < 2 ^ t.depth)
    (hlow : ∀ k, k < l → LevelOk hashLR t (Function.update leaf pos x) k)
    (hhigh : ∀ k, l ≤ k → k < t.depth → LevelOk hashLR t leaf k) :
    ∃ t', updateFrom hashLR t n l (pos / 2 ^ l) (nodeAt hashLR (Function.update leaf pos x) l (pos / 2 ^ l)) = .ok t' ∧
      t'.depth = t.depth ∧ Holds hashLR t' (Function.update leaf pos x) := by
  induction n generalizing l t with
  | zero =>
    obtain rfl : l = t.depth := by omega
    have h0 : pos / 2 ^ t.depth = 0 := div_eq_of_lt hpos
    refine ⟨{ t with root := nodeAt hashLR (Function.update leaf pos x) t.depth 0 }, ?_, rfl, ?_⟩
    · simp only [updateFrom, h0, ne_eq, not_true_eq_false, ↓reduceIte, pure_eq_ok]
    · exact ⟨⟨h.depth_pos, h.depth_le, h.nodes, h.empties⟩, hlow, rfl⟩
  | succ n ih =>
    have hl : l < t.depth := by omega
    have hidx := div_two_pow_lt hpos hl.le
    obtain ⟨t', hu, hs, hd, hother, hlev⟩ := updateNode_spec h hl hidx
      (nodeAt hashLR (Function.update leaf pos x) l (pos / 2 ^ l))
    have hnew : LevelOk hashLR t' (Function.update leaf pos x) l := fun j => by
      rw [hlev]
      split
      · subst j; rfl
      · rw [nodeAt_update_of_ne ‹_›]; exact hhigh l le_rfl hl j
    have hsib := getNode_spec hs hnz (by omega) hnew (j := sib (pos / 2 ^ l))
      (sib_lt (by omega) (by rw [hd]; exact hidx))
    have hcur := combine_sib hashLR (Function.update leaf pos x) l (pos / 2 ^ l)
    rw [combine] at hcur
    simp only [updateFrom, hu, ok_bind, xor_one_eq_sib, hsib, hcur, div_two_pow_succ]
    have := ih hs (l := l + 1) (by omega) (by rw [hd]; exact hpos) ?_ ?_
    · rwa [hd] at this
    · intro k hk
      rcases Nat.lt_succ_iff_lt_or_eq.1 hk with hk | rfl
      · rw [LevelOk, hother k hk.ne]; exact hlow k hk
      · exact hnew
    · intro k hk hkd
      rw [LevelOk, hother k (by omega)]; exact hhigh k (by omega) (by omega)

namespace Holds

section

variable (h : Holds hashLR t leaf) (hnz : ∀ a b, hashLR a b ≠ ⊥)

include h hnz

theorem update_spec {pos : Nat} (hpos : pos < 2 ^ t.depth) (x : H) :
    ∃ t', t.update hashLR pos x = .ok t' ∧ t'.depth = t.depth ∧ Holds hashLR t' (Function.update leaf pos x) := by
  have hb : ¬ ((pos : Int) ≥ shl1 t.depth) := by rwa [ge_iff_le, not_le, natCast_lt_shl1 h.depth_le]
  have hneg : ¬ ((pos : Int) < 0) := by omega
  have := updateFrom_spec (x := x) hnz h.toShape (l := 0) (add_zero _) hpos
    (fun _ hk => absurd hk (Nat.not_lt_zero _)) (fun k _ hk => h.levels k hk)
  simpa [update, hb, hneg, nodeAt] using this

theorem proveFrom_spec {n l i : Nat} (hnl : n + l = t.depth)
    (hi : i < 2 ^ n) : t.proveFrom n l i = .ok (siblings hashLR leaf l n i) := by
  induction n generalizing l i with
  | zero =>
    obtain rfl : i = 0 := by simpa using hi
    rfl
  | succ n ih =>
    have hsib := getNode_spec h.toShape hnz (j := sib i) (by omega) (h.levels l (by omega))
      (by rw [show t.depth - l = n + 1 by omega]; exact sib_lt (succ_ne_zero n) hi)
    simp only [proveFrom, xor_one_eq_sib, hsib, ok_bind,
      ih (l := l + 1) (i := i / 2) (by omega) (by rw [Nat.pow_succ] at hi; omega), siblings, pure_eq_ok]

theorem prove_spec {pos : Nat} (hpos : pos < 2 ^ t.depth) :
    t.prove pos = .ok ⟨pos, siblings hashLR leaf 0 t.depth pos⟩ := by
  have hb : ¬ ((pos : Int) ≥ shl1 t.depth) := by rwa [ge_iff_le, not_le, natCast_lt_shl1 h.depth_le]
  have hneg : ¬ ((pos : Int) < 0) := by omega
  simp only [prove, hb, hneg, ↓reduceIte, Int.toNat_natCast, h.proveFrom_spec hnz (add_zero _) hpos, ok_bind,
    pure_eq_ok]

end

end Holds

/-! ### The leaves alone

What an update that returns does to the leaves needs no assumption on the hash. -/

/-- The leaves of `t` are `leaf`, whatever its inner nodes are. -/
structure HasLeaves (hashLR : H → H → H) (t : Tree H) (leaf : Nat → H) : Prop extends Shape hashLR t where
  leaves : LevelOk hashLR t leaf 0

omit [DecidableEq H] in
theorem Holds.hasLeaves (h : Holds hashLR t leaf) : HasLeaves hashLR t leaf := ⟨h.toShape, h.levels 0 h.depth_pos⟩

theorem updateFrom_leaves {t' : Tree H} {n l idx : Nat} {x : H} (h : Shape hashLR t)
    (hnl : n + l = t.depth) (hl : l ≠ 0) (hidx : idx < 2 ^ n) (hok : updateFrom hashLR t n l idx x = .ok t') :
    Shape hashLR t' ∧ t'.depth = t.depth ∧ t'.level 0 = t.level 0 := by
  induction n generalizing t l idx x with
  | zero =>
    simp only [updateFrom, throw_eq_error, ite_error_eq_ok, pure_eq_ok, ok.injEq] at hok
    obtain ⟨-, rfl⟩ := hok
    exact ⟨⟨h.depth_pos, h.depth_le, h.nodes, h.empties⟩, rfl, rfl⟩
  | succ n ih =>
    obtain ⟨t₁, hu, hs, hd, hother, -⟩ := updateNode_spec h (show l < t.depth by omega)
      (show idx < 2 ^ (t.depth - l) by rw [show t.depth - l = n + 1 by omega]; exact hidx) x
    rw [updateFrom, hu, ok_bind] at hok
    obtain ⟨sibling, -, hrest⟩ := bind_eq_ok.1 hok
    obtain ⟨hs', hd', h0⟩ := ih hs (by omega) (succ_ne_zero l) (by rw [Nat.pow_succ] at hidx; omega) hrest
    exact ⟨hs', hd'.trans hd, h0.trans (hother 0 (Ne.symm hl))⟩

namespace HasLeaves

theorem update_ok {t' : Tree H} {pos : Int} {x : H} (h : HasLeaves hashLR t leaf)
    (hok : t.update hashLR pos x = .ok t') :
    ∃ n : Nat, pos = n ∧ n < 2 ^ t.depth ∧ t'.depth = t.depth ∧ HasLeaves hashLR t' (Function.update leaf n x) := by
  simp only [update, throw_eq_error, ite_error_eq_ok, ge_iff_le, not_le, not_lt] at hok
  obtain ⟨hlt, hnn, hok⟩ := hok
  obtain ⟨n, rfl⟩ := Int.eq_ofNat_of_zero_le hnn
  rw [natCast_lt_shl1 h.depth_le] at hlt
  rw [Int.toNat_natCast] at hok
  have hpos := h.depth_pos
  obtain ⟨d, hd⟩ := exists_eq_succ_of_ne_zero (show t.depth ≠ 0 by omega)
  obtain ⟨t₁, hu, hs₁, hd₁, -, hlev⟩ := updateNode_spec h.toShape (l := 0) (by omega) hlt x
  rw [hd, updateFrom, hu, ok_bind] at hok
  obtain ⟨sibling, -, hrest⟩ := bind_eq_ok.1 hok
  obtain ⟨hs', hd', h0⟩ := updateFrom_leaves hs₁ (by omega) (succ_ne_zero 0)
    (by rw [hd, Nat.pow_succ] at hlt; omega) hrest
  refine ⟨n, rfl, hlt, hd'.trans hd₁, hs', fun j => ?_⟩
  rw [h0, hlev, nodeAt]
  by_cases hj : j = n
  · subst hj; rw [if_pos rfl, Function.update_self]
  · rw [if_neg hj, Function.update_of_ne hj]; exact h.leaves j

theorem getLeaf_eq (h : HasLeaves hashLR t leaf) {pos : Nat} (hpos : pos < 2 ^ t.depth) :
    t.getLeaf pos = .ok (leaf pos) := by
  have hp := h.depth_pos
  have h1 : ¬ (0 = t.depth) := by omega
  have h0 : ¬ (1 ≤ 0 ∧ 0 < t.depth) := by omega
  simpa only [getNode, h0, h1, ↓reduceIte] using getNode_leaf h.toShape h.leaves hpos

end HasLeaves

end Tree

/-! ### The empty tree -/

theorem emptyNodesAbove_spec (hashLR : H → H → H) (n l : Nat) :
    (emptyNodesAbove hashLR n (emptyAt hashLR l)).2 = emptyAt hashLR (l + n) ∧
    ∀ k, k < n → (emptyNodesAbove hashLR n (emptyAt hashLR l)).1[k]? = some (emptyAt hashLR (l + k + 1)) := by
  induction n generalizing l with
  | zero => exact ⟨rfl, fun k hk => absurd hk (Nat.not_lt_zero k)⟩
  | succ n ih =>
    obtain ⟨h1, h2⟩ := ih (l + 1)
    simp only [emptyNodesAbove, ← emptyAt_succ]
    refine ⟨by rw [h1]; congr 1; omega, fun k hk => ?_⟩
    cases k with
    | zero => rfl
    | succ k =>
      rw [getElem?_cons_succ, h2 k (by omega)]
      congr 2; omega

theorem emptyTree_holds {d : Nat} (hpos : 1 ≤ d) (hle : d ≤ 62) {p : List H × H}
    (hp : p = emptyNodesAbove hashLR (d - 1) (emptyAt hashLR 0)) :
    Tree.Holds hashLR ⟨d, hashLR p.2 p.2, [], replicate (d - 1) [], p.1⟩ fun _ => emptyLeaf := by
  obtain ⟨h1, h2⟩ := emptyNodesAbove_spec hashLR (d - 1) 0
  rw [← hp] at h1 h2
  refine ⟨⟨hpos, hle, length_replicate, fun l (hl : l + 1 < d) => ?_⟩, fun l (hl : l < d) => ?_, ?_⟩
  · rw [h2 l (by omega), zero_add]
  · intro j
    rw [nodeAt_empty]
    cases l with
    | zero => rfl
    | succ l =>
      show ((replicate (d - 1) []).getD l []).getD j _ = _
      rw [getD_replicate _ (by omega)]; rfl
  · rw [nodeAt_empty, h1, ← emptyAt_succ hashLR, show 0 + (d - 1) + 1 = d by omega]

theorem newEmptyTree_depth : (newEmptyTree hashLR ([] : List Int)).depth = defaultDepth := rfl

end Lineth.Smt
