import Lineth.Accumulator.Abstract
import Lineth.Accumulator.Checks

/-!
# The honest prover, one leaf at a time

`Stores hs p cell` says that the prover's tree and entries hold exactly the openings `cell`. A scan finds what it
looks for in any iteration order; `upsertTuple` and `rmTuple` overwrite one opening, and the verifier's
`updateCheckRoot` follows them. -/

namespace Lineth.Accumulator

open Function (update update_eq_self)
open Smt (Proof defaultDepth)
open LinkedList Except List Option ProverState

variable {K V H : Type} [LinearOrder H] [BoundedOrder H] {hs : Hashes K V H}

/-! ### The openings of a map of entries -/

namespace Data

def cell (data : Data K V H) (i : Int) : Option (LeafOpening H) := (data.lookup i).map KVOpeningTuple.leafOpening

variable {data : Data K V H} {t : KVOpeningTuple K V H} {o : LeafOpening H} {i : Int}

omit [LinearOrder H] [BoundedOrder H]

theorem cell_eq (ht : data.lookup i = some t) : data.cell i = some t.leafOpening := by rw [cell, ht]; rfl

theorem exists_tuple (hi : data.cell i = some o) : ∃ t, data.lookup i = some t ∧ t.leafOpening = o :=
  map_eq_some_iff.1 hi

theorem mem_keys_iff : i ∈ data.keys ↔ ∃ o, data.cell i = some o := by
  rw [← AList.mem_keys, ← AList.lookup_isSome, isSome_iff_exists]
  exact ⟨fun ⟨t, ht⟩ => ⟨_, cell_eq ht⟩, fun ⟨o, ho⟩ => let ⟨t, ht, _⟩ := exists_tuple ho; ⟨t, ht⟩⟩

theorem mem_shuffle (sh : Shuffle) : i ∈ sh.order data.keys ↔ ∃ o, data.cell i = some o := by
  rw [(sh.perm _).mem_iff, mem_keys_iff]

theorem cell_insert (data : Data K V H) (i : Int) (t : KVOpeningTuple K V H) :
    cell (data.insert i t) = update data.cell i (some t.leafOpening) := by
  funext j
  by_cases hji : j = i
  · subst hji; simp [cell, AList.lookup_insert]
  · simp [cell, AList.lookup_insert_ne hji, hji]

theorem cell_erase (data : Data K V H) (i : Int) : cell (data.erase i) = update data.cell i none := by
  funext j
  by_cases hji : j = i
  · subst hji; simp [cell, AList.lookup_erase]
  · simp [cell, AList.lookup_erase_ne hji, hji]

end Data

/-! ### Honest Merkle proofs -/

def honestProof (hs : Hashes K V H) (cell : Int → Option (LeafOpening H)) (i : Int) : Proof H :=
  ⟨i, Merkle.siblings hs.node (leafAt hs cell) 0 defaultDepth i.toNat⟩

def InTree (i : Int) : Prop := 0 ≤ i ∧ i < 2 ^ defaultDepth

theorem InTree.exists_nat {i : Int} (h : InTree i) : ∃ n : Nat, i = n ∧ n < 2 ^ defaultDepth := by
  obtain ⟨n, rfl⟩ := Int.eq_ofNat_of_zero_le h.1
  exact ⟨n, rfl, by exact_mod_cast h.2⟩

variable {cell : Int → Option (LeafOpening H)} {i : Int}

theorem recoverRoot_honestProof (hi : InTree i) (o : Option (LeafOpening H)) :
    Smt.recoverRoot hs.node (honestProof hs cell i) (leafOf hs o) = .ok (rootOf hs (update cell i o)) := by
  obtain ⟨n, rfl, hn⟩ := hi.exists_nat
  refine Smt.recoverRoot_eq_ok.2 ⟨n, rfl, by simpa [honestProof] using hn, ?_⟩
  rw [honestProof, Int.toNat_natCast, Merkle.climb_update, Nat.div_eq_of_lt hn, rootOf, leafAt_update]

theorem recoverRoot_cell (hi : InTree i) (o : Option (LeafOpening H)) (ho : cell i = o) :
    Smt.recoverRoot hs.node (honestProof hs cell i) (leafOf hs o) = .ok (rootOf hs cell) := by
  subst ho
  rw [recoverRoot_honestProof hi, update_eq_self]

theorem replaces_honestProof (hi : InTree i) (o o' : Option (LeafOpening H)) (ho : cell i = o) {root' : H}
    {us : List (LeafUpdate H)} (h : Replaces hs root' (rootOf hs (update cell i o')) us) :
    Replaces hs root' (rootOf hs cell) (⟨honestProof hs cell i, leafOf hs o, leafOf hs o'⟩ :: us) :=
  ⟨recoverRoot_cell hi o ho, _, recoverRoot_honestProof hi o', h⟩

/-! ### What the prover stores -/

structure Stores (hs : Hashes K V H) (p : ProverState K V H) (cell : Int → Option (LeafOpening H)) : Prop where
  tree : p.tree.Holds hs.node (leafAt hs cell)
  depth : p.tree.depth = defaultDepth
  data : ∀ i, (p.data.lookup i).map KVOpeningTuple.leafOpening = cell i
  consistent : ∀ i t, p.data.lookup i = some t → t.Consistent hs

namespace Stores

variable {p : ProverState K V H} {t : KVOpeningTuple K V H} {o : LeafOpening H}

section

variable (h : Stores hs p cell)

include h

theorem root_eq : p.tree.root = rootOf hs cell := by
  rw [h.tree.root_eq, h.depth, rootOf]

theorem verifierState_eq : p.verifierState = ⟨p.location, p.nextFreeNode, rootOf hs cell⟩ := by
  rw [verifierState, h.root_eq]

theorem cell_data : p.data.cell = cell := funext h.data

theorem cell_eq (ht : p.data.lookup i = some t) : cell i = some t.leafOpening := by
  rw [← h.cell_data]; exact Data.cell_eq ht

theorem exists_tuple (hi : cell i = some o) : ∃ t, p.data.lookup i = some t ∧ t.leafOpening = o := by
  rw [← h.cell_data] at hi
  exact Data.exists_tuple hi

theorem mem_keys : i ∈ p.data.keys ↔ ∃ o, cell i = some o := by
  rw [Data.mem_keys_iff, h.cell_data]

theorem prove_eq (hnz : ∀ a b, hs.node a b ≠ ⊥) (hi : InTree i) :
    p.tree.prove i = .ok (honestProof hs cell i) := by
  obtain ⟨n, rfl, hn⟩ := hi.exists_nat
  rw [h.tree.prove_spec hnz (by rw [h.depth]; exact hn), h.depth, honestProof, Int.toNat_natCast]

theorem update_prove (hnz : ∀ a b, hs.node a b ≠ ⊥) (hi : InTree i) (o : Option (LeafOpening H)) :
    ∃ tree, p.tree.update hs.node i (leafOf hs o) = .ok tree ∧ tree.prove i = .ok (honestProof hs cell i) ∧
      tree.Holds hs.node (leafAt hs (update cell i o)) ∧ tree.depth = defaultDepth := by
  obtain ⟨n, rfl, hn⟩ := hi.exists_nat
  obtain ⟨tree, hu, hd, hh⟩ := h.tree.update_spec hnz (by rw [h.depth]; exact hn) (leafOf hs o)
  rw [h.depth] at hd
  refine ⟨tree, hu, ?_, by rw [leafAt_update]; exact hh, hd⟩
  have hsib := Merkle.siblings_update hs.node (leafAt hs cell) 0 defaultDepth n (leafOf hs o)
  rw [Nat.pow_zero, Nat.div_one] at hsib
  rw [hh.prove_spec hnz (by rw [hd]; exact hn), hd, hsib, honestProof, Int.toNat_natCast]

theorem insert_data {tree : Smt.Tree H} (ht : t.Consistent hs)
    (htree : tree.Holds hs.node (leafAt hs (update cell i (some t.leafOpening)))) (hd : tree.depth = defaultDepth) :
    Stores hs { p with data := p.data.insert i t, tree := tree } (update cell i (some t.leafOpening)) := by
  refine ⟨htree, hd, fun j => ?_, fun j t' hj => ?_⟩
  · rw [← h.cell_data]; exact congrFun (Data.cell_insert p.data i t) j
  · by_cases hji : j = i
    · subst hji
      rw [AList.lookup_insert] at hj
      cases hj; exact ht
    · rw [AList.lookup_insert_ne hji] at hj
      exact h.consistent j t' hj

theorem upsertTuple_spec (hnz : ∀ a b, hs.node a b ≠ ⊥) (hi : InTree i) (ht : t.Consistent hs)
    (hold : ∀ o, cell i = some o → o.hKey = t.leafOpening.hKey ∧ numChanges o t.leafOpening = 1) :
    ∃ p', p.upsertTuple hs i t = .ok (honestProof hs cell i, p') ∧ p'.location = p.location ∧
      p'.nextFreeNode = p.nextFreeNode ∧ Stores hs p' (update cell i (some t.leafOpening)) := by
  obtain ⟨tree, hu, hp, hh, hd⟩ := h.update_prove hnz hi (some t.leafOpening)
  refine ⟨{ p with data := p.data.insert i t, tree := tree }, ?_, rfl, rfl, h.insert_data ht hh hd⟩
  have hleaf : t.checkAndLeaf hs = .ok (hs.leaf t.leafOpening) := KVOpeningTuple.checkAndLeaf_eq_ok.2 ⟨ht, rfl⟩
  have hu : p.tree.update hs.node i (hs.leaf t.leafOpening) = .ok tree := hu
  cases hl : p.data.lookup i with
  | none => simp only [upsertTuple, hleaf, hl, hu, hp, liftTree, pure_eq_ok, ok_bind]
  | some old =>
    have hcons : old.checkAndLeaf hs = .ok (hs.leaf old.leafOpening) :=
      KVOpeningTuple.checkAndLeaf_eq_ok.2 ⟨h.consistent i old hl, rfl⟩
    obtain ⟨hkey, hone⟩ := hold _ (h.cell_eq hl)
    have hcheck : checkOld hs old t = .ok () := by
      simp only [checkOld, hcons, hkey, hone, ne_eq, not_true_eq_false, ↓reduceIte, pure_eq_ok]
    simp only [upsertTuple, hleaf, hl, hcheck, hu, hp, liftTree, pure_eq_ok, ok_bind]

theorem rmTuple_spec (hnz : ∀ a b, hs.node a b ≠ ⊥) (hi : InTree i) (hocc : cell i = some o) :
    ∃ p', p.rmTuple hs i = .ok (honestProof hs cell i, p') ∧ p'.location = p.location ∧
      p'.nextFreeNode = p.nextFreeNode ∧ Stores hs p' (update cell i none) := by
  obtain ⟨tree, hu, hp, hh, hd⟩ := h.update_prove hnz hi none
  have hu : p.tree.update hs.node i Smt.emptyLeaf = .ok tree := hu
  have hmem : ¬ i ∉ p.data := by
    rw [not_not, AList.mem_keys, h.mem_keys]
    exact ⟨o, hocc⟩
  refine ⟨{ p with data := p.data.erase i, tree := tree }, ?_, rfl, rfl, hh, hd, fun j => ?_, fun j t' hj => ?_⟩
  · simp only [rmTuple, hmem, hu, hp, liftTree, ↓reduceIte, pure_eq_ok, ok_bind]
  · rw [← h.cell_data]; exact congrFun (Data.cell_erase p.data i) j
  · by_cases hji : j = i
    · subst hji; simp [AList.lookup_erase] at hj
    · rw [AList.lookup_erase_ne hji] at hj
      exact h.consistent j t' hj

end

end Stores

/-! ### Scans -/

section Scan

variable {data : Data K V H} {hkey : H} {l : List Int}

omit [BoundedOrder H] in
theorem findKeyIn_eq_none (hl : ∀ j ∈ l, ∃ t, data.lookup j = some t ∧ t.leafOpening.hKey ≠ hkey) :
    findKeyIn data hkey l = .ok none := by
  induction l with
  | nil => rfl
  | cons j l ih =>
    obtain ⟨t, ht, hne⟩ := hl j mem_cons_self
    simp only [findKeyIn, Data.mustGet_eq ht, ok_bind, hne.symm, ↓reduceIte]
    exact ih fun j hj => hl j (mem_cons_of_mem _ hj)

omit [BoundedOrder H] in
theorem findKeyIn_eq_some (hl : ∀ j ∈ l, ∃ t, data.lookup j = some t ∧ (t.leafOpening.hKey = hkey ↔ j = i))
    (hi : i ∈ l) :
    findKeyIn data hkey l = .ok (some i) := by
  induction l with
  | nil => simp at hi
  | cons j l ih =>
    obtain ⟨t, ht, hiff⟩ := hl j mem_cons_self
    simp only [findKeyIn, Data.mustGet_eq ht, ok_bind, eq_comm (a := hkey), hiff]
    by_cases hji : j = i
    · rw [if_pos hji, hji]; rfl
    · rw [if_neg hji]
      refine ih (fun j hj => hl j (mem_cons_of_mem _ hj)) ?_
      rcases mem_cons.1 hi with rfl | hi
      · exact absurd rfl hji
      · exact hi

omit [BoundedOrder H] in
/-- The loop of `findSandwich` narrows the sandwich: no visited key is strictly inside the result. -/
theorem findSandwichIn_spec {im ip : Int} {om op : LeafOpening H}
    (hl : ∀ j ∈ l, ∃ o, data.cell j = some o ∧ o.hKey ≠ hkey)
    (hm : data.cell im = some om) (hp : data.cell ip = some op) (hlo : om.hKey < hkey) (hhi : hkey < op.hKey) :
    ∃ im' ip' om' op', findSandwichIn data hkey l om.hKey im op.hKey ip = .ok (im', ip') ∧ data.cell im' = some om' ∧
      data.cell ip' = some op' ∧ om'.hKey < hkey ∧ hkey < op'.hKey ∧ om.hKey ≤ om'.hKey ∧ op'.hKey ≤ op.hKey ∧
      ∀ j ∈ l, ∀ o, data.cell j = some o → o.hKey ≤ om'.hKey ∨ op'.hKey ≤ o.hKey := by
  induction l generalizing im ip om op with
  | nil =>
    have hne : im ≠ ip := by
      rintro rfl
      cases some_inj.1 (hm.symm.trans hp)
      exact lt_irrefl _ (hlo.trans hhi)
    exact ⟨im, ip, om, op, by simp [findSandwichIn, hne], hm, hp, hlo, hhi, le_rfl, le_rfl, by simp⟩
  | cons j l ih =>
    have hrest := fun j hj => hl j (mem_cons_of_mem _ hj)
    obtain ⟨o, ho, hne⟩ := hl j mem_cons_self
    obtain ⟨t, ht, rfl⟩ := Data.exists_tuple ho
    have here : ∀ {x y : H} {o' : LeafOpening H}, data.cell j = some o' →
      t.leafOpening.hKey ≤ x ∨ y ≤ t.leafOpening.hKey →
        o'.hKey ≤ x ∨ y ≤ o'.hKey := fun ho' hx => by cases some_inj.1 (ho.symm.trans ho'); exact hx
    rcases lt_or_gt_of_ne hne with hlt | hgt
    · simp only [findSandwichIn, Data.mustGet_eq ht, ok_bind, compare_lt_iff_lt.2 hlt]
      by_cases hup : om.hKey < t.leafOpening.hKey
      · rw [if_pos (compare_gt_iff_gt.2 hup)]
        obtain ⟨im', ip', om', op', heq, hm', hp', hlo', hhi', h1, h2, h3⟩ := ih hrest ho hp hlt hhi
        refine ⟨im', ip', om', op', heq, hm', hp', hlo', hhi', hup.le.trans h1, h2, fun j' hj' o' ho' => ?_⟩
        rcases mem_cons.1 hj' with rfl | hj'
        · exact here ho' (.inl h1)
        · exact h3 j' hj' o' ho'
      · rw [if_neg (by rwa [compare_gt_iff_gt])]
        obtain ⟨im', ip', om', op', heq, hm', hp', hlo', hhi', h1, h2, h3⟩ := ih hrest hm hp hlo hhi
        refine ⟨im', ip', om', op', heq, hm', hp', hlo', hhi', h1, h2, fun j' hj' o' ho' => ?_⟩
        rcases mem_cons.1 hj' with rfl | hj'
        · exact here ho' (.inl ((not_lt.1 hup).trans h1))
        · exact h3 j' hj' o' ho'
    · simp only [findSandwichIn, Data.mustGet_eq ht, ok_bind, compare_gt_iff_gt.2 hgt]
      by_cases hdown : t.leafOpening.hKey < op.hKey
      · rw [if_pos (compare_lt_iff_lt.2 hdown)]
        obtain ⟨im', ip', om', op', heq, hm', hp', hlo', hhi', h1, h2, h3⟩ := ih hrest hm ho hlo hgt
        refine ⟨im', ip', om', op', heq, hm', hp', hlo', hhi', h1, h2.trans hdown.le, fun j' hj' o' ho' => ?_⟩
        rcases mem_cons.1 hj' with rfl | hj'
        · exact here ho' (.inr h2)
        · exact h3 j' hj' o' ho'
      · rw [if_neg (by rwa [compare_lt_iff_lt])]
        obtain ⟨im', ip', om', op', heq, hm', hp', hlo', hhi', h1, h2, h3⟩ := ih hrest hm hp hlo hhi
        refine ⟨im', ip', om', op', heq, hm', hp', hlo', hhi', h1, h2, fun j' hj' o' ho' => ?_⟩
        rcases mem_cons.1 hj' with rfl | hj'
        · exact here ho' (.inr (h2.trans (not_lt.1 hdown)))
        · exact h3 j' hj' o' ho'

end Scan

theorem findSandwich_neighbours {p : ProverState K V H} {n : Int} {order : List Int} {k : K}
    (h : Listed p.data.cell n order)
    (sh : Shuffle) (hbot : hs.key k ≠ ⊥) (htop : hs.key k ≠ ⊤)
    (habs : ∀ i o, p.data.cell i = some o → o.hKey ≠ hs.key k) :
    ∃ im ip om op, p.findSandwich hs sh k = .ok (im, ip) ∧ p.data.cell im = some om ∧ p.data.cell ip = some op ∧
      om.hKey < hs.key k ∧ hs.key k < op.hKey ∧ om.next = ip ∧ op.prev = im := by
  obtain ⟨oh, h0, -, hb⟩ := h.head
  obtain ⟨ot, h1, -, ht⟩ := h.tail
  have hl : ∀ j ∈ sh.order p.data.keys, ∃ o, p.data.cell j = some o ∧ o.hKey ≠ hs.key k := fun j hj =>
    let ⟨o, ho⟩ := (Data.mem_shuffle sh).1 hj
    ⟨o, ho, habs j o ho⟩
  obtain ⟨im, ip, om, op, heq, hm, hp, hlo, hhi, -, -, hout⟩ :=
    findSandwichIn_spec hl h0 h1 (hb ▸ bot_lt_iff_ne_bot.2 hbot) (ht ▸ lt_top_iff_ne_top.2 htop)
  rw [hb, ht] at heq
  -- the successor of `im` is not below the key, hence not below `ip`, and `ip` is not below it
  obtain ⟨l₁, l₂, horder⟩ := h.spine.split_next hm (h.ne_tail hm hlo)
  have hs' := h.spine
  rw [horder] at hs'
  obtain ⟨om', on, hm', hn, -, hprev, hlt⟩ := hs'.linked
  cases some_inj.1 (hm.symm.trans hm')
  have hle : op.hKey ≤ on.hKey := (hout om.next ((Data.mem_shuffle sh).2 ⟨on, hn⟩) on hn).resolve_left (not_le.2 hlt)
  have hge : on.hKey ≤ op.hKey := not_lt.1 fun hlt' => hs'.gap hm hn hp (hlo.trans hhi) hlt'
  have hip : om.next = ip := h.spine.key_inj hn hp (le_antisymm hge hle)
  refine ⟨im, ip, om, op, heq, hm, hp, hlo, hhi, hip, ?_⟩
  rw [LeafOpening.links_next, hip, hp] at hn
  rw [some_inj.1 hn]
  exact hprev

namespace Stores

variable {p : ProverState K V H} {A : Contents H} {o : LeafOpening H} {k : K}

section

variable (h : Stores hs p A.cell)

include h

variable (sh : Shuffle)

theorem mem_shuffle : i ∈ sh.order p.data.keys ↔ ∃ o, A.cell i = some o := by
  rw [(sh.perm _).mem_iff, h.mem_keys]

theorem findKey_absent (habs : ∀ i o, A.cell i = some o → o.hKey ≠ hs.key k) :
    p.findKey hs sh k = .ok none := by
  refine findKeyIn_eq_none fun j hj => ?_
  obtain ⟨o, ho⟩ := (h.mem_shuffle sh).1 hj
  obtain ⟨t, ht, rfl⟩ := h.exists_tuple ho
  exact ⟨t, ht, habs j _ ho⟩

theorem findKey_present (hi : A.cell i = some o) (hk : o.hKey = hs.key k) :
    p.findKey hs sh k = .ok (some i) := by
  refine findKeyIn_eq_some (fun j hj => ?_) ((h.mem_shuffle sh).2 ⟨o, hi⟩)
  obtain ⟨o', ho'⟩ := (h.mem_shuffle sh).1 hj
  obtain ⟨t, ht, rfl⟩ := h.exists_tuple ho'
  refine ⟨t, ht, fun hkey => Contents.hKey_inj ho' hi (hkey.trans hk.symm), ?_⟩
  rintro rfl
  rw [some_inj.1 (ho'.symm.trans hi), hk]

theorem findSandwich_spec (hbot : hs.key k ≠ ⊥) (htop : hs.key k ≠ ⊤)
    (habs : ∀ i o, A.cell i = some o → o.hKey ≠ hs.key k) :
    ∃ im ip om op, p.findSandwich hs sh k = .ok (im, ip) ∧ A.cell im = some om ∧ A.cell ip = some op ∧
      om.hKey < hs.key k ∧ hs.key k < op.hKey ∧ om.next = ip ∧ op.prev = im := by
  have hl := A.wf.listed
  rw [← h.cell_data] at hl habs ⊢
  exact findSandwich_neighbours hl sh hbot htop habs

end

end Stores

end Lineth.Accumulator
