import Lineth.Accumulator.Run

/-!
# The invariant of the accumulator

Whatever the hash functions are, an operation that returns leaves the entries linked in strictly increasing order of
their key hashes, and the leaves of the tree equal to the hashes of the openings. A key whose hash is that of a
sentinel can be neither inserted nor deleted. A position that was freed stays free. -/

namespace Lineth.Accumulator

open Function (update update_of_ne)
open Smt (defaultDepth)
open LinkedList Except List Option ProverState Data

variable {K V H : Type} [LinearOrder H] [BoundedOrder H] {hs : Hashes K V H}

/-! ### What a call that returns did -/

section Inversion

variable {data : Data K V H} {hkey : H} {l : List Int} {i : Int}

omit [LinearOrder H] [BoundedOrder H] in
theorem lookup_of_mustGet {t : KVOpeningTuple K V H} (h : data.mustGet i = .ok t) : data.lookup i = some t := by
  unfold mustGet at h
  cases hl : data.lookup i with
  | none => rw [hl] at h; cases h
  | some t' => rw [hl] at h; cases h; rfl

omit [BoundedOrder H] in
theorem findKeyIn_ok_none (h : findKeyIn data hkey l = .ok none) :
    ∀ j ∈ l, ∀ o, data.cell j = some o → o.hKey ≠ hkey := by
  induction l with
  | nil => intro j hj; exact absurd hj not_mem_nil
  | cons i l ih =>
    obtain ⟨t, ht, hrest⟩ := bind_eq_ok.1 h
    have hi := cell_eq (lookup_of_mustGet ht)
    by_cases hk : hkey = t.leafOpening.hKey
    · rw [if_pos hk] at hrest; cases hrest
    rw [if_neg hk] at hrest
    intro j hj o ho
    rcases mem_cons.1 hj with rfl | hj
    · cases some_inj.1 (hi.symm.trans ho)
      exact Ne.symm hk
    · exact ih hrest j hj o ho

omit [BoundedOrder H] in
theorem findKey_ok_none {p : ProverState K V H} {sh : Shuffle} {k : K} (h : p.findKey hs sh k = .ok none) :
    ∀ j o, p.data.cell j = some o → o.hKey ≠ hs.key k := fun j o ho =>
  findKeyIn_ok_none h j ((mem_shuffle sh).2 ⟨o, ho⟩) o ho

theorem liftTree_eq_ok {α : Type} {x : Except Smt.Panic α} {a : α} : liftTree x = .ok a ↔ x = .ok a := by
  cases x <;> simp [liftTree]

variable {p p' : ProverState K V H} {proof : Smt.Proof H} {t : KVOpeningTuple K V H}

theorem upsertTuple_ok (h : p.upsertTuple hs i t = .ok (proof, p')) :
    (∃ tree, p.tree.update hs.node i (hs.leaf t.leafOpening) = .ok tree ∧
      p' = { p with data := p.data.insert i t, tree := tree }) ∧
    ∀ o, p.data.cell i = some o → numChanges o t.leafOpening = 1 := by
  cases hleaf : t.checkAndLeaf hs with
  | error e => rw [ProverState.upsertTuple, hleaf] at h; cases h
  | ok leaf =>
    obtain ⟨-, rfl⟩ := KVOpeningTuple.checkAndLeaf_eq_ok.1 hleaf
    -- both branches on the old entry end in the same writes
    have writes : (do
        let tree ← liftTree (p.tree.update hs.node i (hs.leaf t.leafOpening))
        let proof ← liftTree (tree.prove i)
        return (proof, { p with data := p.data.insert i t, tree := tree })) =
          (.ok (proof, p') : Except Panic (Smt.Proof H × ProverState K V H)) →
        ∃ tree, p.tree.update hs.node i (hs.leaf t.leafOpening) = .ok tree ∧
          p' = { p with data := p.data.insert i t, tree := tree } := by
      intro h
      obtain ⟨tree, htree, h⟩ := bind_eq_ok.1 h
      obtain ⟨proof', -, h⟩ := bind_eq_ok.1 h
      cases h
      exact ⟨tree, liftTree_eq_ok.1 htree, rfl⟩
    cases hl : p.data.lookup i with
    | none =>
      simp only [ProverState.upsertTuple, hleaf, hl] at h
      refine ⟨writes h, fun o ho => ?_⟩
      rw [cell, hl] at ho
      cases ho
    | some old =>
      simp only [ProverState.upsertTuple, hleaf, hl] at h
      obtain ⟨u, hold, h⟩ := bind_eq_ok.1 h
      refine ⟨writes h, fun o ho => ?_⟩
      cases some_inj.1 ((cell_eq hl).symm.trans ho)
      unfold checkOld at hold
      cases hc : old.checkAndLeaf hs with
      | error e => rw [hc] at hold; cases hold
      | ok _ =>
        rw [hc] at hold
        simp only [throw_eq_error, ite_error_eq_ok, not_not] at hold
        exact hold.2.1

theorem rmTuple_ok (h : p.rmTuple hs i = .ok (proof, p')) :
    ∃ tree, p.tree.update hs.node i Smt.emptyLeaf = .ok tree ∧
      p' = { p with data := p.data.erase i, tree := tree } := by
  by_cases hmem : i ∉ p.data
  · rw [ProverState.rmTuple, if_pos hmem] at h; cases h
  rw [ProverState.rmTuple, if_neg hmem] at h
  obtain ⟨tree, htree, h⟩ := bind_eq_ok.1 h
  obtain ⟨proof', -, h⟩ := bind_eq_ok.1 h
  cases h
  exact ⟨tree, liftTree_eq_ok.1 htree, rfl⟩

end Inversion

/-! ### The leaves follow the entries -/

/-- Every leaf of the tree is the hash of the opening stored at its position. -/
structure LeavesMatch (hs : Hashes K V H) (p : ProverState K V H) : Prop where
  tree : p.tree.HasLeaves hs.node (leafAt hs p.data.cell)
  depth : p.tree.depth = defaultDepth

namespace LeavesMatch

variable {p p' : ProverState K V H} {i : Int} {proof : Smt.Proof H} {t : KVOpeningTuple K V H}

section

variable (h : LeavesMatch hs p)

include h

theorem write {data : Data K V H} {tree : Smt.Tree H} {o : Option (LeafOpening H)}
    (hu : p.tree.update hs.node i (leafOf hs o) = .ok tree) (hdata : data.cell = update p.data.cell i o) (n : Int) :
    InTree i ∧ LeavesMatch hs { p with data := data, tree := tree, nextFreeNode := n } := by
  obtain ⟨m, rfl, hm, hd, hl⟩ := h.tree.update_ok hu
  rw [h.depth] at hm hd
  rw [← leafAt_update, ← hdata] at hl
  exact ⟨⟨by omega, by exact_mod_cast hm⟩, hl, hd⟩

theorem upsertTuple (hok : p.upsertTuple hs i t = .ok (proof, p')) :
    InTree i ∧ LeavesMatch hs p' ∧ p'.nextFreeNode = p.nextFreeNode ∧
      p'.data.cell = update p.data.cell i (some t.leafOpening) := by
  obtain ⟨⟨tree, hu, rfl⟩, -⟩ := upsertTuple_ok hok
  have hdata := cell_insert p.data i t
  obtain ⟨hi, hl⟩ := h.write (o := some t.leafOpening) hu hdata p.nextFreeNode
  exact ⟨hi, hl, rfl, hdata⟩

theorem rmTuple (hok : p.rmTuple hs i = .ok (proof, p')) :
    LeavesMatch hs p' ∧ p'.nextFreeNode = p.nextFreeNode ∧ p'.data.cell = update p.data.cell i none := by
  obtain ⟨tree, hu, rfl⟩ := rmTuple_ok hok
  have hdata := cell_erase p.data i
  exact ⟨(h.write (o := none) hu hdata p.nextFreeNode).2, rfl, hdata⟩

theorem getLeaf_eq (hi : InTree i) : p.tree.getLeaf i = .ok (leafOf hs (p.data.cell i)) := by
  obtain ⟨n, rfl, hn⟩ := hi.exists_nat
  exact h.tree.getLeaf_eq (by rw [h.depth]; exact hn)

end

end LeavesMatch

/-! ### One operation -/

structure Invariant (hs : Hashes K V H) (p : ProverState K V H) : Prop extends LeavesMatch hs p where
  listed : ∃ order, Listed p.data.cell p.nextFreeNode order

/-- What an operation does to the positions: `n` new ones are taken, from `nextFreeNode` on. -/
structure Extends (p p' : ProverState K V H) (n : Nat) : Prop where
  nextFreeNode : p'.nextFreeNode = p.nextFreeNode + n
  freed : ∀ i, i < p.nextFreeNode → p.data.cell i = none → p'.data.cell i = none

namespace Extends

variable {p p' p'' : ProverState K V H} {m n : Nat}

omit [LinearOrder H] [BoundedOrder H]

theorem refl (p : ProverState K V H) : Extends p p 0 := ⟨(add_zero _).symm, fun _ _ h => h⟩

theorem trans (h : Extends p p' m) (h' : Extends p' p'' n) : Extends p p'' (m + n) := by
  have h1 := h.nextFreeNode
  refine ⟨by rw [h'.nextFreeNode, h1]; omega, fun i hi hc => ?_⟩
  exact h'.freed i (by omega) (h.freed i hi hc)

end Extends

namespace Invariant

variable {p p' : ProverState K V H}

theorem insertAndProve (h : Invariant hs p) {shFind shSandwich : Shuffle} {k : K} {v : V} {tr : InsertionTrace K V H}
    (hok : p.insertAndProve hs shFind shSandwich k v = .ok (tr, p')) : Invariant hs p' ∧ Extends p p' 1 := by
  obtain ⟨order, hl⟩ := h.listed
  obtain ⟨found, hfind, hok⟩ := bind_eq_ok.1 hok
  cases found with
  | some i => cases hok
  | none =>
  have habs := findKey_ok_none hfind
  -- the sentinels are stored, so the key is neither of theirs
  obtain ⟨oh, h0, -, hbot⟩ := hl.head
  obtain ⟨ot, h1, -, htop⟩ := hl.tail
  obtain ⟨im, ip, om, op, hsand, hm, hp, hlo, hhi, hnext, -⟩ :=
    findSandwich_neighbours hl shSandwich (hbot ▸ (habs 0 oh h0).symm) (htop ▸ (habs 1 ot h1).symm) habs
  obtain ⟨tm, htm, rfl⟩ := exists_tuple hm
  obtain ⟨tp, htp, rfl⟩ := exists_tuple hp
  simp only [isSome_none, Bool.false_eq_true, ↓reduceIte, pure_eq_ok, hsand, mustGet_eq htm,
    mustGet_eq htp, ok_bind] at hok
  obtain ⟨⟨π₁, p₁⟩, hup₁, hok⟩ := bind_eq_ok.1 hok
  obtain ⟨⟨π₂, p₂⟩, hup₂, hok⟩ := bind_eq_ok.1 hok
  obtain ⟨⟨π₃, p₃⟩, hup₃, hok⟩ := bind_eq_ok.1 hok
  obtain ⟨-, hl₁, hn₁, hc₁⟩ := h.upsertTuple hup₁
  obtain ⟨hfree, hl₂, hn₂, hc₂⟩ := hl₁.upsertTuple hup₂
  obtain ⟨-, hl₃, hn₃, hc₃⟩ := hl₂.upsertTuple hup₃
  cases hok
  have hn : p₃.nextFreeNode = p.nextFreeNode := by rw [hn₃, hn₂, hn₁]
  have hadd : addInt64 p₃.nextFreeNode 1 = p.nextFreeNode + 1 := by rw [hn]; exact addInt64_one hfree.1 hfree.2
  have hcell : p₃.data.cell = insertAt LeafOpening.links p.data.cell im p.nextFreeNode ip tm.leafOpening
      ⟨im, ip, hs.key k, hs.val v⟩ tp.leafOpening := by rw [hc₃, hc₂, hc₁]; rfl
  refine ⟨⟨⟨hl₃.tree, hl₃.depth⟩, ?_⟩, hadd, fun i hi hc => ?_⟩
  · show ∃ order', Listed p₃.data.cell (addInt64 p₃.nextFreeNode 1) order'
    rw [hadd, hcell]
    exact hl.insert hm hp hnext hlo hhi hfree.2 (hs.val v)
  · have hne : ∀ {j o}, p.data.cell j = some o → i ≠ j := by
      rintro j o hj rfl
      rw [hc] at hj; cases hj
    show p₃.data.cell i = none
    rw [hcell, insertAt, update_of_ne (hne hp), update_of_ne hi.ne, update_of_ne (hne hm), hc]

/-- The deleted key is not that of a sentinel: unlinking one rewrites a link to its own value. -/
theorem ne_sentinel {order : List Int} {i : Int} {o om : LeafOpening H} (hl : Listed p.data.cell p.nextFreeNode order)
    (hi : p.data.cell i = some o) (hm : p.data.cell o.prev = some om) (hchange : om.next ≠ o.next) : i ≠ 0 ∧ i ≠ 1 := by
  constructor
  · rintro rfl
    obtain ⟨oh, h0, hprev, -⟩ := hl.head
    cases some_inj.1 (h0.symm.trans hi)
    rw [hprev, hi] at hm
    exact hchange (by rw [some_inj.1 hm])
  · rintro rfl
    obtain ⟨ot, h1, hnext, -⟩ := hl.tail
    cases some_inj.1 (h1.symm.trans hi)
    obtain ⟨l₁, l₂, horder⟩ := hl.spine.split_prev hi (by decide)
    have hsp := hl.spine
    rw [horder] at hsp
    obtain ⟨om', -, hm', -, hnext', -⟩ := hsp.linked
    cases some_inj.1 (hm.symm.trans hm')
    exact hchange (hnext'.trans hnext.symm)

theorem deleteAndProve (h : Invariant hs p) {shFind : Shuffle} {k : K} {tr : DeletionTrace K V H}
    (hok : p.deleteAndProve hs shFind k = .ok (tr, p')) : Invariant hs p' ∧ Extends p p' 0 := by
  obtain ⟨order, hl⟩ := h.listed
  obtain ⟨found, hfind, hok⟩ := bind_eq_ok.1 hok
  cases found with
  | none => cases hok
  | some i =>
  obtain ⟨t, ht, hok⟩ := bind_eq_ok.1 hok
  obtain ⟨tm, htm, hok⟩ := bind_eq_ok.1 hok
  obtain ⟨tp, htp, hok⟩ := bind_eq_ok.1 hok
  obtain ⟨⟨π₁, p₁⟩, hup₁, hok⟩ := bind_eq_ok.1 hok
  obtain ⟨⟨π₂, p₂⟩, hrm, hok⟩ := bind_eq_ok.1 hok
  obtain ⟨⟨π₃, p₃⟩, hup₃, hok⟩ := bind_eq_ok.1 hok
  have hi := cell_eq (lookup_of_mustGet ht)
  have hm := cell_eq (lookup_of_mustGet htm)
  have hp := cell_eq (lookup_of_mustGet htp)
  obtain ⟨-, hl₁, hn₁, hc₁⟩ := h.upsertTuple hup₁
  obtain ⟨hl₂, hn₂, hc₂⟩ := hl₁.rmTuple hrm
  obtain ⟨-, hl₃, hn₃, hc₃⟩ := hl₂.upsertTuple hup₃
  cases hok
  have hn : p'.nextFreeNode = p.nextFreeNode := by rw [hn₃, hn₂, hn₁]
  have hcell : p'.data.cell = removeAt LeafOpening.links p.data.cell t.leafOpening.prev i t.leafOpening.next
      tm.leafOpening tp.leafOpening := by rw [hc₃, hc₂, hc₁]; rfl
  have hchange : tm.leafOpening.next ≠ t.leafOpening.next := by
    intro heq
    have hone := (upsertTuple_ok hup₁).2 _ hm
    simp [numChanges, KVOpeningTuple.copyWithNext, LeafOpening.copyWithNext, heq] at hone
  obtain ⟨hi0, hi1⟩ := ne_sentinel hl hi hm hchange
  obtain ⟨l₁, l₂, -, -, horder, -⟩ := hl.exists_neighbours hi hi0 hi1
  rw [horder] at hl
  refine ⟨⟨hl₃, ?_⟩, by rw [hn]; exact (add_zero _).symm, fun j hj hc => ?_⟩
  · rw [hcell, hn]
    exact ⟨_, hl.remove hi hi0 hi1 hm hp⟩
  · have hne : ∀ {j' o}, p.data.cell j' = some o → j ≠ j' := by
      rintro j' o hj' rfl
      rw [hc] at hj'; cases hj'
    rw [hcell, removeAt, update_of_ne (hne hp), update_of_ne (hne hi), update_of_ne (hne hm), hc]

theorem updateAndProve (h : Invariant hs p) {shFind : Shuffle} {k : K} {v : V} {tr : UpdateTrace K V H}
    (hok : p.updateAndProve hs shFind k v = .ok (tr, p')) : Invariant hs p' ∧ Extends p p' 0 := by
  obtain ⟨order, hl⟩ := h.listed
  obtain ⟨found, hfind, hok⟩ := bind_eq_ok.1 hok
  cases found with
  | none => cases hok
  | some i =>
  obtain ⟨t, ht, hok⟩ := bind_eq_ok.1 hok
  by_cases hkey : hs.key k ≠ hs.key t.key
  · rw [if_pos hkey] at hok; cases hok
  rw [if_neg hkey] at hok
  obtain ⟨tree, hu, hok⟩ := bind_eq_ok.1 hok
  obtain ⟨proof, -, hok⟩ := bind_eq_ok.1 hok
  have hi := cell_eq (lookup_of_mustGet ht)
  cases hok
  have hdata := cell_insert p.data i
    { t with value := v, leafOpening := { t.leafOpening with hVal := hs.val v } }
  refine ⟨⟨(h.write (o := some _) (liftTree_eq_ok.1 hu) hdata p.nextFreeNode).2, order, ?_⟩, (add_zero _).symm,
    fun j hj hc => ?_⟩
  · rw [hdata]
    exact hl.set hi (hs.val v)
  · have hne : j ≠ i := by
      rintro rfl
      rw [hc] at hi; cases hi
    rw [hdata, update_of_ne hne, hc]

theorem step (h : Invariant hs p) {op : Op K V} {tr : Trace K V H} (hok : p.step hs op = .ok (tr, p')) :
    Invariant hs p' ∧ Extends p p' (insertions [op]) := by
  cases op with
  | insert shFind shSandwich key val =>
    obtain ⟨⟨tr', p''⟩, hins, hok⟩ := bind_eq_ok.1 hok
    cases hok
    exact h.insertAndProve hins
  | update shFind key newVal =>
    obtain ⟨⟨tr', p''⟩, hupd, hok⟩ := bind_eq_ok.1 hok
    cases hok
    exact h.updateAndProve hupd
  | delete shFind key =>
    obtain ⟨⟨tr', p''⟩, hdel, hok⟩ := bind_eq_ok.1 hok
    cases hok
    exact h.deleteAndProve hdel
  | readNonZero shFind key =>
    obtain ⟨tr', -, hok⟩ := bind_eq_ok.1 hok
    cases hok
    exact ⟨h, .refl p⟩
  | readZero shFind shSandwich key =>
    obtain ⟨tr', -, hok⟩ := bind_eq_ok.1 hok
    cases hok
    exact ⟨h, .refl p⟩

/-! ### Runs -/

theorem run (h : Invariant hs p) {ops : List (Op K V)} {trs : List (Trace K V H)} (hok : p.run hs ops = .ok (trs, p')) :
    Invariant hs p' ∧ Extends p p' (insertions ops) := by
  induction ops generalizing p trs with
  | nil =>
    cases hok
    exact ⟨h, .refl _⟩
  | cons op ops ih =>
    obtain ⟨⟨tr, p₁⟩, hstep, hok⟩ := bind_eq_ok.1 hok
    obtain ⟨⟨trs₁, p₂⟩, hrun, hok⟩ := bind_eq_ok.1 hok
    cases hok
    obtain ⟨h₁, he₁⟩ := h.step hstep
    obtain ⟨h', he⟩ := ih h₁ hrun
    exact ⟨h', by rw [insertions_cons]; exact he₁.trans he⟩

theorem initial [Inhabited K] [Inhabited V] [Nontrivial H] {location : String}
    (hok : initializeProverState hs location = .ok p) : Invariant hs p ∧ p.nextFreeNode = 2 := by
  have h : LeavesMatch hs (⟨location, 2, Smt.newEmptyTree hs.node [], ∅⟩ : ProverState K V H) :=
    ⟨(stores_nothing hs location).tree.hasLeaves, Smt.newEmptyTree_depth⟩
  obtain ⟨tree₁, hu₁, hok'⟩ := bind_eq_ok.1 hok
  obtain ⟨tree₂, hu₂, -⟩ := bind_eq_ok.1 hok'
  rw [liftTree_eq_ok] at hu₁ hu₂
  cases (initializeProverState_eq hu₁ hu₂).symm.trans hok
  have hc₁ := cell_insert (∅ : Data K V H) 0 ⟨.head, default, default⟩
  have hc₂ := cell_insert (AList.insert 0 ⟨.head, default, default⟩ (∅ : Data K V H)) 1 ⟨.tail, default, default⟩
  have h₁ := (h.write (o := some .head) hu₁ hc₁ 2).2
  have h₂ := (h₁.write (o := some .tail) hu₂ hc₂ 2).2
  refine ⟨⟨h₂, [0, 1], ?_⟩, rfl⟩
  rw [hc₂, hc₁]
  exact (Contents.empty (H := H)).wf.listed

end Invariant

theorem run_append_ok {p p' p'' : ProverState K V H} {ops ops' : List (Op K V)} {trs trs' : List (Trace K V H)}
    (h : p.run hs ops = .ok (trs, p')) (h' : p.run hs (ops ++ ops') = .ok (trs', p'')) :
    ∃ trs'', p'.run hs ops' = .ok (trs'', p'') := by
  induction ops generalizing p trs trs' with
  | nil =>
    cases h
    exact ⟨trs', h'⟩
  | cons op ops ih =>
    obtain ⟨⟨tr, p₁⟩, hstep, h⟩ := bind_eq_ok.1 h
    obtain ⟨⟨trs₁, p₂⟩, hrun, h⟩ := bind_eq_ok.1 h
    cases h
    rw [cons_append, ProverState.run, hstep, ok_bind] at h'
    obtain ⟨⟨trs₂, p₃⟩, hrun', h'⟩ := bind_eq_ok.1 h'
    cases h'
    exact ih hrun hrun'

/-- Every run of operations that return: the entries form one sorted doubly linked list from the head to the tail, the
leaves are the hashes of the openings, everything from `nextFreeNode` on is free, and a position that was freed is
free for good. -/
theorem run_invariant [Inhabited K] [Inhabited V] [Nontrivial H] (hs : Hashes K V H) (location : String)
    (p₀ p : ProverState K V H) (ops : List (Op K V)) (trs : List (Trace K V H))
    (hinit : initializeProverState hs location = .ok p₀) (hrun : p₀.run hs ops = .ok (trs, p)) :
    (∃ order, Listed p.data.cell p.nextFreeNode order) ∧
    (∀ i, InTree i → p.tree.getLeaf i = .ok (leafOf hs (p.data.cell i))) ∧
    (∀ i, p.nextFreeNode ≤ i → p.data.cell i = none) ∧
    p.nextFreeNode = 2 + insertions ops ∧
    ∀ pre mid post trs₁ trs₂ p₁ p₂, ops = pre ++ mid ++ post → p₀.run hs pre = .ok (trs₁, p₁) →
      p₁.run hs mid = .ok (trs₂, p₂) → ∀ i, p₁.data.cell i ≠ none → p₂.data.cell i = none → p.data.cell i = none := by
  obtain ⟨h₀, hn₀⟩ := Invariant.initial hinit
  obtain ⟨h, he⟩ := h₀.run hrun
  obtain ⟨order, hl⟩ := h.listed
  refine ⟨⟨order, hl⟩, fun i hi => h.getLeaf_eq hi, fun i hi => hl.cell_free hi, by rw [he.nextFreeNode, hn₀], ?_⟩
  rintro pre mid post trs₁ trs₂ p₁ p₂ rfl hpre hmid i hocc hfree
  obtain ⟨h₁, -⟩ := h₀.run hpre
  obtain ⟨h₂, he₂⟩ := h₁.run hmid
  rw [append_assoc] at hrun
  obtain ⟨trs', hrest⟩ := run_append_ok hpre hrun
  obtain ⟨trs'', hpost⟩ := run_append_ok hmid hrest
  obtain ⟨order₁, hl₁⟩ := h₁.listed
  obtain ⟨o, ho⟩ := ne_none_iff_exists'.1 hocc
  -- it was handed out before `p₁`, so it is below the free positions of `p₂`
  have hlt : i < p₂.nextFreeNode := by
    have h1 := (hl₁.bound i o ho).2.1
    have h2 := he₂.nextFreeNode
    omega
  exact (h₂.run hpost).2.freed i hlt hfree

/-- Two insertions, a deletion of the first and a third insertion. -/
theorem run_invariant_nat :
    ∃ p₀ p trs, initializeProverState natHashes "" = .ok p₀ ∧
      p₀.run natHashes (insertAll [5, 3] 8 ++ [.delete ⟨reverse, reverse_perm⟩ 5] ++ insertAll [9] 1) =
        .ok (trs, p) ∧
      (∃ order, Listed p.data.cell p.nextFreeNode order) ∧ p.nextFreeNode = 5 := by
  obtain ⟨p₀, hinit, h₀⟩ := initializeProverState_spec natHashes_honest ""
  have hv : ValidRun (fun _ => none)
      (insertAll [5, 3] 8 ++ [.delete ⟨reverse, reverse_perm⟩ 5] ++ insertAll [9] 1) := by
    simp [insertAll, ValidRun, Op.Valid, Op.apply]
  obtain ⟨trs, p, A, hrun, -⟩ := h₀.run natHashes_honest hv (by decide)
  obtain ⟨hl, -, -, hn, -⟩ := run_invariant natHashes "" p₀ p _ trs hinit hrun
  exact ⟨p₀, p, trs, hinit, hrun, hl, hn⟩

end Lineth.Accumulator
