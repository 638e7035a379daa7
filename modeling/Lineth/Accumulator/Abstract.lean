import Lineth.Accumulator.Verifier

/-!
# What an accumulator contains

`Contents` is what a root commits to: the leaf openings by position, linked from the head at position `0` to the tail
at `1` in strictly increasing order of their key hashes. It represents the map `toMap`. The ways in which contents
evolve are stated once for prover and verifier: `exists_insert`, `exists_remove`, `exists_set`. -/

namespace Lineth.Accumulator

open Function (update update_of_ne update_self)
open LinkedList List Option LeafOpening

variable {K V H : Type} [LinearOrder H] [BoundedOrder H]

section

variable (cell : Int → Option (LeafOpening H)) (nextFreeNode : Int) (order : List Int)

structure WellFormed : Prop where
  spine : Spine links cell 0 1 order
  head : ∃ next, cell 0 = some (LeafOpening.head.copyWithNext next)
  tail : ∃ prev, cell 1 = some (LeafOpening.tail.copyWithPrev prev)
  bound : ∀ i o, cell i = some o → 0 ≤ i ∧ i < nextFreeNode ∧ i < 2 ^ Smt.defaultDepth

/-- What the links look like whatever the hash functions are: the occupied positions form one list from
the head to the tail, which keep the extreme keys and their outer links. -/
structure Listed : Prop where
  spine : Spine links cell 0 1 order
  head : ∃ o, cell 0 = some o ∧ o.prev = 0 ∧ o.hKey = ⊥
  tail : ∃ o, cell 1 = some o ∧ o.next = 1 ∧ o.hKey = ⊤
  bound : ∀ i o, cell i = some o → 0 ≤ i ∧ i < nextFreeNode ∧ i < 2 ^ Smt.defaultDepth

end

theorem WellFormed.listed {cell : Int → Option (LeafOpening H)} {nextFreeNode : Int} {order : List Int}
    (h : WellFormed cell nextFreeNode order) : Listed cell nextFreeNode order := by
  obtain ⟨next, h0⟩ := h.head
  obtain ⟨prev, h1⟩ := h.tail
  exact ⟨h.spine, ⟨_, h0, rfl, rfl⟩, ⟨_, h1, rfl, rfl⟩, h.bound⟩

namespace Listed

variable {cell : Int → Option (LeafOpening H)} {n i p q : Int} {order : List Int} {o cp cq : LeafOpening H} {k : H}

section

variable (h : Listed cell n order)

include h

theorem two_le : 2 ≤ n := by
  obtain ⟨o, h1, -, -⟩ := h.tail
  have := (h.bound 1 o h1).2.1
  omega

theorem cell_free (hi : n ≤ i) : cell i = none := by
  cases hc : cell i with
  | none => rfl
  | some o =>
    have := (h.bound i o hc).2.1
    omega

theorem ne_head (hi : cell i = some o) (hlt : k < o.hKey) : i ≠ 0 := by
  rintro rfl
  obtain ⟨o', h0, -, hbot⟩ := h.head
  cases some_inj.1 (h0.symm.trans hi)
  rw [hbot] at hlt
  exact not_lt_bot hlt

theorem ne_tail (hi : cell i = some o) (hlt : o.hKey < k) : i ≠ 1 := by
  rintro rfl
  obtain ⟨o', h1, -, htop⟩ := h.tail
  cases some_inj.1 (h1.symm.trans hi)
  rw [htop] at hlt
  exact not_top_lt hlt

/-- Linking a key in at the first free position, between two openings that enclose it. -/
theorem insert (hp : cell p = some cp) (hq : cell q = some cq) (hnext : cp.next = q)
    (hlo : cp.hKey < k) (hhi : k < cq.hKey) (hfree : n < 2 ^ Smt.defaultDepth) (x : H) :
    ∃ order', Listed (insertAt links cell p n q cp ⟨p, q, k, x⟩ cq) (n + 1) order' := by
  obtain ⟨oh, h0, hprev0, hbot⟩ := h.head
  obtain ⟨ot, h1, hnext1, htop⟩ := h.tail
  have hn := h.two_le
  have hp1 := h.ne_tail hp hlo
  have hq0 := h.ne_head hq hhi
  obtain ⟨l₁, l₂, horder⟩ := h.spine.split_next hp hp1
  have hs := h.spine
  rw [horder, links_next, hnext] at hs
  refine ⟨_, hs.insert hp hq (h.cell_free le_rfl) rfl rfl hlo hhi, ?_, ?_, fun i o hi => ?_⟩
  · by_cases hp0 : p = 0
    · subst hp0
      cases some_inj.1 (h0.symm.trans hp)
      exact ⟨cp.copyWithNext n, by simp [insertAt, hq0.symm, show (0 : Int) ≠ n by omega], hprev0, hbot⟩
    · exact ⟨oh, by simp [insertAt, hq0.symm, Ne.symm hp0, show (0 : Int) ≠ n by omega, h0], hprev0, hbot⟩
  · by_cases hq1 : q = 1
    · subst hq1
      cases some_inj.1 (h1.symm.trans hq)
      exact ⟨cq.copyWithPrev n, by simp [insertAt], hnext1, htop⟩
    · exact ⟨ot, by simp [insertAt, Ne.symm hq1, hp1.symm, show (1 : Int) ≠ n by omega, h1], hnext1, htop⟩
  · have old : ∀ c, cell i = some c → 0 ≤ i ∧ i < n + 1 ∧ i < 2 ^ Smt.defaultDepth := fun c hc => by
      have := h.bound i c hc
      omega
    by_cases hiq : i = q
    · subst hiq; exact old _ hq
    by_cases hin : i = n
    · omega
    by_cases hip : i = p
    · subst hip; exact old _ hp
    · exact old o (by simpa [insertAt, hip, hin, hiq] using hi)

theorem exists_neighbours (hi : cell i = some o) (hi0 : i ≠ 0) (hi1 : i ≠ 1) :
    ∃ l₁ l₂ cm cq, order = l₁ ++ o.prev :: i :: o.next :: l₂ ∧ cell o.prev = some cm ∧ cell o.next = some cq ∧
      cm.next = i ∧ cq.prev = i := by
  obtain ⟨l₁, l₂, horder⟩ := h.spine.split_around hi hi0 hi1
  have hs := h.spine
  rw [horder] at hs
  obtain ⟨cm, -, hm, -, hnext, -⟩ := hs.linked
  rw [append_cons] at hs
  obtain ⟨-, cq, -, hq, -, hprev, -⟩ := hs.linked
  exact ⟨l₁, l₂, cm, cq, horder, hm, hq, hnext, hprev⟩

end

theorem remove {l₁ l₂ : List Int} (h : Listed cell n (l₁ ++ o.prev :: i :: o.next :: l₂)) (hi : cell i = some o)
    (hi0 : i ≠ 0) (hi1 : i ≠ 1) (hm : cell o.prev = some cp) (hq : cell o.next = some cq) :
    Listed (removeAt links cell o.prev i o.next cp cq) n (l₁ ++ o.prev :: o.next :: l₂) := by
  obtain ⟨oh, h0, hprev0, hbot⟩ := h.head
  obtain ⟨ot, h1, hnext1, htop⟩ := h.tail
  obtain ⟨ca, ci, hca, hci, -, -, hlt⟩ := h.spine.linked
  have hs := h.spine
  rw [append_cons] at hs
  obtain ⟨cb, cc, hcb, hcc, -, -, hlt'⟩ := hs.linked
  -- the head has no predecessor and the tail no successor
  have hm1 := h.ne_tail hca hlt
  have hq0 := h.ne_head hcc hlt'
  refine ⟨h.spine.remove hm hq, ?_, ?_, fun j c hj => ?_⟩
  · by_cases hm0 : o.prev = 0
    · rw [hm0] at hm ⊢
      cases some_inj.1 (h0.symm.trans hm)
      exact ⟨cp.copyWithNext o.next, by simp [removeAt, hq0.symm, hi0.symm], hprev0, hbot⟩
    · exact ⟨oh, by simp [removeAt, hq0.symm, hi0.symm, Ne.symm hm0, h0], hprev0, hbot⟩
  · by_cases hq1 : o.next = 1
    · rw [hq1] at hq ⊢
      cases some_inj.1 (h1.symm.trans hq)
      exact ⟨cq.copyWithPrev o.prev, by simp [removeAt], hnext1, htop⟩
    · exact ⟨ot, by simp [removeAt, hm1.symm, hi1.symm, Ne.symm hq1, h1], hnext1, htop⟩
  · by_cases hjq : j = o.next
    · subst hjq; exact h.bound _ _ hq
    by_cases hji : j = i
    · subst hji; exact h.bound _ _ hi
    by_cases hjm : j = o.prev
    · subst hjm; exact h.bound _ _ hm
    · exact h.bound j c (by simpa [removeAt, hjq, hji, hjm] using hj)

theorem set (h : Listed cell n order) (hi : cell i = some o) (x : H) :
    Listed (update cell i (some { o with hVal := x })) n order := by
  obtain ⟨oh, h0, hprev0, hbot⟩ := h.head
  obtain ⟨ot, h1, hnext1, htop⟩ := h.tail
  refine ⟨h.spine.set hi rfl rfl rfl, ?_, ?_, fun j c hj => ?_⟩
  · by_cases hi0 : i = 0
    · subst hi0
      cases some_inj.1 (h0.symm.trans hi)
      exact ⟨_, update_self .., hprev0, hbot⟩
    · exact ⟨oh, by rw [update_of_ne (Ne.symm hi0)]; exact h0, hprev0, hbot⟩
  · by_cases hi1 : i = 1
    · subst hi1
      cases some_inj.1 (h1.symm.trans hi)
      exact ⟨_, update_self .., hnext1, htop⟩
    · exact ⟨ot, by rw [update_of_ne (Ne.symm hi1)]; exact h1, hnext1, htop⟩
  · by_cases hji : j = i
    · subst hji; exact h.bound _ _ hi
    · rw [update_of_ne hji] at hj; exact h.bound j c hj

end Listed

structure Contents (H : Type) [LinearOrder H] [BoundedOrder H] where
  cell : Int → Option (LeafOpening H)
  nextFreeNode : Int
  order : List Int
  wf : WellFormed cell nextFreeNode order

def leafOf (hs : Hashes K V H) : Option (LeafOpening H) → H
  | some o => hs.leaf o
  | none => Smt.emptyLeaf

def leafAt (hs : Hashes K V H) (cell : Int → Option (LeafOpening H)) (n : Nat) : H := leafOf hs (cell n)

theorem leafAt_update (hs : Hashes K V H) (cell : Int → Option (LeafOpening H)) (n : Nat) (o : Option (LeafOpening H)) :
    leafAt hs (update cell n o) = update (leafAt hs cell) n (leafOf hs o) := by
  funext m
  by_cases hm : m = n
  · subst hm; simp only [leafAt, update_self]
  · have : (m : Int) ≠ n := by exact_mod_cast hm
    simp only [leafAt, update_of_ne this, update_of_ne hm]

@[irreducible] def rootOf (hs : Hashes K V H) (cell : Int → Option (LeafOpening H)) : H :=
  Merkle.nodeAt hs.node (leafAt hs cell) Smt.defaultDepth 0

namespace Contents

def toMap (A : Contents H) (k : H) : Option H :=
  ((A.order.filterMap A.cell).find? fun o => !o.headOrTail && o.hKey = k).map LeafOpening.hVal

def empty [Nontrivial H] : Contents H where
  cell := update (update (fun _ => none) 0 (some .head)) 1 (some .tail)
  nextFreeNode := 2
  order := [0, 1]
  wf := by
    refine ⟨⟨rfl, rfl, ?_, fun i => ?_⟩, ⟨1, rfl⟩, ⟨0, rfl⟩, fun i o hi => ?_⟩
    · exact isChain_pair.2 ⟨.head, .tail, rfl, rfl, rfl, rfl, bot_lt_top⟩
    · by_cases h1 : i = 1
      · subst h1; simp
      by_cases h0 : i = 0
      · subst h0; simp
      simp [h0, h1]
    · by_cases h1 : i = 1
      · subst h1; decide
      by_cases h0 : i = 0
      · subst h0; decide
      simp [h0, h1] at hi

variable {A : Contents H} {i j : Int} {o : LeafOpening H} {k x : H}

theorem hKey_inj {o' : LeafOpening H} (hi : A.cell i = some o) (hj : A.cell j = some o')
    (hk : o.hKey = o'.hKey) : i = j :=
  A.wf.spine.key_inj hi hj hk

theorem headOrTail_eq_false_iff (hi : A.cell i = some o) : o.headOrTail = false ↔ i ≠ 0 ∧ i ≠ 1 := by
  obtain ⟨next, h0⟩ := A.wf.head
  obtain ⟨prev, h1⟩ := A.wf.tail
  rw [headOrTail_eq_false]
  constructor
  · rintro ⟨hb, ht⟩
    refine ⟨?_, ?_⟩ <;> rintro rfl
    · cases some_inj.1 (h0.symm.trans hi); exact hb rfl
    · cases some_inj.1 (h1.symm.trans hi); exact ht rfl
  · rintro ⟨hb, ht⟩
    exact ⟨fun h => hb (hKey_inj hi h0 h), fun h => ht (hKey_inj hi h1 h)⟩

theorem mem_entries : o ∈ A.order.filterMap A.cell ↔ ∃ i, A.cell i = some o := by
  rw [mem_filterMap]
  exact ⟨fun ⟨i, _, hi⟩ => ⟨i, hi⟩, fun ⟨i, hi⟩ => ⟨i, (A.wf.spine.occupied i).2 ⟨o, hi⟩, hi⟩⟩

theorem toMap_eq_some : A.toMap k = some x ↔ ∃ i o, A.cell i = some o ∧ o.headOrTail = false ∧
    o.hKey = k ∧ o.hVal = x := by
  rw [toMap, map_eq_some_iff]
  constructor
  · rintro ⟨o, hfind, rfl⟩
    obtain ⟨i, hi⟩ := mem_entries.1 (mem_of_find?_eq_some hfind)
    have := find?_some hfind
    simp only [Bool.and_eq_true, Bool.not_eq_eq_eq_not, Bool.not_true, decide_eq_true_eq] at this
    exact ⟨i, o, hi, this.1, this.2, rfl⟩
  · rintro ⟨i, o, hi, hint, rfl, rfl⟩
    cases hfind : (A.order.filterMap A.cell).find? fun o' => !o'.headOrTail && o'.hKey = o.hKey with
    | none => simpa [hint] using find?_eq_none.1 hfind o (mem_entries.2 ⟨i, hi⟩)
    | some o' =>
      obtain ⟨j, hj⟩ := mem_entries.1 (mem_of_find?_eq_some hfind)
      have := find?_some hfind
      simp only [Bool.and_eq_true, Bool.not_eq_eq_eq_not, Bool.not_true, decide_eq_true_eq] at this
      obtain rfl := hKey_inj hj hi this.2
      exact ⟨o', rfl, by rw [some_inj.1 (hj.symm.trans hi)]⟩

theorem toMap_eq_none : A.toMap k = none ↔ ∀ i o, A.cell i = some o → o.headOrTail = false → o.hKey ≠ k := by
  rw [eq_none_iff_forall_ne_some]
  constructor
  · intro h i o hi hint hk
    exact h o.hVal (toMap_eq_some.2 ⟨i, o, hi, hint, hk, rfl⟩)
  · intro h x hx
    obtain ⟨i, o, hi, hint, hk, -⟩ := toMap_eq_some.1 hx
    exact h i o hi hint hk

/-- Between two openings that point at each other no key is present. -/
theorem toMap_eq_none_of_between {p q : Int} {cp cq : LeafOpening H} (hp : A.cell p = some cp) (hq : A.cell q = some cq)
    (hnext : cp.next = q) (hlo : cp.hKey < k) (hhi : k < cq.hKey) : A.toMap k = none := by
  have hp1 : p ≠ 1 := by
    rintro rfl
    obtain ⟨prev, h1⟩ := A.wf.tail
    cases some_inj.1 (h1.symm.trans hp)
    exact not_top_lt hlo
  obtain ⟨l₁, l₂, horder⟩ := A.wf.spine.split_next hp hp1
  have hs := A.wf.spine
  rw [horder, links_next, hnext] at hs
  rw [toMap_eq_none]
  rintro i o hi - rfl
  exact hs.gap hp hq hi hlo hhi

/-! ### Changing the contents -/

theorem nextFreeNode_pos (A : Contents H) : 2 ≤ A.nextFreeNode := A.wf.listed.two_le

theorem cell_nextFreeNode (A : Contents H) : A.cell A.nextFreeNode = none := A.wf.listed.cell_free le_rfl

def payload (A : Contents H) (i : Int) : Option (H × H) := (A.cell i).map fun o => (o.hKey, o.hVal)

theorem toMap_eq_some_payload : A.toMap k = some x ↔ (k ≠ ⊥ ∧ k ≠ ⊤) ∧ ∃ i, A.payload i = some (k, x) := by
  rw [toMap_eq_some]
  constructor
  · rintro ⟨i, o, hi, hint, rfl, rfl⟩
    exact ⟨headOrTail_eq_false.1 hint, i, by rw [payload, hi]; rfl⟩
  · rintro ⟨hk, i, hi⟩
    obtain ⟨o, ho, he⟩ := map_eq_some_iff.1 hi
    cases he
    exact ⟨i, o, ho, headOrTail_eq_false.2 hk, rfl, rfl⟩

/-- Rewriting the payload of one position, under the key `k`, is updating the map at `k`. -/
theorem toMap_update {A A' : Contents H} {y : Option H} (hk : k ≠ ⊥ ∧ k ≠ ⊤)
    (hpay : A'.payload = update A.payload i (y.map fun x => (k, x)))
    (hat : ∀ k' x, A.payload i = some (k', x) → k' = k) (honly : ∀ j x, A.payload j = some (k, x) → j = i) :
    A'.toMap = update A.toMap k y := by
  funext k'
  refine ext fun x => ?_
  by_cases hkk : k' = k
  · subst hkk
    rw [update_self, toMap_eq_some_payload, hpay]
    constructor
    · rintro ⟨-, j, hj⟩
      by_cases hji : j = i
      · subst hji
        rw [update_self] at hj
        obtain ⟨z, rfl, hz⟩ := map_eq_some_iff.1 hj
        cases hz; rfl
      · rw [update_of_ne hji] at hj
        exact absurd (honly j x hj) hji
    · rintro rfl
      exact ⟨hk, i, by rw [update_self]; rfl⟩
  · rw [update_of_ne hkk, toMap_eq_some_payload, toMap_eq_some_payload, hpay]
    refine and_congr_right fun _ => exists_congr fun j => ?_
    by_cases hji : j = i
    · subst hji
      rw [update_self]
      constructor
      · intro h
        obtain ⟨z, -, hz⟩ := map_eq_some_iff.1 h
        cases hz; exact absurd rfl hkk
      · intro h; exact absurd (hat k' x h) hkk
    · rw [update_of_ne hji]

theorem payload_eq {i : Int} (hi : A.cell i = some o) : A.payload i = some (o.hKey, o.hVal) := by rw [payload, hi]; rfl

theorem payload_unique {y : H} (hi : A.payload i = some (k, x)) (hj : A.payload j = some (k, y)) : j = i := by
  obtain ⟨o, ho, he⟩ := map_eq_some_iff.1 hi
  obtain ⟨o', ho', he'⟩ := map_eq_some_iff.1 hj
  cases he
  exact hKey_inj ho' ho (congrArg Prod.fst he')

section Insert

variable {p q : Int} {cp cq : LeafOpening H}

section

variable (hp : A.cell p = some cp) (hq : A.cell q = some cq) (hnext : cp.next = q) (hlo : cp.hKey < k)
  (hhi : k < cq.hKey) (hfree : A.nextFreeNode < 2 ^ Smt.defaultDepth) (x : H)

include hp hq hnext hlo hhi hfree

theorem insert_wf :
    ∃ order, WellFormed (insertAt links A.cell p A.nextFreeNode q cp ⟨p, q, k, x⟩ cq)
      (A.nextFreeNode + 1) order := by
  obtain ⟨next, h0⟩ := A.wf.head
  obtain ⟨prev, h1⟩ := A.wf.tail
  have hn := A.nextFreeNode_pos
  have hp1 := A.wf.listed.ne_tail hp hlo
  have hq0 := A.wf.listed.ne_head hq hhi
  obtain ⟨order, hl⟩ := A.wf.listed.insert hp hq hnext hlo hhi hfree x
  refine ⟨order, hl.spine, ?_, ?_, hl.bound⟩
  · by_cases h : p = 0
    · subst h
      cases some_inj.1 (h0.symm.trans hp)
      exact ⟨A.nextFreeNode, by simp [insertAt, hq0.symm, show (0 : Int) ≠ A.nextFreeNode by omega]; rfl⟩
    · exact ⟨next, by simp [insertAt, hq0.symm, Ne.symm h, show (0 : Int) ≠ A.nextFreeNode by omega, h0]⟩
  · by_cases h : q = 1
    · subst h
      cases some_inj.1 (h1.symm.trans hq)
      exact ⟨A.nextFreeNode, by simp [insertAt]; rfl⟩
    · exact ⟨prev, by simp [insertAt, Ne.symm h, hp1.symm, show (1 : Int) ≠ A.nextFreeNode by omega, h1]⟩

theorem exists_insert :
    ∃ A' : Contents H, A'.cell = insertAt links A.cell p A.nextFreeNode q cp ⟨p, q, k, x⟩ cq ∧
      A'.nextFreeNode = A.nextFreeNode + 1 ∧ A'.toMap = update A.toMap k (some x) := by
  obtain ⟨order, hwf⟩ := insert_wf hp hq hnext hlo hhi hfree x
  refine ⟨⟨_, _, order, hwf⟩, rfl, rfl, ?_⟩
  have habs := toMap_eq_none.1 (toMap_eq_none_of_between hp hq hnext hlo hhi)
  have hk : k ≠ ⊥ ∧ k ≠ ⊤ := ⟨(bot_le.trans_lt hlo).ne', (hhi.trans_le le_top).ne⟩
  refine toMap_update (i := A.nextFreeNode) hk ?_ ?_ ?_
  · funext i
    show Option.map _ (insertAt _ _ _ _ _ _ _ _ i) = _
    have hqn : q ≠ A.nextFreeNode := by rintro rfl; simp [A.cell_nextFreeNode] at hq
    have hpq : p ≠ q := by
      rintro rfl
      cases some_inj.1 (hp.symm.trans hq)
      exact lt_irrefl _ (hlo.trans hhi)
    by_cases hiq : i = q
    · subst hiq; simp [insertAt, hqn, payload, hq, copyWithPrev]
    by_cases hin : i = A.nextFreeNode
    · subst hin; simp [insertAt, hqn.symm]
    by_cases hip : i = p
    · subst hip; simp [insertAt, hiq, hin, payload, hp, copyWithNext]
    · simp [insertAt, hip, hin, hiq, payload]
  · intro k' x h
    simp [payload, A.cell_nextFreeNode] at h
  · intro j x h
    obtain ⟨o, ho, he⟩ := map_eq_some_iff.1 h
    cases he
    exact absurd rfl (habs j o ho (headOrTail_eq_false.2 hk))

end

end Insert

section Remove

theorem exists_neighbours (hi : A.cell i = some o) (hint : o.headOrTail = false) :
    ∃ l₁ l₂ cm cq, A.order = l₁ ++ o.prev :: i :: o.next :: l₂ ∧ A.cell o.prev = some cm ∧ A.cell o.next = some cq ∧
      cm.next = i ∧ cq.prev = i := by
  obtain ⟨h0, h1⟩ := (headOrTail_eq_false_iff hi).1 hint
  exact A.wf.listed.exists_neighbours hi h0 h1

variable {cm cq : LeafOpening H}

theorem remove_wf {l₁ l₂ : List Int} (horder : A.order = l₁ ++ o.prev :: i :: o.next :: l₂) (hi : A.cell i = some o)
    (hint : o.headOrTail = false) (hm : A.cell o.prev = some cm) (hq : A.cell o.next = some cq) :
    WellFormed (removeAt links A.cell o.prev i o.next cm cq) A.nextFreeNode (l₁ ++ o.prev :: o.next :: l₂) := by
  obtain ⟨next, h0⟩ := A.wf.head
  obtain ⟨prev, h1⟩ := A.wf.tail
  obtain ⟨hi0, hi1⟩ := (headOrTail_eq_false_iff hi).1 hint
  have hl := A.wf.listed
  rw [horder] at hl
  obtain ⟨ca, ci, hca, hci, -, -, hlt⟩ := hl.spine.linked
  have hs := hl.spine
  rw [append_cons] at hs
  obtain ⟨cb, cc, hcb, hcc, -, -, hlt'⟩ := hs.linked
  have hm1 := hl.ne_tail hca hlt
  have hq0 := hl.ne_head hcc hlt'
  have hl' := hl.remove hi hi0 hi1 hm hq
  refine ⟨hl'.spine, ?_, ?_, hl'.bound⟩
  · by_cases h : o.prev = 0
    · rw [h] at hm ⊢
      cases some_inj.1 (h0.symm.trans hm)
      exact ⟨o.next, by simp [removeAt, hq0.symm, hi0.symm]; rfl⟩
    · exact ⟨next, by simp [removeAt, hq0.symm, hi0.symm, Ne.symm h, h0]⟩
  · by_cases h : o.next = 1
    · rw [h] at hq ⊢
      cases some_inj.1 (h1.symm.trans hq)
      exact ⟨o.prev, by simp [removeAt]; rfl⟩
    · exact ⟨prev, by simp [removeAt, hm1.symm, hi1.symm, Ne.symm h, h1]⟩

theorem exists_remove (hi : A.cell i = some o) (hint : o.headOrTail = false) (hm : A.cell o.prev = some cm)
    (hq : A.cell o.next = some cq) :
    ∃ A' : Contents H, A'.cell = removeAt links A.cell o.prev i o.next cm cq ∧
      A'.nextFreeNode = A.nextFreeNode ∧ A'.toMap = update A.toMap o.hKey none := by
  obtain ⟨l₁, l₂, -, -, horder, -⟩ := exists_neighbours hi hint
  refine ⟨⟨_, _, _, remove_wf horder hi hint hm hq⟩, rfl, rfl, ?_⟩
  have hs := A.wf.spine
  rw [horder] at hs
  have hnd := hs.nodup
  have hmq : o.prev ≠ o.next := by intro h; simp [h, nodup_append] at hnd
  have hmi : o.prev ≠ i := by intro h; simp [h, nodup_append] at hnd
  have hiq : i ≠ o.next := by intro h; simp [h, nodup_append] at hnd
  refine toMap_update (i := i) (headOrTail_eq_false.1 hint) ?_ ?_ fun j x hj => ?_
  · funext j
    show Option.map _ (removeAt _ _ _ _ _ _ _ j) = _
    by_cases hjq : j = o.next
    · subst hjq; simp [removeAt, hiq.symm, payload, hq, copyWithPrev]
    by_cases hji : j = i
    · subst hji; simp [removeAt, hiq]
    by_cases hjm : j = o.prev
    · subst hjm; simp [removeAt, hmq, hmi, payload, hm, copyWithNext]
    · simp [removeAt, hjq, hji, hjm, payload]
  · intro k' x h
    rw [payload_eq hi] at h
    cases h; rfl
  · exact payload_unique (payload_eq hi) hj

end Remove

theorem exists_set (hi : A.cell i = some o) (hint : o.headOrTail = false) (x : H) :
    ∃ A' : Contents H, A'.cell = update A.cell i (some { o with hVal := x }) ∧
      A'.nextFreeNode = A.nextFreeNode ∧ A'.toMap = update A.toMap o.hKey (some x) := by
  obtain ⟨hi0, hi1⟩ := (headOrTail_eq_false_iff hi).1 hint
  have hl := A.wf.listed.set hi x
  have hwf : WellFormed (update A.cell i (some { o with hVal := x })) A.nextFreeNode A.order := by
    refine ⟨hl.spine, ?_, ?_, hl.bound⟩
    · rw [update_of_ne hi0.symm]; exact A.wf.head
    · rw [update_of_ne hi1.symm]; exact A.wf.tail
  refine ⟨⟨_, _, _, hwf⟩, rfl, rfl, toMap_update (i := i) (headOrTail_eq_false.1 hint) ?_ ?_ fun j x hj => ?_⟩
  · funext j
    by_cases hji : j = i
    · subst hji; simp [payload]
    · simp [hji, payload]
  · intro k' x h
    rw [payload_eq hi] at h
    cases h; rfl
  · exact payload_unique (payload_eq hi) hj

end Contents

/-- The contents represent the map `M` from keys to values. -/
structure Represents (hs : Hashes K V H) (A : Contents H) (M : K → Option V) : Prop where
  lookup : ∀ k, A.toMap (hs.key k) = (M k).map hs.val
  only : ∀ h x, A.toMap h = some x → ∃ k, hs.key k = h

theorem Contents.empty_toMap [Nontrivial H] (k : H) : (Contents.empty : Contents H).toMap k = none := by
  refine Contents.toMap_eq_none.2 fun i o hi hint => absurd hint ?_
  have := (Contents.headOrTail_eq_false_iff hi).1 hint
  simp [Contents.empty, this.1, this.2] at hi

theorem Contents.empty_represents [Nontrivial H] (hs : Hashes K V H) : Represents hs Contents.empty fun _ => none :=
  ⟨fun k => Contents.empty_toMap _, fun g x hg => by rw [Contents.empty_toMap] at hg; cases hg⟩

section Represents

variable {hs : Hashes K V H} {A : Contents H} {M : K → Option V} {k : K} {x : V}

theorem Represents.eq_none (h : Represents hs A M) (hk : A.toMap (hs.key k) = none) : M k = none := by
  rw [h.lookup] at hk
  exact map_eq_none_iff.1 hk

theorem Represents.eq_some (h : Represents hs A M) (hinj : Function.Injective hs.val)
    (hk : A.toMap (hs.key k) = some (hs.val x)) : M k = some x := by
  rw [h.lookup] at hk
  obtain ⟨y, hy, he⟩ := map_eq_some_iff.1 hk
  rw [hy, hinj he]

end Represents

theorem Represents.update [DecidableEq K] {hs : Hashes K V H} {A A' : Contents H}
    {M : K → Option V} {k : K} {y : Option V} (h : Represents hs A M) (hinj : Function.Injective hs.key)
    (hA : A'.toMap = update A.toMap (hs.key k) (y.map hs.val)) : Represents hs A' (update M k y) := by
  refine ⟨fun k' => ?_, fun g x hg => ?_⟩
  · rw [hA]
    by_cases hkk : k' = k
    · subst hkk; rw [update_self, update_self]
    · rw [update_of_ne (hinj.ne hkk), update_of_ne hkk, h.lookup]
  · by_cases hgk : g = hs.key k
    · exact ⟨k, hgk.symm⟩
    · rw [hA, update_of_ne hgk] at hg
      exact h.only g x hg

structure Commits (hs : Hashes K V H) (v : VerifierState H) (A : Contents H) : Prop where
  nextFreeNode : v.nextFreeNode = A.nextFreeNode
  root : v.subTreeRoot = rootOf hs A.cell

end Lineth.Accumulator
