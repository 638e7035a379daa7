import Mathlib.Data.List.Chain
import Mathlib.Order.Lattice

/-!
# Sorted doubly linked lists in a heap

A heap maps positions to cells with the positions of their neighbours and a key. `Spine L heap head tail order`: the
occupied positions are `order`, in which neighbours point at each other and keys increase strictly. Cells that point
at each other are neighbours (`Spine.split_next`, `Spine.split_prev`), no key lies between two neighbours
(`Spine.gap`), and `Spine.insert`, `Spine.remove` and `Spine.set` keep a spine. -/

namespace LinkedList

open List Option
open Function (update update_of_ne update_self)

/-- How cells of type `C` carry their links and their key, and how a link is overwritten. -/
structure Links (C P A : Type*) where
  prev : C → P
  next : C → P
  key : C → A
  setPrev : C → P → C
  setNext : C → P → C
  prev_setPrev : ∀ c p, prev (setPrev c p) = p
  next_setPrev : ∀ c p, next (setPrev c p) = next c
  key_setPrev : ∀ c p, key (setPrev c p) = key c
  prev_setNext : ∀ c p, prev (setNext c p) = prev c
  next_setNext : ∀ c p, next (setNext c p) = p
  key_setNext : ∀ c p, key (setNext c p) = key c

attribute [simp] Links.prev_setPrev Links.next_setPrev Links.key_setPrev Links.prev_setNext Links.next_setNext
  Links.key_setNext

variable {C P A : Type*} [LinearOrder A] (L : Links C P A)

def Linked (heap : P → Option C) (a b : P) : Prop :=
  ∃ ca cb, heap a = some ca ∧ heap b = some cb ∧ L.next ca = b ∧ L.prev cb = a ∧ L.key ca < L.key cb

def Below (heap : P → Option C) (a b : P) : Prop :=
  ∃ ca cb, heap a = some ca ∧ heap b = some cb ∧ L.key ca < L.key cb

structure Spine (heap : P → Option C) (head tail : P) (order : List P) : Prop where
  head_eq : order.head? = some head
  last_eq : order.getLast? = some tail
  chain : order.IsChain (Linked L heap)
  occupied : ∀ i, i ∈ order ↔ ∃ c, heap i = some c

variable {L} {heap heap' : P → Option C} {head tail : P} {order l₁ l₂ : List P} {p q n i j : P} {c d : C}

instance : Trans (Below L heap) (Below L heap) (Below L heap) where
  trans := by
    rintro a b e ⟨ca, cb, ha, hb, hab⟩ ⟨cb', ce, hb', he, hbe⟩
    obtain rfl : cb = cb' := some_inj.1 (hb.symm.trans hb')
    exact ⟨ca, ce, ha, he, hab.trans hbe⟩

theorem Linked.below {a b : P} (h : Linked L heap a b) : Below L heap a b := by
  obtain ⟨ca, cb, ha, hb, -, -, hlt⟩ := h
  exact ⟨ca, cb, ha, hb, hlt⟩

/-- A link only reads the successor of its first end, the predecessor of its second and both keys. -/
theorem Linked.frame {a b : P} (h : Linked L heap a b)
    (ha : ∀ c, heap a = some c → ∃ c', heap' a = some c' ∧ L.next c' = L.next c ∧ L.key c' = L.key c)
    (hb : ∀ c, heap b = some c → ∃ c', heap' b = some c' ∧ L.prev c' = L.prev c ∧ L.key c' = L.key c) :
    Linked L heap' a b := by
  obtain ⟨ca, cb, hca, hcb, hnext, hprev, hlt⟩ := h
  obtain ⟨ca', hca', hn, hka⟩ := ha ca hca
  obtain ⟨cb', hcb', hp, hkb⟩ := hb cb hcb
  exact ⟨ca', cb', hca', hcb', hn.trans hnext, hp.trans hprev, by rw [hka, hkb]; exact hlt⟩

namespace Spine

section

variable (h : Spine L heap head tail order)

include h

theorem pairwise : order.Pairwise (Below L heap) :=
  isChain_iff_pairwise.1 (h.chain.imp fun _ _ => Linked.below)

theorem nodup : order.Nodup := by
  refine h.pairwise.imp ?_
  rintro a b ⟨ca, cb, ha, hb, hlt⟩ rfl
  obtain rfl : ca = cb := some_inj.1 (ha.symm.trans hb)
  exact lt_irrefl _ hlt

theorem below_or (hi : heap i = some c) (hj : heap j = some d) (hne : i ≠ j) :
    L.key c < L.key d ∨ L.key d < L.key c := by
  have : Std.Symm fun a b => Below L heap a b ∨ Below L heap b a := ⟨fun _ _ => Or.symm⟩
  rcases (h.pairwise.imp fun hab => Or.inl hab : order.Pairwise fun a b => Below L heap a b ∨ Below L heap b a).forall
    ((h.occupied i).2 ⟨c, hi⟩) ((h.occupied j).2 ⟨d, hj⟩) hne with ⟨ca, cb, ha, hb, hlt⟩ | ⟨ca, cb, ha, hb, hlt⟩
  · rw [hi] at ha; rw [hj] at hb
    cases ha; cases hb
    exact .inl hlt
  · rw [hj] at ha; rw [hi] at hb
    cases ha; cases hb
    exact .inr hlt

theorem key_inj (hi : heap i = some c) (hj : heap j = some d)
    (hk : L.key c = L.key d) : i = j := by
  by_contra hne
  rcases h.below_or hi hj hne with hlt | hlt
  · exact hlt.ne hk
  · exact hlt.ne' hk

end

theorem linked (h : Spine L heap head tail (l₁ ++ p :: q :: l₂)) : Linked L heap p q :=
  (isChain_append_cons_cons.1 h.chain).2.1

section

variable (h : Spine L heap head tail order)

include h

theorem split_next (hp : heap p = some c) (hne : p ≠ tail) :
    ∃ l₁ l₂, order = l₁ ++ p :: L.next c :: l₂ := by
  obtain ⟨l₁, l₂, rfl⟩ := append_of_mem ((h.occupied p).2 ⟨c, hp⟩)
  cases l₂ with
  | nil => exact absurd (by simpa using h.last_eq) hne
  | cons q l₂ =>
    obtain ⟨cp, cq, hcp, -, hnext, -⟩ := h.linked
    obtain rfl : c = cp := some_inj.1 (hp.symm.trans hcp)
    exact ⟨l₁, l₂, by rw [hnext]⟩

theorem split_prev (hq : heap q = some c) (hne : q ≠ head) :
    ∃ l₁ l₂, order = l₁ ++ L.prev c :: q :: l₂ := by
  obtain ⟨l₁, l₂, rfl⟩ := append_of_mem ((h.occupied q).2 ⟨c, hq⟩)
  rcases eq_nil_or_concat' l₁ with rfl | ⟨l₁, p, rfl⟩
  · exact absurd (by simpa using h.head_eq) hne
  · rw [append_assoc, singleton_append] at h
    obtain ⟨cp, cq, -, hcq, -, hprev, -⟩ := h.linked
    obtain rfl : c = cq := some_inj.1 (hq.symm.trans hcq)
    exact ⟨l₁, l₂, by rw [hprev, append_assoc, singleton_append]⟩

theorem split_around (hi : heap i = some c) (hhead : i ≠ head) (htail : i ≠ tail) :
    ∃ l₁ l₂, order = l₁ ++ L.prev c :: i :: L.next c :: l₂ := by
  obtain ⟨l₁, l₂, rfl⟩ := h.split_prev hi hhead
  cases l₂ with
  | nil => exact absurd (by simpa using h.last_eq) htail
  | cons q l₂ =>
    rw [append_cons] at h
    obtain ⟨ci, cq, hci, -, hnext, -⟩ := h.linked
    obtain rfl : c = ci := some_inj.1 (hi.symm.trans hci)
    exact ⟨l₁, l₂, by rw [hnext]⟩

end

theorem gap (h : Spine L heap head tail (l₁ ++ p :: q :: l₂)) {cp cq : C}
    (hp : heap p = some cp) (hq : heap q = some cq)
    (hi : heap i = some c) (hlo : L.key cp < L.key c) (hhi : L.key c < L.key cq) : False := by
  have hmem := (h.occupied i).2 ⟨c, hi⟩
  obtain ⟨h1, h2, h3⟩ := pairwise_append.1 h.pairwise
  have below_absurd : ∀ {a b ca cb}, heap a = some ca → heap b = some cb → Below L heap a b →
    ¬ L.key cb < L.key ca := by
    rintro a b ca cb ha hb ⟨ca', cb', ha', hb', hlt⟩
    cases some_inj.1 (ha.symm.trans ha')
    cases some_inj.1 (hb.symm.trans hb')
    exact hlt.asymm
  rcases mem_append.1 hmem with hm | hm
  · exact below_absurd hi hp (h3 i hm p mem_cons_self) hlo
  · rcases mem_cons.1 hm with rfl | hm
    · cases some_inj.1 (hi.symm.trans hp)
      exact lt_irrefl _ hlo
    · rcases mem_cons.1 hm with rfl | hm
      · cases some_inj.1 (hi.symm.trans hq)
        exact lt_irrefl _ hhi
      · exact below_absurd hq hi ((pairwise_cons.1 (pairwise_cons.1 h2).2).1 i hm) hhi

end Spine

/-! ### Changing a spine -/

/-- The links up to `p` survive when nothing before `p` changes and `p` keeps its predecessor and key. -/
theorem chain_upto (hc : (l₁ ++ [p]).IsChain (Linked L heap)) (hsame : ∀ i ∈ l₁, heap' i = heap i)
    (hp : ∀ c, heap p = some c → ∃ c', heap' p = some c' ∧ L.prev c' = L.prev c ∧ L.key c' = L.key c) :
    (l₁ ++ [p]).IsChain (Linked L heap') := by
  induction l₁ with
  | nil => exact isChain_singleton p
  | cons a l ih =>
    have hrest := ih hc.tail fun i hi => hsame i (mem_cons_of_mem a hi)
    refine hrest.cons fun b hb => ?_
    refine (hc.rel_head? hb).frame (fun c hca => ⟨c, (hsame a mem_cons_self).trans hca, rfl, rfl⟩) fun c hcb => ?_
    cases l with
    | nil => cases hb; exact hp c hcb
    | cons b' l =>
      cases hb
      exact ⟨c, (hsame b (by simp)).trans hcb, rfl, rfl⟩

theorem chain_from (hc : (q :: l₂).IsChain (Linked L heap)) (hsame : ∀ i ∈ l₂, heap' i = heap i)
    (hq : ∀ c, heap q = some c → ∃ c', heap' q = some c' ∧ L.next c' = L.next c ∧ L.key c' = L.key c) :
    (q :: l₂).IsChain (Linked L heap') := by
  refine List.IsChain.cons (hc.tail.imp_of_mem_imp fun a b ha hb hab => ?_) fun b hb => ?_
  · exact hab.frame (fun c h => ⟨c, (hsame a ha).trans h, rfl, rfl⟩) fun c h => ⟨c, (hsame b hb).trans h, rfl, rfl⟩
  · have hb' : b ∈ l₂ := mem_of_mem_head? hb
    exact (hc.rel_head? hb).frame hq fun c h => ⟨c, (hsame b hb').trans h, rfl, rfl⟩

/-- Replace the positions `m` between `p` and `q` by `m'`. -/
theorem Spine.relink (m m' : List P) (h : Spine L heap head tail (l₁ ++ p :: (m ++ q :: l₂)))
    (hleft : ∀ i ∈ l₁, heap' i = heap i) (hright : ∀ i ∈ l₂, heap' i = heap i)
    (hp : ∀ c, heap p = some c → ∃ c', heap' p = some c' ∧ L.prev c' = L.prev c ∧ L.key c' = L.key c)
    (hq : ∀ c, heap q = some c → ∃ c', heap' q = some c' ∧ L.next c' = L.next c ∧ L.key c' = L.key c)
    (hmid : (p :: (m' ++ [q])).IsChain (Linked L heap'))
    (hocc : ∀ i, i ∈ l₁ ++ p :: (m' ++ q :: l₂) ↔ ∃ c, heap' i = some c) :
    Spine L heap' head tail (l₁ ++ p :: (m' ++ q :: l₂)) := by
  obtain ⟨hc1, hc2⟩ := isChain_split.1 h.chain
  obtain ⟨-, hc2⟩ := isChain_cons_split.1 hc2
  refine ⟨?_, ?_, ?_, hocc⟩
  · rw [← h.head_eq]; cases l₁ <;> rfl
  · rw [← h.last_eq]
    simp only [getLast?_append, getLast?_cons, getLast?_append, some_or]
  · exact isChain_split.2 ⟨chain_upto hc1 hleft hp, isChain_cons_split.2 ⟨hmid, chain_from hc2 hright hq⟩⟩

section Update

variable [DecidableEq P] {cp cq cn : C}

/-- Link the cell `cn` in at `n`, between `p` and `q`. -/
def insertAt (L : Links C P A) (heap : P → Option C) (p n q : P) (cp cn cq : C) : P → Option C :=
  update (update (update heap p (some (L.setNext cp n))) n (some cn)) q (some (L.setPrev cq n))

/-- Unlink the cell at `n`, between `p` and `q`. -/
def removeAt (L : Links C P A) (heap : P → Option C) (p n q : P) (cp cq : C) : P → Option C :=
  update (update (update heap p (some (L.setNext cp q))) n none) q (some (L.setPrev cq p))

namespace Spine

theorem insert (h : Spine L heap head tail (l₁ ++ p :: q :: l₂)) (hp : heap p = some cp) (hq : heap q = some cq)
    (hn : heap n = none) (hnp : L.prev cn = p) (hnq : L.next cn = q) (hlo : L.key cp < L.key cn)
    (hhi : L.key cn < L.key cq) :
    Spine L (insertAt L heap p n q cp cn cq) head tail (l₁ ++ p :: n :: q :: l₂) := by
  have hfresh : ∀ i ∈ l₁ ++ p :: q :: l₂, i ≠ n := by
    rintro i hi rfl
    obtain ⟨c, hc⟩ := (h.occupied i).1 hi
    exact absurd (hn.symm.trans hc) (by simp)
  obtain ⟨-, ⟨⟨hpq, hpl₂⟩, hql₂, -⟩, hl₁⟩ : l₁.Nodup ∧ ((¬ p = q ∧ p ∉ l₂) ∧ q ∉ l₂ ∧ l₂.Nodup) ∧
    ∀ a ∈ l₁, ¬ a = p ∧ ¬ a = q ∧ ∀ b ∈ l₂, ¬ a = b := by simpa [nodup_append] using h.nodup
  have hnp' : p ≠ n := hfresh p (by simp)
  have hnq' : q ≠ n := hfresh q (by simp)
  have at_p : insertAt L heap p n q cp cn cq p = some (L.setNext cp n) := by simp [insertAt, hpq, hnp']
  have at_n : insertAt L heap p n q cp cn cq n = some cn := by simp [insertAt, hnq'.symm]
  have at_q : insertAt L heap p n q cp cn cq q = some (L.setPrev cq n) := by simp [insertAt]
  have other : ∀ i, i ≠ p → i ≠ n → i ≠ q → insertAt L heap p n q cp cn cq i = heap i := fun i h1 h2 h3 => by
    simp [insertAt, h1, h2, h3]
  refine relink [] [n] h (fun i hi => ?_) (fun i hi => ?_) (fun c hc => ?_) (fun c hc => ?_) ?_ fun i => ?_
  · exact other i (hl₁ i hi).1 (hfresh i (by simp [hi])) (hl₁ i hi).2.1
  · exact other i (by rintro rfl; exact hpl₂ hi) (hfresh i (by simp [hi])) (by rintro rfl; exact hql₂ hi)
  · cases some_inj.1 (hp.symm.trans hc)
    exact ⟨_, at_p, by simp, by simp⟩
  · cases some_inj.1 (hq.symm.trans hc)
    exact ⟨_, at_q, by simp, by simp⟩
  · refine isChain_cons_cons.2 ⟨⟨_, _, at_p, at_n, by simp, hnp, by simpa using hlo⟩, isChain_pair.2 ?_⟩
    exact ⟨_, _, at_n, at_q, hnq, by simp, by simpa using hhi⟩
  · by_cases hip : i = p
    · subst hip; simp [at_p]
    by_cases hin : i = n
    · subst hin; simp [at_n]
    by_cases hiq : i = q
    · subst hiq; simp [at_q]
    rw [other i hip hin hiq, ← h.occupied]
    simp [hin]

theorem remove (h : Spine L heap head tail (l₁ ++ p :: n :: q :: l₂)) (hp : heap p = some cp) (hq : heap q = some cq) :
    Spine L (removeAt L heap p n q cp cq) head tail (l₁ ++ p :: q :: l₂) := by
  obtain ⟨-, ⟨⟨hpn, hpq, hpl₂⟩, ⟨hnq, hnl₂⟩, hql₂, -⟩, hl₁⟩ : l₁.Nodup ∧
    ((¬ p = n ∧ ¬ p = q ∧ p ∉ l₂) ∧ (¬ n = q ∧ n ∉ l₂) ∧ q ∉ l₂ ∧ l₂.Nodup) ∧
    ∀ a ∈ l₁, ¬ a = p ∧ ¬ a = n ∧ ¬ a = q ∧ ∀ b ∈ l₂, ¬ a = b := by simpa [nodup_append] using h.nodup
  have at_p : removeAt L heap p n q cp cq p = some (L.setNext cp q) := by simp [removeAt, hpq, hpn]
  have at_n : removeAt L heap p n q cp cq n = none := by simp [removeAt, hnq]
  have at_q : removeAt L heap p n q cp cq q = some (L.setPrev cq p) := by simp [removeAt]
  have other : ∀ i, i ≠ p → i ≠ n → i ≠ q → removeAt L heap p n q cp cq i = heap i := fun i h1 h2 h3 => by
    simp [removeAt, h1, h2, h3]
  have hlt : L.key cp < L.key cq := by
    have h2 : Below L heap p q := (pairwise_cons.1 (pairwise_append.1 h.pairwise).2.1).1 q (by simp)
    obtain ⟨cp', cq', hp', hq', hlt⟩ := h2
    cases some_inj.1 (hp.symm.trans hp')
    cases some_inj.1 (hq.symm.trans hq')
    exact hlt
  refine relink [n] [] h (fun i hi => ?_) (fun i hi => ?_) (fun c hc => ?_) (fun c hc => ?_) ?_ fun i => ?_
  · exact other i (hl₁ i hi).1 (hl₁ i hi).2.1 (hl₁ i hi).2.2.1
  · exact other i (by rintro rfl; exact hpl₂ hi) (by rintro rfl; exact hnl₂ hi) (by rintro rfl; exact hql₂ hi)
  · cases some_inj.1 (hp.symm.trans hc)
    exact ⟨_, at_p, by simp, by simp⟩
  · cases some_inj.1 (hq.symm.trans hc)
    exact ⟨_, at_q, by simp, by simp⟩
  · exact isChain_pair.2 ⟨_, _, at_p, at_q, by simp, by simp, by simpa using hlt⟩
  · by_cases hip : i = p
    · subst hip; simp [at_p]
    by_cases hin : i = n
    · subst hin
      have : i ∉ l₁ := fun hi => (hl₁ i hi).2.1 rfl
      simp [at_n, hip, hnq, hnl₂, this]
    by_cases hiq : i = q
    · subst hiq; simp [at_q]
    rw [other i hip hin hiq, ← h.occupied]
    simp [hin]

theorem set (h : Spine L heap head tail order) (hp : heap p = some c) (hprev : L.prev d = L.prev c)
    (hnext : L.next d = L.next c) (hkey : L.key d = L.key c) :
    Spine L (update heap p (some d)) head tail order := by
  have keep : ∀ i ci, heap i = some ci → ∃ c', update heap p (some d) i = some c' ∧
      L.prev c' = L.prev ci ∧ L.next c' = L.next ci ∧ L.key c' = L.key ci := by
    intro i ci hi
    by_cases hip : i = p
    · subst hip
      cases some_inj.1 (hp.symm.trans hi)
      exact ⟨d, update_self .., hprev, hnext, hkey⟩
    · exact ⟨ci, by rw [update_of_ne hip]; exact hi, rfl, rfl, rfl⟩
  refine ⟨h.head_eq, h.last_eq, h.chain.imp fun a b hab => ?_, fun i => ?_⟩
  · refine hab.frame (fun c hc => ?_) fun c hc => ?_
    · obtain ⟨c', h1, h2, h3, h4⟩ := keep a c hc
      exact ⟨c', h1, h3, h4⟩
    · obtain ⟨c', h1, h2, h3, h4⟩ := keep b c hc
      exact ⟨c', h1, h2, h4⟩
  · rw [h.occupied]
    by_cases hip : i = p
    · subst hip; simp [hp]
    · rw [update_of_ne hip]

end Spine

end Update

end LinkedList
