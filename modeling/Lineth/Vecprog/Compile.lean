import Mathlib.Data.List.Dedup
import Lineth.Vecprog.BuilderExact

/-!
# Scheduling and registers

The nodes that a sink needs are scheduled depth first right before it, each once. A node is computed into a register,
which is free again after the last step that reads the node. -/

namespace Lineth.Vecprog

open List Option Nat
open Function (update update_of_ne update_self)

variable {F E : Type}

/-! ### The schedule -/

inductive Step where
  | node (id : Nat)
  | sink (i : Nat)
deriving DecidableEq, Repr

structure Schedule where
  emitted : List Nat
  leaves : List Nat
  steps : List Step

/-- A padded table must not reach beyond the coset. -/
def Node.fits (n : Nat) : Node F E → Bool
  | vecBase table _ (some q) | vecExt table _ (some q) => q.start + table.len ≤ n
  | _ => true

def Node.isLeaf : Node F E → Bool
  | vecBase .. | vecExt .. => true
  | _ => false

section

variable (nodes : List (Node F E)) (n : Nat)

/-- The depth-first `emit`, for a depth of at most `fuel`. -/
def emit : Nat → Schedule → Nat → Option Schedule
  | 0, _, _ => none
  | fuel + 1, s, id =>
    if id ∈ s.emitted then some s
    else do
      let nd ← nodes[id]?
      let s := { s with emitted := id :: s.emitted }
      if nd.isLeaf then
        if nd.fits n then some { s with leaves := s.leaves ++ [id] } else none
      else if nd.isScalar then some s
      else do
        let s ← nd.deps.foldlM (emit fuel) s
        some { s with steps := s.steps ++ [.node id] }

def emitSink (s : Schedule) (sink : Sink E Nat × Nat) : Option Schedule := do
  let s ← sink.1.reads.foldlM (emit nodes n nodes.length) s
  some { s with steps := s.steps ++ [.sink sink.2] }

def schedule (sinks : List (Sink E Nat)) : Option Schedule := sinks.zipIdx.foldlM (emitSink nodes n) ⟨[], [], []⟩

end

/-! ### Registers -/

section

variable (nodes : List (Node F E)) (sinks : List (Sink E Nat))

def Step.reads : Step → List Nat
  | node id => (nodes[id]?.map Node.deps).getD []
  | sink i => (sinks[i]?.map Sink.reads).getD []

/-- The loop that finds the last step that reads each node. -/
def lastUses : Nat → List Step → (Nat → Nat) → Nat → Nat
  | _, [], m => m
  | s, st :: rest, m => lastUses (s + 1) rest fun a => if a ∈ st.reads nodes sinks then s else m a

/-- Whether a node is base-valued: which registers it can be computed into. -/
def isBaseAt (id : Nat) : Bool := (nodes[id]?.map Node.isBase).getD false

def isComputedAt (id : Nat) : Bool := (nodes[id]?.map Node.isComputed).getD false

/-- The registers of the nodes; those of each field that are free, and how many there are. -/
structure Alloc where
  reg : Nat → Nat
  free : Bool → List Nat
  nb : Bool → Nat

def Alloc.take (al : Alloc) (id : Nat) (isBase : Bool) : Alloc :=
  match al.free isBase with
  | r :: rest => { al with reg := update al.reg id r, free := update al.free isBase rest }
  | [] => { al with reg := update al.reg id (al.nb isBase), nb := update al.nb isBase (al.nb isBase + 1) }

def Alloc.release (al : Alloc) (id : Nat) : Alloc :=
  if isComputedAt nodes id then
    { al with free := update al.free (isBaseAt nodes id) (al.reg id :: al.free (isBaseAt nodes id)) }
  else al

/-- The operands are released after the destination is taken. -/
def allocStep (lastUse : Nat → Nat) (s : Nat) (st : Step) (al : Alloc) : Alloc :=
  let al := match st with
    | .node id => al.take id (isBaseAt nodes id)
    | .sink _ => al
  ((st.reads nodes sinks).dedup.filter fun a => lastUse a = s).foldl (Alloc.release nodes) al

def allocate (lastUse : Nat → Nat) : Nat → List Step → Alloc → Alloc
  | _, [], al => al
  | s, st :: rest, al => allocate lastUse (s + 1) rest (allocStep nodes sinks lastUse s st al)

end

/-! ### Programs -/

structure Program (F E : Type) where
  nodes : List (Node F E)
  steps : List Step
  reg : Nat → Nat
  leaves : List Nat
  sinks : List (Sink E Nat)
  nb : Bool → Nat
  n : Nat
  ratio : Nat
  stride : Nat

def Builder.compile (b : Builder F E) (n ratio cosetStep : Nat) : Option (Program F E) := do
  let s ← schedule b.nodes n b.sinks
  let lastUse := lastUses b.nodes b.sinks 0 s.steps fun _ => 0
  let al := allocate b.nodes b.sinks lastUse 0 s.steps ⟨fun _ => 0, fun _ => [], fun _ => 0⟩
  return ⟨b.nodes, s.steps, al.reg, s.leaves, b.sinks, al.nb, n, ratio, cosetStep * n⟩

/-! ### What is scheduled before what -/

def Step.nodeId : Step → Option Nat
  | node id => some id
  | sink _ => none

def Step.sinkId : Step → Option Nat
  | node _ => none
  | sink i => some i

section

variable {nodes : List (Node F E)} {n : Nat}

/-- The node can be read after the steps `pre`. -/
def ReadyIn (nodes : List (Node F E)) (leaves : List Nat) (pre : List Step) (a : Nat) : Prop :=
  ∃ nd, nodes[a]? = some nd ∧ (nd.isComputed = true → .node a ∈ pre) ∧ (nd.isLeaf = true → a ∈ leaves)

theorem ReadyIn.mono {leaves leaves' : List Nat} {pre pre' : List Step} {a : Nat} (h : ReadyIn nodes leaves pre a)
    (hl : leaves ⊆ leaves') (hp : pre ⊆ pre') : ReadyIn nodes leaves' pre' a := by
  obtain ⟨nd, hnd, hc, hleaf⟩ := h
  exact ⟨nd, hnd, fun h => hp (hc h), fun h => hl (hleaf h)⟩

/-- Every step reads what is computed before it. -/
def OrderedSteps (nodes : List (Node F E)) (sinks : List (Sink E Nat)) (leaves : List Nat) (steps : List Step) : Prop :=
  ∀ pre st post, steps = pre ++ st :: post → ∀ a ∈ st.reads nodes sinks, ReadyIn nodes leaves pre a

theorem OrderedSteps.snoc {sinks : List (Sink E Nat)} {leaves : List Nat} {steps : List Step} {st : Step}
    (h : OrderedSteps nodes sinks leaves steps) (hst : ∀ a ∈ st.reads nodes sinks, ReadyIn nodes leaves steps a) :
    OrderedSteps nodes sinks leaves (steps ++ [st]) := by
  intro pre st' post hsplit
  rcases eq_nil_or_concat post with rfl | ⟨post', x, rfl⟩
  · obtain ⟨rfl, h'⟩ := append_inj' hsplit rfl
    cases h'
    exact hst
  · rw [concat_eq_append, ← cons_append, ← append_assoc] at hsplit
    exact h pre st' post' (append_inj' hsplit rfl).1

/-- What holds of a schedule while nodes below `bound` are emitted: those that were emitted can be read. -/
structure Schedule.Inv (nodes : List (Node F E)) (n : Nat) (sinks : List (Sink E Nat)) (s : Schedule)
    (bound : Nat) : Prop where
  ready : ∀ a ∈ s.emitted, a < bound → ReadyIn nodes s.leaves s.steps a
  ordered : OrderedSteps nodes sinks s.leaves s.steps
  emitted : ∀ id, .node id ∈ s.steps → id ∈ s.emitted ∧ isComputedAt nodes id = true
  leaf : ∀ id ∈ s.leaves, ∃ nd, nodes[id]? = some nd ∧ nd.isLeaf = true ∧ nd.fits n = true
  nodup : (s.steps.filterMap Step.nodeId).Nodup

structure Schedule.Adds (s s' : Schedule) (ids : List Nat) : Prop where
  mem : ∀ id ∈ ids, id ∈ s'.emitted
  emitted : s.emitted ⊆ s'.emitted
  leaves : s.leaves ⊆ s'.leaves
  steps : s.steps ⊆ s'.steps
  newEmitted : ∀ a ∈ s'.emitted, a ∈ s.emitted ∨ ∃ id ∈ ids, a ≤ id
  newSteps : ∀ a, .node a ∈ s'.steps → .node a ∈ s.steps ∨ ∃ id ∈ ids, a ≤ id
  sinks : s'.steps.filterMap Step.sinkId = s.steps.filterMap Step.sinkId

theorem Schedule.Adds.refl {s : Schedule} {ids : List Nat} (h : ∀ id ∈ ids, id ∈ s.emitted) : s.Adds s ids :=
  ⟨h, Subset.refl _, Subset.refl _, Subset.refl _, fun _ h => .inl h, fun _ h => .inl h, rfl⟩

theorem Schedule.Adds.cons {s s' s'' : Schedule} {id : Nat} {ids : List Nat}
    (h : s.Adds s' [id]) (h' : s'.Adds s'' ids) :
    s.Adds s'' (id :: ids) := by
  have hnew {p p' p'' : Nat → Prop} (h : ∀ a, p' a → p a ∨ ∃ x ∈ [id], a ≤ x)
      (h' : ∀ a, p'' a → p' a ∨ ∃ x ∈ ids, a ≤ x) (a : Nat) (ha : p'' a) : p a ∨ ∃ x ∈ id :: ids, a ≤ x := by
    rcases h' a ha with ha | ⟨x, hx, hle⟩
    · exact (h a ha).imp_right fun ⟨x, hx, hle⟩ => ⟨x, mem_singleton.1 hx ▸ mem_cons_self, hle⟩
    · exact .inr ⟨x, mem_cons_of_mem _ hx, hle⟩
  exact ⟨forall_mem_cons.2 ⟨h'.emitted (h.mem id mem_cons_self), h'.mem⟩, Subset.trans h.emitted h'.emitted,
    Subset.trans h.leaves h'.leaves, Subset.trans h.steps h'.steps, hnew h.newEmitted h'.newEmitted,
    hnew h.newSteps h'.newSteps, h'.sinks.trans h.sinks⟩

section

variable {sinks : List (Sink E Nat)} {s s' : Schedule}

theorem foldlM_emit_spec {fuel bound : Nat} {ids : List Nat} (hids : ∀ id ∈ ids, id < bound)
    (hemit : ∀ s s' id, id < bound → s.Inv nodes n sinks bound → emit nodes n fuel s id = some s' →
      s'.Inv nodes n sinks bound ∧ s.Adds s' [id])
    (hs : s.Inv nodes n sinks bound) (h : ids.foldlM (emit nodes n fuel) s = some s') :
    s'.Inv nodes n sinks bound ∧ s.Adds s' ids := by
  induction ids generalizing s with
  | nil =>
    cases h
    exact ⟨hs, .refl (forall_mem_nil _)⟩
  | cons id ids ih =>
    rw [foldlM_cons] at h
    obtain ⟨s₁, hs₁, h⟩ := bind_eq_some_iff.1 h
    obtain ⟨hid, hids⟩ := forall_mem_cons.1 hids
    obtain ⟨hinv, hadds⟩ := hemit s s₁ id hid hs hs₁
    obtain ⟨hinv', hadds'⟩ := ih hids hinv h
    exact ⟨hinv', hadds.cons hadds'⟩

variable {nd : Node F E}

theorem isComputed_of_not (hleaf : ¬ nd.isLeaf = true) (hscalar : ¬ nd.isScalar = true) : nd.isComputed = true := by
  cases nd with
  | op isBase o args => rfl
  | linear s terms => rfl
  | scalarBase s => exact absurd rfl hscalar
  | scalarExt s => exact absurd rfl hscalar
  | vecBase table offset padding => exact absurd rfl hleaf
  | vecExt table offset padding => exact absurd rfl hleaf

theorem isComputed_of_isLeaf (hleaf : nd.isLeaf = true) : nd.isComputed = false := by
  cases nd with
  | vecBase table offset padding => rfl
  | vecExt table offset padding => rfl
  | _ => cases hleaf

theorem isComputed_of_isScalar (hscalar : nd.isScalar = true) : nd.isComputed = false := by
  cases nd with
  | scalarBase s => rfl
  | scalarExt s => rfl
  | _ => cases hscalar

section

variable {id bound bound' : Nat} {leaves : List Nat}

/-- A node is emitted without a step. -/
theorem Schedule.Inv.insert (hs : s.Inv nodes n sinks bound) (hle : bound' ≤ bound) (hsub : s.leaves ⊆ leaves)
    (hleaf : ∀ x ∈ leaves, ∃ nd, nodes[x]? = some nd ∧ nd.isLeaf = true ∧ nd.fits n = true)
    (hready : id < bound' → ReadyIn nodes leaves s.steps id) :
    Schedule.Inv nodes n sinks ⟨id :: s.emitted, leaves, s.steps⟩ bound' := by
  refine ⟨fun a ha hlt => ?_, fun pre st post hst a ha => ?_, fun x hx => ?_, hleaf, hs.nodup⟩
  · rcases mem_cons.1 ha with rfl | ha
    · exact hready hlt
    · exact (hs.ready a ha (hlt.trans_le hle)).mono hsub (Subset.refl _)
  · exact (hs.ordered pre st post hst a ha).mono hsub (Subset.refl _)
  · exact (hs.emitted x hx).imp_left (mem_cons_of_mem _)

theorem Schedule.Adds.insert (hsub : s.leaves ⊆ leaves) : s.Adds ⟨id :: s.emitted, leaves, s.steps⟩ [id] :=
  ⟨forall_mem_singleton.2 mem_cons_self, subset_cons_self _ _, hsub, Subset.refl _,
    fun _ ha => (mem_cons.1 ha).symm.imp_right fun h => ⟨id, mem_singleton_self id, h.le⟩, fun _ h => .inl h, rfl⟩

end

theorem emit_spec (hwf : NodesWF nodes) {fuel : Nat} {id bound : Nat} (hid : id < bound)
    (hs : s.Inv nodes n sinks bound) (h : emit nodes n fuel s id = some s') :
    s'.Inv nodes n sinks bound ∧ s.Adds s' [id] := by
  induction fuel generalizing s s' id bound with
  | zero => cases h
  | succ fuel ih =>
    rw [emit] at h
    split at h
    · rename_i hmem
      cases h
      exact ⟨hs, .refl (forall_mem_singleton.2 hmem)⟩
    rename_i hmem
    obtain ⟨nd, hnd, h⟩ := bind_eq_some_iff.1 h
    dsimp only at h
    split at h
    · -- a leaf
      rename_i hleaf
      obtain ⟨hfits, h⟩ := ite_none_right_eq_some.1 h
      cases h
      have hsub : s.leaves ⊆ s.leaves ++ [id] := subset_append_left _ _
      refine ⟨hs.insert le_rfl hsub (fun x hx => ?_) fun _ => ⟨nd, hnd, fun hc => ?_, fun _ => by simp⟩, .insert hsub⟩
      · rcases mem_append.1 hx with hx | hx
        · exact hs.leaf x hx
        · cases mem_singleton.1 hx
          exact ⟨nd, hnd, hleaf, hfits⟩
      · rw [isComputed_of_isLeaf hleaf] at hc
        cases hc
    · rename_i hleaf
      split at h
      · -- a scalar
        rename_i hscalar
        cases h
        refine ⟨hs.insert le_rfl (Subset.refl _) hs.leaf fun _ => ⟨nd, hnd, fun hc => ?_, fun hl => absurd hl hleaf⟩,
          .insert (Subset.refl _)⟩
        rw [isComputed_of_isScalar hscalar] at hc
        cases hc
      · -- an operation: its operands first
        rename_i hscalar
        obtain ⟨s₁, hs₁, h⟩ := bind_eq_some_iff.1 h
        cases h
        have hdeps := (hwf id nd hnd).deps_lt
        obtain ⟨hinv, hadds⟩ := foldlM_emit_spec hdeps (fun _ _ _ => ih)
          (hs.insert hid.le (Subset.refl _) hs.leaf fun h => absurd h (lt_irrefl id)) hs₁
        have hcomputed := isComputed_of_not hleaf hscalar
        have hreads : Step.reads nodes sinks (.node id) = nd.deps := by rw [Step.reads, hnd]; rfl
        have hsub : s₁.steps ⊆ s₁.steps ++ [.node id] := subset_append_left _ _
        have hnew : .node id ∉ s₁.steps := by
          intro hx
          rcases hadds.newSteps id hx with hx | ⟨d, hd, hle⟩
          · exact hmem (hs.emitted id hx).1
          · exact absurd (hdeps d hd) (not_lt.2 hle)
        refine ⟨⟨fun a ha hlt => ?_, hinv.ordered.snoc fun a ha => ?_, fun x hx => ?_, hinv.leaf, ?_⟩,
          forall_mem_singleton.2 (hadds.emitted mem_cons_self), fun a ha => hadds.emitted (mem_cons_of_mem _ ha),
          hadds.leaves, fun a ha => hsub (hadds.steps ha), fun a ha => ?_, fun a ha => ?_, ?_⟩
        · by_cases haid : a = id
          · subst haid
            exact ⟨nd, hnd, fun _ => by simp, fun hl => absurd hl hleaf⟩
          · rcases lt_or_ge a id with halt | hage
            · exact (hinv.ready a ha halt).mono (Subset.refl _) hsub
            · rcases hadds.newEmitted a ha with ha | ⟨d, hd, hle⟩
              · rcases mem_cons.1 ha with rfl | ha
                · exact absurd rfl haid
                · exact (hs.ready a ha hlt).mono hadds.leaves fun x hx => hsub (hadds.steps hx)
              · exact absurd (hdeps d hd) (not_lt.2 (hage.trans hle))
        · rw [hreads] at ha
          exact hinv.ready a (hadds.mem a ha) (hdeps a ha)
        · rcases mem_append.1 hx with hx | hx
          · exact hinv.emitted x hx
          · cases mem_singleton.1 hx
            exact ⟨hadds.emitted mem_cons_self, by rw [isComputedAt, hnd]; exact hcomputed⟩
        · rw [filterMap_append]
          refine nodup_append'.2 ⟨hinv.nodup, nodup_singleton _, ?_⟩
          rintro x hx hx'
          cases mem_singleton.1 hx'
          obtain ⟨st, hst, hid'⟩ := mem_filterMap.1 hx
          cases st with
          | node y =>
            cases hid'
            exact hnew hst
          | sink i => cases hid'
        · rcases hadds.newEmitted a ha with ha | ⟨d, hd, hle⟩
          · exact (mem_cons.1 ha).symm.imp_right fun h => ⟨id, mem_singleton_self id, h.le⟩
          · exact .inr ⟨id, mem_singleton_self id, hle.trans (hdeps d hd).le⟩
        · rcases mem_append.1 ha with ha | ha
          · rcases hadds.newSteps a ha with ha | ⟨d, hd, hle⟩
            · exact .inl ha
            · exact .inr ⟨id, mem_singleton_self id, hle.trans (hdeps d hd).le⟩
          · cases mem_singleton.1 ha
            exact .inr ⟨id, mem_singleton_self id, le_rfl⟩
        · rw [filterMap_append, hadds.sinks]
          exact append_nil _

theorem emitSink_spec (hwf : NodesWF nodes) {sk : Sink E Nat} {i : Nat} (hi : sinks[i]? = some sk)
    (hsk : ∀ a ∈ sk.reads, a < nodes.length) (hs : s.Inv nodes n sinks nodes.length)
    (h : emitSink nodes n s (sk, i) = some s') :
    s'.Inv nodes n sinks nodes.length ∧ s'.steps.filterMap Step.sinkId = s.steps.filterMap Step.sinkId ++ [i] := by
  rw [emitSink] at h
  obtain ⟨s₁, hs₁, h⟩ := bind_eq_some_iff.1 h
  cases h
  obtain ⟨hinv, hadds⟩ := foldlM_emit_spec hsk (fun _ _ _ => emit_spec hwf) hs hs₁
  have hreads : Step.reads nodes sinks (.sink i) = sk.reads := by rw [Step.reads, hi]; rfl
  refine ⟨⟨fun a ha hlt => ?_, hinv.ordered.snoc fun a ha => ?_, fun x hx => ?_, hinv.leaf, ?_⟩, ?_⟩
  · exact (hinv.ready a ha hlt).mono (Subset.refl _) (subset_append_left _ _)
  · rw [hreads] at ha
    exact hinv.ready a (hadds.mem a ha) (hsk a ha)
  · rcases mem_append.1 hx with hx | hx
    · exact hinv.emitted x hx
    · cases mem_singleton.1 hx
  · rw [filterMap_append]
    exact (append_nil _).symm ▸ hinv.nodup
  · rw [filterMap_append, hadds.sinks]
    rfl

theorem schedule_spec (hwf : NodesWF nodes) {s : Schedule} (hsinks : ∀ sk ∈ sinks, ∀ a ∈ sk.reads, a < nodes.length)
    (h : schedule nodes n sinks = some s) :
    s.Inv nodes n sinks nodes.length ∧ s.steps.filterMap Step.sinkId = range sinks.length := by
  suffices H : ∀ (r : List (Sink E Nat)) (k : Nat) (s₀ : Schedule), sinks.drop k = r →
    s₀.Inv nodes n sinks nodes.length →
      s₀.steps.filterMap Step.sinkId = range k → (r.zipIdx k).foldlM (emitSink nodes n) s₀ = some s → k ≤ sinks.length →
      s.Inv nodes n sinks nodes.length ∧ s.steps.filterMap Step.sinkId = range sinks.length by
    refine H sinks 0 ⟨[], [], []⟩ rfl ⟨?_, ?_, ?_, ?_, nodup_nil⟩ rfl h (zero_le _)
    · exact fun a ha => absurd ha not_mem_nil
    · exact fun pre st post hsplit => absurd hsplit (by simp)
    · exact fun id hid => absurd hid not_mem_nil
    · exact fun id hid => absurd hid not_mem_nil
  intro r
  induction r with
  | nil =>
    intro k s₀ hdrop hs₀ hids hrun hk
    cases hrun
    have hlen : sinks.length ≤ k := drop_eq_nil_iff.1 hdrop
    rw [le_antisymm hlen hk]
    exact ⟨hs₀, hids⟩
  | cons sk r ih =>
    intro k s₀ hdrop hs₀ hids hrun hk
    rw [zipIdx_cons, foldlM_cons] at hrun
    obtain ⟨s₁, hs₁, hrun⟩ := bind_eq_some_iff.1 hrun
    have hget : sinks[k]? = some sk := by
      rw [← add_zero k, ← getElem?_drop, hdrop]
      rfl
    have hlt : k < sinks.length := (List.getElem?_eq_some_iff.1 hget).1
    obtain ⟨hinv, hids'⟩ := emitSink_spec hwf hget (hsinks sk (List.mem_of_getElem? hget)) hs₀ hs₁
    refine ih (k + 1) s₁ ?_ hinv ?_ hrun hlt
    · rw [drop_add_one_eq_tail_drop, hdrop]
      rfl
    · rw [hids', hids, range_succ]

/-! ### Scheduling succeeds -/

theorem exists_foldlM {α β : Type} {f : β → α → Option β} {l : List α}
    (h : ∀ a ∈ l, ∀ b, ∃ b', f b a = some b') (b : β) :
    ∃ b', l.foldlM f b = some b' := by
  induction l generalizing b with
  | nil => exact ⟨b, rfl⟩
  | cons a l ih =>
    obtain ⟨ha, hl⟩ := forall_mem_cons.1 h
    obtain ⟨b₁, hb₁⟩ := ha b
    obtain ⟨b₂, hb₂⟩ := ih hl b₁
    exact ⟨b₂, by rw [foldlM_cons, hb₁]; exact hb₂⟩

theorem exists_emit (hwf : NodesWF nodes) (hfits : ∀ nd ∈ nodes, nd.fits n = true) {fuel id : Nat} (hfuel : id < fuel)
    (hid : id < nodes.length) (s : Schedule) : ∃ s', emit nodes n fuel s id = some s' := by
  induction fuel generalizing id s with
  | zero => omega
  | succ fuel ih =>
    rw [emit]
    split
    · exact ⟨s, rfl⟩
    have hnd : nodes[id]? = some nodes[id] := getElem?_eq_getElem hid
    rw [hnd]
    change ∃ s', (if nodes[id].isLeaf then _ else _) = some s'
    split
    · rw [if_pos (hfits _ (getElem_mem hid))]
      exact ⟨_, rfl⟩
    · split
      · exact ⟨_, rfl⟩
      · have hdeps := (hwf id _ hnd).deps_lt
        obtain ⟨s₁, hs₁⟩ := exists_foldlM (f := emit nodes n fuel) (fun a ha s => ih (by have := hdeps a ha; omega)
          ((hdeps a ha).trans hid) s) { s with emitted := id :: s.emitted }
        exact ⟨_, by rw [hs₁]; rfl⟩

theorem exists_schedule (hwf : NodesWF nodes) (hfits : ∀ nd ∈ nodes, nd.fits n = true)
    (hsinks : ∀ sk ∈ sinks, ∀ a ∈ sk.reads, a < nodes.length) : ∃ s, schedule nodes n sinks = some s := by
  refine exists_foldlM (fun x hx s => ?_) _
  have hsk := hsinks x.1 (fst_mem_of_mem_zipIdx hx)
  obtain ⟨s₁, hs₁⟩ := exists_foldlM (f := emit nodes n nodes.length)
    (fun a ha s => exists_emit hwf hfits (hsk a ha) (hsk a ha) s) s
  exact ⟨_, by rw [emitSink, hs₁]; rfl⟩

end

end

/-! ### Registers are not overwritten -/

section

variable {nodes : List (Node F E)} {sinks : List (Sink E Nat)}

theorem lastUses_cases (s : Nat) (steps : List Step) (m : Nat → Nat) (a : Nat) :
    lastUses nodes sinks s steps m a = m a ∨ s ≤ lastUses nodes sinks s steps m a := by
  induction steps generalizing s m with
  | nil => exact .inl rfl
  | cons st steps ih =>
    rw [lastUses]
    rcases ih (s + 1) fun a => if a ∈ st.reads nodes sinks then s else m a with h | h
    · rw [h]
      split
      · exact .inr le_rfl
      · exact .inl rfl
    · exact .inr (by omega)

theorem le_lastUses (s : Nat) (pre post : List Step) (st : Step) (m : Nat → Nat) {a : Nat}
    (ha : a ∈ st.reads nodes sinks) :
    s + pre.length ≤ lastUses nodes sinks s (pre ++ st :: post) m a := by
  induction pre generalizing s m with
  | nil =>
    rw [nil_append, lastUses]
    rcases @lastUses_cases _ _ nodes sinks (s + 1) post
      (fun a => if a ∈ st.reads nodes sinks then s else m a) a with h | h
    · rw [h, if_pos ha]
      exact le_rfl
    · exact (le_succ s).trans h
  | cons st' pre ih =>
    rw [cons_append, lastUses, length_cons]
    have := ih (s + 1) fun a => if a ∈ st'.reads nodes sinks then s else m a
    omega

/-- A node that has been computed and is read in step `s` or later. -/
def LiveAt (lastUse : Nat → Nat) (pre : List Step) (a : Nat) : Prop := .node a ∈ pre ∧ pre.length ≤ lastUse a

/-- The registers of live nodes are not free, and those of two live nodes of one field differ. -/
structure Alloc.Inv (nodes : List (Node F E)) (al : Alloc) (live : Nat → Prop) : Prop where
  lt : ∀ a, live a → al.reg a < al.nb (isBaseAt nodes a)
  notFree : ∀ a, live a → al.reg a ∉ al.free (isBaseAt nodes a)
  inj : ∀ a b, live a → live b → isBaseAt nodes a = isBaseAt nodes b → al.reg a = al.reg b → a = b
  freeLt : ∀ f, ∀ r ∈ al.free f, r < al.nb f
  freeNodup : ∀ f, (al.free f).Nodup

variable {al : Alloc}

theorem Alloc.Inv.mono {live live' : Nat → Prop} (h : al.Inv nodes live) (hsub : ∀ a, live' a → live a) :
    al.Inv nodes live' :=
  ⟨fun a ha => h.lt a (hsub a ha), fun a ha => h.notFree a (hsub a ha),
    fun a b ha hb => h.inj a b (hsub a ha) (hsub b hb), h.freeLt,
    h.freeNodup⟩

theorem Alloc.take_spec {id : Nat} {κ : Bool} (hlt : ∀ f, ∀ r ∈ al.free f, r < al.nb f)
    (hnodup : ∀ f, (al.free f).Nodup) :
    (al.take id κ).reg id < (al.take id κ).nb κ ∧ (al.take id κ).reg id ∉ (al.take id κ).free κ ∧
      ((al.take id κ).reg id ∈ al.free κ ∨ al.nb κ ≤ (al.take id κ).reg id) ∧
        (∀ a, a ≠ id → (al.take id κ).reg a = al.reg a) ∧
      (∀ f, al.nb f ≤ (al.take id κ).nb f) ∧ ∀ f, ∃ l, al.free f = l ++ (al.take id κ).free f := by
  rw [Alloc.take]
  cases hfree : al.free κ with
  | cons r rest =>
    dsimp only
    have hr := hnodup κ
    rw [hfree, nodup_cons] at hr
    refine ⟨?_, ?_, ?_, fun a ha => update_of_ne ha _ _, fun f => le_rfl, fun f => ?_⟩
    · rw [update_self]
      exact hlt κ r (hfree ▸ mem_cons_self)
    · rw [update_self, update_self]
      exact hr.1
    · rw [update_self]
      exact .inl mem_cons_self
    · by_cases hf : f = κ
      · subst hf
        rw [update_self]
        exact ⟨[r], hfree⟩
      · rw [update_of_ne hf]
        exact ⟨[], rfl⟩
  | nil =>
    dsimp only
    refine ⟨?_, ?_, ?_, fun a ha => update_of_ne ha _ _, fun f => ?_, fun f => ⟨[], rfl⟩⟩
    · rw [update_self, update_self]
      exact lt_succ_self _
    · rw [hfree]
      exact not_mem_nil
    · rw [update_self]
      exact .inr le_rfl
    · by_cases hf : f = κ
      · subst hf
        rw [update_self]
        exact le_succ _
      · rw [update_of_ne hf]

variable {live : Nat → Prop}

/-- Taking a register for a node that is not live: its register is that of no live node. -/
theorem Alloc.Inv.take (h : al.Inv nodes live) {id : Nat} (hid : ¬ live id) :
    (al.take id (isBaseAt nodes id)).Inv nodes (fun a => live a ∨ a = id) ∧
      ∀ a, live a → isBaseAt nodes a = isBaseAt nodes id → al.reg a ≠ (al.take id (isBaseAt nodes id)).reg id := by
  obtain ⟨hlt, hnotfree, hfrom, hkeep, hnb, hfree⟩ := @Alloc.take_spec al id (isBaseAt nodes id) h.freeLt h.freeNodup
  have hsub : ∀ f, ∀ r ∈ (al.take id (isBaseAt nodes id)).free f, r ∈ al.free f := by
    intro f r hr
    obtain ⟨l, hl⟩ := hfree f
    exact hl ▸ mem_append_right _ hr
  have hne : ∀ a, live a → a ≠ id := fun a ha heq => hid (heq ▸ ha)
  have hdistinct : ∀ a, live a → isBaseAt nodes a = isBaseAt nodes id →
    al.reg a ≠ (al.take id (isBaseAt nodes id)).reg id := by
    intro a ha hbase heq
    rcases hfrom with hmem | hge
    · exact h.notFree a ha (hbase ▸ heq ▸ hmem)
    · have := h.lt a ha
      rw [hbase] at this
      omega
  refine ⟨⟨?_, ?_, ?_, fun f r hr => (h.freeLt f r (hsub f r hr)).trans_le (hnb f), fun f => ?_⟩, hdistinct⟩
  · rintro a (ha | rfl)
    · rw [hkeep a (hne a ha)]
      exact (h.lt a ha).trans_le (hnb _)
    · exact hlt
  · rintro a (ha | rfl)
    · rw [hkeep a (hne a ha)]
      exact fun hmem => h.notFree a ha (hsub _ _ hmem)
    · exact hnotfree
  · rintro a b (ha | rfl) (hb | rfl) hbase heq
    · rw [hkeep a (hne a ha), hkeep b (hne b hb)] at heq
      exact h.inj a b ha hb hbase heq
    · rw [hkeep a (hne a ha)] at heq
      exact absurd heq (hdistinct a ha hbase)
    · rw [hkeep b (hne b hb)] at heq
      exact absurd heq.symm (hdistinct b hb hbase.symm)
    · rfl
  · obtain ⟨l, hl⟩ := hfree f
    have hnodup := h.freeNodup f
    rw [hl] at hnodup
    exact hnodup.of_append_right

theorem Alloc.Inv.release (h : al.Inv nodes live) {id : Nat}
    (hid : isComputedAt nodes id = true → live id) :
    (al.release nodes id).Inv nodes (fun a => live a ∧ a ≠ id) := by
  rw [Alloc.release]
  split
  · rename_i hcomputed
    have hlive := hid hcomputed
    refine ⟨fun a ha => h.lt a ha.1, fun a ha => ?_, fun a b ha hb => h.inj a b ha.1 hb.1,
      fun f r hr => ?_, fun f => ?_⟩
    · dsimp only
      by_cases hbase : isBaseAt nodes a = isBaseAt nodes id
      · rw [hbase, update_self, mem_cons, not_or]
        exact ⟨fun heq => ha.2 (h.inj a id ha.1 hlive hbase heq), hbase ▸ h.notFree a ha.1⟩
      · rw [update_of_ne hbase]
        exact h.notFree a ha.1
    · dsimp only at hr ⊢
      by_cases hf : f = isBaseAt nodes id
      · subst hf
        rw [update_self] at hr
        rcases mem_cons.1 hr with rfl | hr
        · exact h.lt id hlive
        · exact h.freeLt _ r hr
      · rw [update_of_ne hf] at hr
        exact h.freeLt f r hr
    · dsimp only
      by_cases hf : f = isBaseAt nodes id
      · subst hf
        rw [update_self]
        exact nodup_cons.2 ⟨h.notFree id hlive, h.freeNodup _⟩
      · rw [update_of_ne hf]
        exact h.freeNodup f
  · exact h.mono fun a ha => ha.1

theorem Alloc.release_keeps (al : Alloc) (id : Nat) : (al.release nodes id).reg = al.reg ∧
    (al.release nodes id).nb = al.nb := by
  rw [Alloc.release]
  split <;> exact ⟨rfl, rfl⟩

theorem Alloc.foldl_release_keeps (l : List Nat) (al : Alloc) :
    (l.foldl (Alloc.release nodes) al).reg = al.reg ∧ (l.foldl (Alloc.release nodes) al).nb = al.nb := by
  induction l generalizing al with
  | nil => exact ⟨rfl, rfl⟩
  | cons id l ih =>
    obtain ⟨hreg, hnb⟩ := @Alloc.release_keeps _ _ nodes al id
    rw [foldl_cons, (ih _).1, (ih _).2, hreg, hnb]
    exact ⟨rfl, rfl⟩

theorem Alloc.Inv.foldl_release (h : al.Inv nodes live) {l : List Nat} (hnodup : l.Nodup)
    (hl : ∀ a ∈ l, isComputedAt nodes a = true → live a) :
    (l.foldl (Alloc.release nodes) al).Inv nodes (fun a => live a ∧ a ∉ l) := by
  induction l generalizing al live with
  | nil => exact h.mono fun a ha => ha.1
  | cons id l ih =>
    obtain ⟨hid, hnodup⟩ := nodup_cons.1 hnodup
    obtain ⟨hfirst, hl⟩ := forall_mem_cons.1 hl
    rw [foldl_cons]
    refine (ih (h.release hfirst) hnodup fun a ha hc => ⟨hl a ha hc, ?_⟩).mono fun a ha => ?_
    · rintro rfl
      exact hid ha
    · rw [mem_cons, not_or] at ha
      exact ⟨⟨ha.1, ha.2.1⟩, ha.2.2⟩

section

variable {lastUse : Nat → Nat} {pre : List Step} {st : Step} {al al' : Alloc}

/-- What one step does to the registers. -/
theorem allocStep_spec (hal' : allocStep nodes sinks lastUse pre.length st al = al')
    (h : al.Inv nodes (LiveAt lastUse pre)) (hnew : ∀ id, st = .node id → .node id ∉ pre)
    (hreads : ∀ a ∈ st.reads nodes sinks, isComputedAt nodes a = true → LiveAt lastUse pre a) :
    al'.Inv nodes (LiveAt lastUse (pre ++ [st])) ∧ (∀ a, .node a ∈ pre → al'.reg a = al.reg a) ∧
      (∀ f, al.nb f ≤ al'.nb f) ∧
      ∀ id, st = .node id → al'.reg id < al'.nb (isBaseAt nodes id) ∧
        ∀ a, LiveAt lastUse pre a → isBaseAt nodes a = isBaseAt nodes id → al.reg a ≠ al'.reg id := by
  subst hal'
  have hlive : ∀ {live : Nat → Prop}, (∀ a, LiveAt lastUse (pre ++ [st]) a → live a) →
      ∀ a, LiveAt lastUse (pre ++ [st]) a →
        live a ∧ a ∉ (st.reads nodes sinks).dedup.filter fun a => lastUse a = pre.length := by
    intro live hsub a ha
    refine ⟨hsub a ha, fun hmem => ?_⟩
    have hle := ha.2
    rw [length_append, length_singleton] at hle
    have := (mem_filter.1 hmem).2
    rw [decide_eq_true_eq] at this
    omega
  have hmemreads : ∀ a ∈ (st.reads nodes sinks).dedup.filter fun a => lastUse a = pre.length,
    a ∈ st.reads nodes sinks :=
    fun a ha => mem_dedup.1 (mem_of_mem_filter ha)
  have hnodup := ((nodup_dedup (st.reads nodes sinks)).filter fun a => decide (lastUse a = pre.length))
  cases st with
  | sink i =>
    rw [allocStep]
    obtain ⟨hreg, hnb⟩ := @Alloc.foldl_release_keeps _ _ nodes
      ((Step.reads nodes sinks (.sink i)).dedup.filter fun a => lastUse a = pre.length) al
    refine ⟨(h.foldl_release hnodup fun a ha hc => hreads a (hmemreads a ha) hc).mono
      (hlive fun a ha => ⟨?_, ?_⟩), ?_, ?_, ?_⟩
    · exact (mem_append.1 ha.1).resolve_right fun hx => by cases mem_singleton.1 hx
    · have := ha.2
      rw [length_append] at this
      omega
    · intro a _
      rw [hreg]
    · intro f
      rw [hnb]
    · intro id hid
      cases hid
  | node id =>
    rw [allocStep]
    have hid : ¬ LiveAt lastUse pre id := fun hl => hnew id rfl hl.1
    obtain ⟨htake, hdistinct⟩ := h.take hid
    obtain ⟨hlt, -, -, hkeep, hnbtake, -⟩ := @Alloc.take_spec al id (isBaseAt nodes id) h.freeLt h.freeNodup
    obtain ⟨hreg, hnb⟩ := @Alloc.foldl_release_keeps _ _ nodes
      ((Step.reads nodes sinks (.node id)).dedup.filter fun a => lastUse a = pre.length)
        (al.take id (isBaseAt nodes id))
    rw [hreg, hnb]
    refine ⟨(htake.foldl_release hnodup fun a ha hc => .inl (hreads a (hmemreads a ha) hc)).mono
      (hlive fun a ha => ?_), ?_, hnbtake,
      ?_⟩
    · have hle := ha.2
      rw [length_append] at hle
      rcases mem_append.1 ha.1 with hx | hx
      · exact .inl ⟨hx, by omega⟩
      · cases mem_singleton.1 hx
        exact .inr rfl
    · intro a ha
      refine hkeep a ?_
      rintro rfl
      exact hnew a rfl ha
    · intro x hx
      cases hx
      exact ⟨hlt, hdistinct⟩

/-- No step writes into the register of a node that is read in this step or later. -/
theorem allocate_spec {rest : List Step} (hal' : allocate nodes sinks lastUse pre.length rest al = al')
    (hnodup : ((pre ++ rest).filterMap Step.nodeId).Nodup)
    (hreads : ∀ pre' st post', rest = pre' ++ st :: post' → ∀ a ∈ st.reads nodes sinks, isComputedAt nodes a = true →
      LiveAt lastUse (pre ++ pre') a)
    (h : al.Inv nodes (LiveAt lastUse pre)) :
    (∀ a, .node a ∈ pre → al'.reg a = al.reg a) ∧ (∀ f, al.nb f ≤ al'.nb f) ∧
      ∀ pre' id post', rest = pre' ++ .node id :: post' → al'.reg id < al'.nb (isBaseAt nodes id) ∧
        ∀ a, LiveAt lastUse (pre ++ pre') a → isBaseAt nodes a = isBaseAt nodes id → al'.reg a ≠ al'.reg id := by
  induction rest generalizing pre al with
  | nil =>
    subst hal'
    refine ⟨fun a _ => rfl, fun f => le_rfl, fun pre' id post' hsplit => ?_⟩
    exact absurd hsplit (by simp)
  | cons st rest ih =>
    rw [allocate, show pre.length + 1 = (pre ++ [st]).length by simp] at hal'
    have hnew : ∀ id, st = .node id → .node id ∉ pre := by
      rintro id rfl hmem
      rw [filterMap_append, filterMap_cons] at hnodup
      exact (nodup_append'.1 hnodup).2.2 (mem_filterMap.2 ⟨_, hmem, rfl⟩) mem_cons_self
    obtain ⟨hinv, hkeep, hnb, hnode⟩ := allocStep_spec rfl h hnew fun a ha hc => by
      have := hreads [] st rest rfl a ha hc
      rwa [append_nil] at this
    obtain ⟨hkeep', hnb', hnode'⟩ := ih hal' (by rwa [append_assoc])
      (fun pre' st' post' hsplit a ha hc => by
      have := hreads (st :: pre') st' post' (by rw [hsplit]; rfl) a ha hc
      rwa [append_cons] at this) hinv
    refine ⟨fun a ha => ?_, fun f => (hnb f).trans (hnb' f), fun pre' id post' hsplit => ?_⟩
    · rw [hkeep' a (mem_append_left _ ha), hkeep a ha]
    · rcases pre' with _ | ⟨st', pre'⟩
      · obtain ⟨hst, -⟩ := List.cons.inj hsplit
        obtain ⟨hlt, hdistinct⟩ := hnode id hst
        have hid := hkeep' id (mem_append_right _ (hst ▸ mem_singleton_self st))
        refine ⟨hid ▸ hlt.trans_le (hnb' _), fun a ha hbase => ?_⟩
        rw [append_nil] at ha
        rw [hid, hkeep' a (mem_append_left _ ha.1), hkeep a ha.1]
        exact hdistinct a ha hbase
      · obtain ⟨rfl, hrest⟩ := List.cons.inj hsplit
        rw [append_cons pre st pre']
        exact hnode' pre' id post' hrest

end

end

/-! ### Compiled programs -/

structure Program.Compiled (p : Program F E) (b : Builder F E) (n ratio cosetStep : Nat) : Prop where
  nodes : p.nodes = b.nodes
  sinks : p.sinks = b.sinks
  points : p.n = n ∧ p.ratio = ratio ∧ p.stride = cosetStep * n
  ordered : OrderedSteps p.nodes p.sinks p.leaves p.steps
  sinkSteps : p.steps.filterMap Step.sinkId = range p.sinks.length
  leaves : ∀ id ∈ p.leaves, ∃ nd, p.nodes[id]? = some nd ∧ nd.isLeaf = true ∧ nd.fits n = true
  computed : ∀ id, .node id ∈ p.steps → isComputedAt p.nodes id = true
  /-- The registers of the nodes that are read in a step or later. -/
  registers : ∃ lastUse : Nat → Nat,
    (∀ pre st post, p.steps = pre ++ st :: post → ∀ a ∈ st.reads p.nodes p.sinks, pre.length ≤ lastUse a) ∧
    ∀ pre id post, p.steps = pre ++ .node id :: post → p.reg id < p.nb (isBaseAt p.nodes id) ∧
      ∀ a, LiveAt lastUse pre a → isBaseAt p.nodes a = isBaseAt p.nodes id → p.reg a ≠ p.reg id

theorem compile_spec {b : Builder F E} (hwf : NodesWF b.nodes)
    (hsinks : ∀ sk ∈ b.sinks, ∀ a ∈ sk.reads, a < b.nodes.length)
    {n ratio cosetStep : Nat} {p : Program F E} (h : b.compile n ratio cosetStep = some p) :
    p.Compiled b n ratio cosetStep := by
  rw [Builder.compile] at h
  obtain ⟨s, hs, h⟩ := bind_eq_some_iff.1 h
  cases h
  obtain ⟨hinv, hids⟩ := schedule_spec hwf hsinks hs
  have hle : ∀ pre st post, s.steps = pre ++ st :: post → ∀ a ∈ st.reads b.nodes b.sinks,
      pre.length ≤ lastUses b.nodes b.sinks 0 s.steps (fun _ => 0) a := by
    intro pre st post hsplit a ha
    have := @le_lastUses _ _ b.nodes b.sinks 0 pre post st (fun _ => 0) a ha
    rwa [zero_add, ← hsplit] at this
  refine ⟨rfl, rfl, ⟨rfl, rfl, rfl⟩, hinv.ordered, hids, hinv.leaf, fun id hid => (hinv.emitted id hid).2, _, hle, ?_⟩
  refine (@allocate_spec _ _ b.nodes b.sinks _ [] _ _ _ rfl hinv.nodup ?_ ?_).2.2
  · intro pre st post hsplit a ha hc
    obtain ⟨nd, hnd, hcomputed, -⟩ := hinv.ordered pre st post hsplit a ha
    refine ⟨hcomputed ?_, hle pre st post hsplit a ha⟩
    rw [isComputedAt, hnd] at hc
    exact hc
  · have hno : ∀ a, ¬ LiveAt (lastUses b.nodes b.sinks 0 s.steps fun _ => 0) [] a := fun a ha => absurd ha.1 not_mem_nil
    exact ⟨fun a ha => absurd ha (hno a), fun a ha => absurd ha (hno a), fun a b ha => absurd ha (hno a),
      fun f r hr => absurd hr not_mem_nil, fun f => nodup_nil⟩

end Lineth.Vecprog
