import Mathlib.Algebra.BigOperators.Ring.List
import Mathlib.Tactic.Ring
import Lineth.Vecprog.Builder

/-!
# The builder keeps the values of expressions

A handle names a node whose value at every point is that of the expression it was given out for. -/

namespace Lineth.Vecprog

open List

variable {F E : Type}

/-! ### Operands -/

theorem forall₂_of_mapM {nodes : List (Node F E)} {args : List Nat} {operands : List (Node F E)}
    (h : (args.mapM fun a => nodes[a]?) = some operands) :
    List.Forall₂ (fun a n => nodes[a]? = some n) args operands := by
  induction args generalizing operands with
  | nil =>
    cases h
    exact .nil
  | cons a args ih =>
    rw [mapM_cons] at h
    obtain ⟨n, hn, h⟩ := Option.bind_eq_some_iff.1 h
    obtain ⟨ns, hns, h⟩ := Option.bind_eq_some_iff.1 h
    cases h
    exact .cons hn (ih hns)

theorem map_eq_of_forall₂ {K : Type} {nodes : List (Node F E)} {args : List Nat}
    {operands : List (Node F E)} {f : Node F E → K}
    {g : Nat → K} (h : List.Forall₂ (fun a n => nodes[a]? = some n) args operands)
    (hfg : ∀ a, ∀ n ∈ operands, nodes[a]? = some n → f n = g a) : operands.map f = args.map g := by
  induction h with
  | nil => rfl
  | cons hn _ ih =>
    rw [map_cons, map_cons, hfg _ _ mem_cons_self hn, ih fun a n hmem => hfg a n (mem_cons_of_mem _ hmem)]

theorem exists_mem_right {α β : Type} {R : α → β → Prop} {l : List α} {r : List β}
    (h : List.Forall₂ R l r) {a : α} (ha : a ∈ l) :
    ∃ b ∈ r, R a b := by
  induction h with
  | nil => cases ha
  | cons hab _ ih =>
    rcases mem_cons.1 ha with rfl | ha
    · exact ⟨_, mem_cons_self, hab⟩
    · obtain ⟨b, hb, hR⟩ := ih ha
      exact ⟨b, mem_cons_of_mem _ hb, hR⟩

variable [Field F] [Field E] [Algebra F E]

/-! ### Operators in both fields -/

theorem algebraMap_apply (o : Op) (xs : List F) :
    algebraMap F E (o.apply xs) = o.apply (xs.map (algebraMap F E)) := by
  rcases xs with _ | ⟨x, _ | ⟨y, _ | ⟨z, l⟩⟩⟩ <;> cases o <;> simp [Op.apply]

/-! ### Linear forms -/

section

variable (v : Nat → E)

def termsSum (terms : List (Nat × E)) : E := (terms.map fun t => t.2 * v t.1).sum

def LinForm.eval (l : LinForm E) : E := l.c + termsSum v l.terms

@[simp] theorem termsSum_nil : termsSum v [] = 0 := rfl

@[simp] theorem termsSum_cons (t : Nat × E) (terms : List (Nat × E)) :
    termsSum v (t :: terms) = t.2 * v t.1 + termsSum v terms := by
  rw [termsSum, map_cons, sum_cons]
  rfl

theorem termsSum_mergeTerms (l r : List (Nat × E)) : termsSum v (mergeTerms l r) = termsSum v l + termsSum v r := by
  induction l, r using mergeTerms.induct with
  | case1 r => rw [mergeTerms, termsSum_nil, zero_add]
  | case2 l hl =>
    rw [mergeTerms, termsSum_nil, add_zero]
    exact hl
  | case3 a x l b y r hlt ih =>
    rw [mergeTerms, if_pos hlt, termsSum_cons, ih]
    simp only [termsSum_cons]
    ring
  | case4 a x l b y r hlt hgt ih =>
    rw [mergeTerms, if_neg hlt, if_pos hgt, termsSum_cons, ih]
    simp only [termsSum_cons]
    ring
  | case5 a x l b y r hlt hgt ih =>
    have hab : a = b := by omega
    subst hab
    rw [mergeTerms, if_neg hlt, if_neg hgt, termsSum_cons, ih]
    simp only [termsSum_cons]
    ring

theorem LinForm.eval_plus (l r : LinForm E) : (l.plus r).eval v = l.eval v + r.eval v := by
  rw [eval, eval, eval, plus, termsSum_mergeTerms]
  ring

theorem LinForm.eval_scale (l : LinForm E) (s : E) : (l.scale s).eval v = l.eval v * s := by
  have hterms : termsSum v (l.terms.map fun t => (t.1, t.2 * s)) = termsSum v l.terms * s := by
    induction l.terms with
    | nil => rw [map_nil, termsSum_nil, zero_mul]
    | cons t terms ih =>
      rw [map_cons, termsSum_cons, ih, termsSum_cons]
      ring
  rw [eval, eval, scale, hterms, add_mul]

theorem termsSum_filter [DecidableEq E] (terms : List (Nat × E)) :
    termsSum v (terms.filter fun t => t.2 ≠ 0) = termsSum v terms := by
  induction terms with
  | nil => rfl
  | cons t terms ih =>
    by_cases ht : t.2 = 0
    · rw [filter_cons_of_neg (by simpa using ht), ih, termsSum_cons, ht, zero_mul, zero_add]
    · rw [filter_cons_of_pos (by simpa using ht), termsSum_cons, ih, termsSum_cons]

end

/-! ### Nodes that are well formed -/

omit [Field F] [Field E] [Algebra F E] in
def IsAtom (nodes : List (Node F E)) (a : Nat) : Prop := ∃ n, nodes[a]? = some n ∧ n.isBase = true ∧ n.isScalar = false

/-- The node at position `id` reads nodes before it, base-valued ones if it is base-valued. -/
def Node.WF (nodes : List (Node F E)) (id : Nat) : Node F E → Prop
  | op isBase o args => args.length = o.arity ∧ (∀ a ∈ args, a < id) ∧
      (isBase = true → ∀ a ∈ args, ∃ n, nodes[a]? = some n ∧ n.isBase = true) ∧
        ∃ a ∈ args, ∃ n, nodes[a]? = some n ∧ n.isScalar = false
  | linear _ terms => ∀ t ∈ terms, t.1 < id ∧ IsAtom nodes t.1
  | _ => True

def NodesWF (nodes : List (Node F E)) : Prop := ∀ (id : Nat) (n : Node F E), nodes[id]? = some n → n.WF nodes id

section

variable {nodes nodes' : List (Node F E)} {n : Node F E} {id a : Nat}

omit [Field F] [Field E] [Algebra F E]

theorem getElem?_of_prefix (h : nodes <+: nodes') (ha : nodes[a]? = some n) : nodes'[a]? = some n := by
  obtain ⟨l, rfl⟩ := h
  rw [List.getElem?_append_left (List.getElem?_eq_some_iff.1 ha).1, ha]

theorem Node.WF.deps_lt (h : n.WF nodes id) : ∀ a ∈ n.deps, a < id := by
  cases n with
  | op isBase o args => exact h.2.1
  | linear s terms =>
    intro a ha
    obtain ⟨t, ht, rfl⟩ := mem_map.1 ha
    exact (h t ht).1
  | _ => exact fun a ha => absurd ha not_mem_nil

theorem Node.WF.mono (hp : nodes <+: nodes') (h : n.WF nodes id) : n.WF nodes' id := by
  cases n with
  | op isBase o args =>
    obtain ⟨harity, hlt, hbase, a, ha, m, hm, hscalar⟩ := h
    refine ⟨harity, hlt, fun hb a ha => ?_, a, ha, m, getElem?_of_prefix hp hm, hscalar⟩
    obtain ⟨m, hm, hmb⟩ := hbase hb a ha
    exact ⟨m, getElem?_of_prefix hp hm, hmb⟩
  | linear s terms =>
    intro t ht
    obtain ⟨hlt, m, hm, hmb⟩ := h t ht
    exact ⟨hlt, m, getElem?_of_prefix hp hm, hmb⟩
  | _ => trivial

theorem NodesWF.append (h : NodesWF nodes) (hn : n.WF nodes nodes.length) : NodesWF (nodes ++ [n]) := by
  intro id m hm
  rcases Nat.lt_or_ge id nodes.length with hid | hid
  · rw [List.getElem?_append_left hid] at hm
    exact (h id m hm).mono (prefix_append _ _)
  · have hlt := (List.getElem?_eq_some_iff.1 hm).1
    rw [List.length_append, List.length_singleton] at hlt
    obtain rfl : id = nodes.length := by omega
    rw [getElem?_append_right le_rfl, Nat.sub_self] at hm
    cases hm
    exact hn.mono (prefix_append _ _)

end

section

variable {env : Env F E} {p : Point} {nodes nodes' : List (Node F E)} {n : Node F E} {id : Nat}

theorem Node.eval_congr {v w : Nat → Value F E} (h : ∀ a ∈ n.deps, v a = w a) : n.eval env p v = n.eval env p w := by
  cases n with
  | op isBase o args =>
    cases isBase with
    | true =>
      have hargs : ∀ a ∈ args, (v a).toBase = (w a).toBase := fun a ha => congrArg Value.toBase (h a ha)
      rw [eval, eval, map_congr_left hargs]
    | false =>
      have hargs : ∀ a ∈ args, (v a).toExt = (w a).toExt := fun a ha => congrArg Value.toExt (h a ha)
      rw [eval, eval, map_congr_left hargs]
  | linear s terms =>
    have hterms : ∀ t ∈ terms, t.2 * (v t.1).toExt = t.2 * (w t.1).toExt :=
      fun t ht => by rw [h t.1 (mem_map_of_mem ht)]
    rw [eval, eval, map_congr_left hterms]
  | _ => rfl

theorem value_eq (h : NodesWF nodes) (hn : nodes[id]? = some n) :
    value env p nodes id = n.eval env p (value env p nodes) :=
  Straightline.value_eq hn fun _ _ hfg => Node.eval_congr fun a ha => hfg a ((h id n hn).deps_lt a ha)

theorem value_stable (hp : nodes <+: nodes') (hid : id < nodes.length) :
    value env p nodes' id = value env p nodes id := by
  obtain ⟨l, rfl⟩ := hp
  exact Straightline.value_append hid

theorem value_isBase (h : NodesWF nodes) (hn : nodes[id]? = some n) (hb : n.isBase = true) :
    value env p nodes id = .base (value env p nodes id).toBase := by
  rw [value_eq h hn]
  cases n with
  | op isBase o args =>
    cases hb
    rfl
  | scalarExt s => cases hb
  | vecExt table offset padding => cases hb
  | linear s terms => cases hb
  | _ => rfl

theorem toExt_of_isBase (h : NodesWF nodes) (hn : nodes[id]? = some n) (hb : n.isBase = true) :
    (value env p nodes id).toExt = algebraMap F E (value env p nodes id).toBase := by
  conv_lhs => rw [value_isBase h hn hb]
  rfl

end

namespace Builder

/-- What every call of the builder keeps. -/
structure Extends (b b' : Builder F E) : Prop where
  nodes : b.nodes <+: b'.nodes
  sinks : b'.sinks = b.sinks
  wf : NodesWF b'.nodes

/-- A node that has the value of `f` at every point. -/
def Holds (b : Builder F E) (id : Nat) (f : Env F E → Point → E) : Prop :=
  id < b.nodes.length ∧ ∀ env p, (value env p b.nodes id).toExt = f env p

variable {b b' : Builder F E} {id : Nat}

theorem Holds.mono {f : Env F E → Point → E} (h : b.Holds id f) (hext : b.Extends b') : b'.Holds id f :=
  ⟨h.1.trans_le hext.nodes.length_le, fun env p => by rw [value_stable hext.nodes h.1, h.2]⟩

theorem Holds.congr {f g : Env F E → Point → E} (h : b.Holds id f) (hfg : ∀ env p, f env p = g env p) : b.Holds id g :=
  ⟨h.1, fun env p => (h.2 env p).trans (hfg env p)⟩

/-! ### Linear forms of nodes -/

def extValues (env : Env F E) (p : Point) (nodes : List (Node F E)) (a : Nat) : E := (value env p nodes a).toExt

variable {n : Node F E}

section

variable (hb : NodesWF b.nodes) (hn : b.nodes[id]? = some n)

include hb hn

theorem scalarValue_eq (hscalar : n.isScalar = true)
    (env : Env F E) (p : Point) : scalarValue n = extValues env p b.nodes id := by
  rw [extValues, value_eq hb hn]
  cases n with
  | scalarBase s => rfl
  | scalarExt s => rfl
  | _ => cases hscalar

theorem baseScalarValue_eq (hscalar : n.isScalar = true) (hbase : n.isBase = true) (env : Env F E) (p : Point) :
    algebraMap F E (baseScalarValue n) = extValues env p b.nodes id := by
  rw [extValues, value_eq hb hn]
  cases n with
  | scalarBase s => rfl
  | scalarExt s => cases hbase
  | _ => cases hscalar

theorem linForm_spec (hlin : n.linearizable = true) :
    (∀ t ∈ (linForm id n).terms, IsAtom b.nodes t.1) ∧
      ∀ env p, (linForm id n).eval (extValues env p b.nodes) = extValues env p b.nodes id := by
  by_cases hscalar : n.isScalar = true
  · have hform : linForm id n = ⟨scalarValue n, []⟩ := by
      cases n with
      | scalarBase s => rfl
      | scalarExt s => rfl
      | _ => cases hscalar
    rw [hform]
    refine ⟨forall_mem_nil _, fun env p => ?_⟩
    rw [LinForm.eval, termsSum_nil, add_zero]
    exact scalarValue_eq hb hn hscalar env p
  · have hatom (env : Env F E) (p : Point) :
        LinForm.eval (extValues env p b.nodes) ⟨0, [(id, 1)]⟩ = extValues env p b.nodes id := by
      rw [LinForm.eval, termsSum_cons, termsSum_nil, one_mul, zero_add, add_zero]
    cases n with
    | linear s terms =>
      refine ⟨fun t ht => (hb id _ hn t ht).2, fun env p => ?_⟩
      rw [extValues, value_eq hb hn]
      rfl
    | scalarBase s => exact absurd rfl hscalar
    | scalarExt s => exact absurd rfl hscalar
    | vecExt table offset padding => cases hlin
    | vecBase table offset padding => exact ⟨forall_mem_singleton.2 ⟨_, hn, rfl, rfl⟩, fun env p => hatom env p⟩
    | op isBase o args =>
      cases isBase with
      | false => cases hlin
      | true => exact ⟨forall_mem_singleton.2 ⟨_, hn, rfl, rfl⟩, fun env p => hatom env p⟩

end

theorem mem_mergeTerms {P : Nat → Prop} {l r : List (Nat × E)} (hl : ∀ t ∈ l, P t.1) (hr : ∀ t ∈ r, P t.1) :
    ∀ t ∈ mergeTerms l r, P t.1 := by
  induction l, r using mergeTerms.induct with
  | case1 r => rwa [mergeTerms]
  | case2 l hne =>
    rw [mergeTerms]
    · exact hl
    · exact hne
  | case3 a x l b y r hlt ih =>
    rw [mergeTerms, if_pos hlt]
    obtain ⟨ha, hl⟩ := forall_mem_cons.1 hl
    exact forall_mem_cons.2 ⟨ha, ih hl hr⟩
  | case4 a x l b y r hlt hgt ih =>
    rw [mergeTerms, if_neg hlt, if_pos hgt]
    obtain ⟨hb, hr⟩ := forall_mem_cons.1 hr
    exact forall_mem_cons.2 ⟨hb, ih hl hr⟩
  | case5 a x l b y r hlt hgt ih =>
    rw [mergeTerms, if_neg hlt, if_neg hgt]
    obtain ⟨ha, hl⟩ := forall_mem_cons.1 hl
    exact forall_mem_cons.2 ⟨ha, ih hl (forall_mem_cons.1 hr).2⟩

variable {l : LinForm E}

theorem mem_scale {P : Nat → Prop} (hl : ∀ t ∈ l.terms, P t.1) (s : E) : ∀ t ∈ (l.scale s).terms, P t.1 := by
  intro t ht
  obtain ⟨t', ht', rfl⟩ := mem_map.1 ht
  exact hl t' ht'

theorem scale_spec (hb : NodesWF b.nodes) {x : Nat × Node F E} (hx : b.nodes[x.1]? = some x.2)
    (hlin : x.2.linearizable = true) (s : E) :
    (∀ t ∈ ((linForm x.1 x.2).scale s).terms, IsAtom b.nodes t.1) ∧
      ∀ env p, ((linForm x.1 x.2).scale s).eval (extValues env p b.nodes) = extValues env p b.nodes x.1 * s := by
  obtain ⟨hatoms, heval⟩ := linForm_spec hb hx hlin
  exact ⟨mem_scale hatoms s, fun env p => by rw [LinForm.eval_scale, heval]⟩

theorem redistribute_spec (hb : NodesWF b.nodes) {o : Op} {operands : List (Nat × Node F E)}
    (hoperands : ∀ x ∈ operands, b.nodes[x.1]? = some x.2) (hl : redistribute o operands = some l) :
    (∀ t ∈ l.terms, IsAtom b.nodes t.1) ∧
      ∀ env p, l.eval (extValues env p b.nodes) = o.apply (operands.map fun x => extValues env p b.nodes x.1) := by
  rcases operands with _ | ⟨x, _ | ⟨y, _ | ⟨z, r⟩⟩⟩
  · cases o <;> cases hl
  · have hx := hoperands x mem_cons_self
    cases o with
    | negate =>
      obtain ⟨hlin, h⟩ := Option.ite_none_right_eq_some.1 hl
      cases h
      obtain ⟨hatoms, heval⟩ := scale_spec hb hx hlin (-1)
      exact ⟨hatoms, fun env p => (heval env p).trans (mul_neg_one _)⟩
    | double =>
      obtain ⟨hlin, h⟩ := Option.ite_none_right_eq_some.1 hl
      cases h
      obtain ⟨hatoms, heval⟩ := scale_spec hb hx hlin (1 + 1)
      refine ⟨hatoms, fun env p => (heval env p).trans ?_⟩
      rw [mul_add, mul_one]
      rfl
    | _ => cases hl
  · have hx := hoperands x mem_cons_self
    have hy := hoperands y (mem_cons_of_mem _ mem_cons_self)
    cases o with
    | add =>
      obtain ⟨hlin, h⟩ := Option.ite_none_right_eq_some.1 hl
      cases h
      obtain ⟨hlx, hly⟩ := Bool.and_eq_true_iff.1 hlin
      obtain ⟨hatoms, heval⟩ := linForm_spec hb hx hlx
      obtain ⟨hatoms', heval'⟩ := linForm_spec hb hy hly
      refine ⟨mem_mergeTerms hatoms hatoms', fun env p => ?_⟩
      rw [LinForm.eval_plus, heval, heval']
      rfl
    | sub =>
      obtain ⟨hlin, h⟩ := Option.ite_none_right_eq_some.1 hl
      cases h
      obtain ⟨hlx, hly⟩ := Bool.and_eq_true_iff.1 hlin
      obtain ⟨hatoms, heval⟩ := linForm_spec hb hx hlx
      obtain ⟨hatoms', heval'⟩ := scale_spec hb hy hly (-1)
      refine ⟨mem_mergeTerms hatoms hatoms', fun env p => ?_⟩
      rw [LinForm.eval_plus, heval, heval', mul_neg_one, ← sub_eq_add_neg]
      rfl
    | mul =>
      rw [redistribute] at hl
      split at hl
      · rename_i hlin
        cases hl
        obtain ⟨hsx, hly⟩ := Bool.and_eq_true_iff.1 hlin
        obtain ⟨hatoms, heval⟩ := scale_spec hb hy hly (scalarValue x.2)
        refine ⟨hatoms, fun env p => (heval env p).trans ?_⟩
        rw [scalarValue_eq hb hx hsx env p, mul_comm]
        rfl
      · obtain ⟨hlin, h⟩ := Option.ite_none_right_eq_some.1 hl
        cases h
        obtain ⟨hsy, hlx⟩ := Bool.and_eq_true_iff.1 hlin
        obtain ⟨hatoms, heval⟩ := scale_spec hb hx hlx (scalarValue y.2)
        refine ⟨hatoms, fun env p => (heval env p).trans ?_⟩
        rw [scalarValue_eq hb hy hsy env p]
        rfl
    | _ => cases hl
  · cases o <;> cases hl

/-! ### Interning -/

variable [DecidableEq F] [DecidableEq E]

omit [Field F] [Field E] [Algebra F E] in
theorem intern_spec {b : Builder F E} (hb : NodesWF b.nodes) (hn : n.WF b.nodes b.nodes.length) :
    b.Extends (b.intern n).1 ∧ (b.intern n).1.nodes[(b.intern n).2]? = some n := by
  rw [intern]
  by_cases hmem : n ∈ b.nodes
  · rw [if_pos hmem]
    exact ⟨⟨prefix_rfl, rfl, hb⟩, getElem?_idxOf hmem⟩
  · rw [if_neg hmem]
    refine ⟨⟨prefix_append _ _, rfl, hb.append hn⟩, ?_⟩
    rw [getElem?_append_right le_rfl, Nat.sub_self]
    rfl

section

variable (hb : NodesWF b.nodes)

include hb

theorem intern_holds (hn : n.WF b.nodes b.nodes.length) :
    b.Extends (b.intern n).1 ∧ (b.intern n).1.Holds (b.intern n).2 fun env p =>
      (n.eval env p (value env p b.nodes)).toExt := by
  obtain ⟨hext, hid⟩ := intern_spec hb hn
  refine ⟨hext, (List.getElem?_eq_some_iff.1 hid).1, fun env p => ?_⟩
  rw [value_eq hext.wf hid, Node.eval_congr fun a ha => value_stable hext.nodes (hn.deps_lt a ha)]

theorem of_intern (hop : some (b.intern n) = some (b', id))
    (hn : n.WF b.nodes b.nodes.length) {f : Env F E → Point → E}
    (hf : ∀ env p, (n.eval env p (value env p b.nodes)).toExt = f env p) : b.Extends b' ∧ b'.Holds id f := by
  have h := intern_holds hb hn
  rw [Option.some.inj hop] at h
  exact ⟨h.1, h.2.congr hf⟩

theorem linear_holds (hl : ∀ t ∈ l.terms, IsAtom b.nodes t.1) :
    b.Extends (b.linear l).1 ∧ (b.linear l).1.Holds (b.linear l).2 fun env p => l.eval (extValues env p b.nodes) := by
  have hsum (env : Env F E) (p : Point) : l.eval (extValues env p b.nodes) =
      l.c + termsSum (extValues env p b.nodes) (l.terms.filter fun t => t.2 ≠ 0) := by
    rw [LinForm.eval, termsSum_filter]
  rw [linear]
  by_cases hnil : (l.terms.filter fun t => t.2 ≠ 0) = []
  · rw [if_pos hnil]
    obtain ⟨hext, hholds⟩ := intern_holds (n := .scalarExt l.c) hb trivial
    refine ⟨hext, hholds.congr fun env p => ?_⟩
    rw [hsum, hnil, termsSum_nil, add_zero]
    rfl
  · rw [if_neg hnil]
    have hwf : Node.WF b.nodes b.nodes.length (.linear l.c (l.terms.filter fun t => t.2 ≠ 0) : Node F E) := by
      intro t ht
      obtain ⟨m, hm, hbase⟩ := hl t (mem_of_mem_filter ht)
      exact ⟨(List.getElem?_eq_some_iff.1 hm).1, m, hm, hbase⟩
    obtain ⟨hext, hholds⟩ := intern_holds hb hwf
    refine ⟨hext, hholds.congr fun env p => ?_⟩
    rw [hsum]
    rfl

/-! ### Operations -/

theorem op_holds {o : Op} {args : List Nat} (hop : b.op o args = some (b', id)) :
    b.Extends b' ∧ b'.Holds id fun env p => o.apply (args.map fun a => extValues env p b.nodes a) := by
  rw [op] at hop
  split at hop
  · cases hop
  rename_i harity
  obtain ⟨operands, hoperands, hop⟩ := Option.bind_eq_some_iff.1 hop
  have hnodes := forall₂_of_mapM hoperands
  split at hop
  · rename_i hscalar
    rw [List.all_eq_true] at hscalar
    split at hop
    · -- base scalars
      rename_i hbase
      rw [List.all_eq_true] at hbase
      refine of_intern hb hop trivial fun env p => ?_
      change algebraMap F E (o.apply (operands.map baseScalarValue)) = _
      rw [algebraMap_apply, map_map]
      exact congrArg o.apply (map_eq_of_forall₂ hnodes fun a n hmem hn =>
        baseScalarValue_eq hb hn (hscalar n hmem) (hbase n hmem) env p)
    · refine of_intern hb hop trivial fun env p => ?_
      change o.apply (operands.map scalarValue) = _
      rw [map_eq_of_forall₂ hnodes fun a n hmem hn => scalarValue_eq hb hn (hscalar n hmem) env p]
  · rename_i hscalar
    have hlt : ∀ a ∈ args, a < b.nodes.length := fun a ha => by
      obtain ⟨n, -, hn⟩ := exists_mem_right hnodes ha
      exact (List.getElem?_eq_some_iff.1 hn).1
    have hvector : ∃ a ∈ args, ∃ n, b.nodes[a]? = some n ∧ n.isScalar = false := by
      rw [List.all_eq_true, not_forall] at hscalar
      obtain ⟨n, hn⟩ := hscalar
      rw [Classical.not_imp, Bool.not_eq_true] at hn
      obtain ⟨a, ha, han⟩ := exists_mem_right hnodes.flip hn.1
      exact ⟨a, ha, n, han, hn.2⟩
    have hwf (isBase : Bool) (hbase : isBase = true → ∀ n ∈ operands, n.isBase = true) :
        Node.WF b.nodes b.nodes.length (.op isBase o args : Node F E) := by
      refine ⟨by simpa using harity, hlt, fun h a ha => ?_, hvector⟩
      obtain ⟨n, hmem, hn⟩ := exists_mem_right hnodes ha
      exact ⟨n, hn, hbase h n hmem⟩
    split at hop
    · -- evaluated in the base field
      rename_i hbase
      rw [List.all_eq_true] at hbase
      refine of_intern hb hop (hwf true fun _ => hbase) fun env p => ?_
      change algebraMap F E (o.apply (args.map fun a => (value env p b.nodes a).toBase)) = _
      rw [algebraMap_apply, map_map]
      congr 1
      refine map_congr_left fun a ha => ?_
      obtain ⟨n, hmem, hn⟩ := exists_mem_right hnodes ha
      exact (toExt_of_isBase hb hn (hbase n hmem)).symm
    · split at hop
      · rename_i l hl
        have hzip : ∀ x ∈ args.zip operands, b.nodes[x.1]? = some x.2 := fun x hx => forall₂_zip hnodes hx
        obtain ⟨hatoms, heval⟩ := redistribute_spec hb hzip hl
        have h := linear_holds hb hatoms
        rw [show b.linear l = (b', id) from Option.some.inj hop] at h
        refine ⟨h.1, h.2.congr fun env p => ?_⟩
        have hfst : (args.zip operands).map Prod.fst = args := map_fst_zip hnodes.length_eq.le
        rw [heval]
        conv_rhs => rw [← hfst, map_map]
        rfl
      · exact of_intern hb hop (hwf false fun h => by cases h) fun _ _ => rfl

end

end Builder

/-! ### Runs -/

/-- What a run of the builder has led to. -/
structure Built (b : Builder F E) (hs : List (Nat × Expr F E)) (ds : List (Sink E (Expr F E))) : Prop where
  wf : NodesWF b.nodes
  handles : ∀ h ∈ hs, b.Holds h.1 fun env p => h.2.eval env p
  sinks : ∃ ss : List (Sink E (Nat × Expr F E)), b.sinks = ss.map (Sink.map Prod.fst) ∧
    ds = ss.map (Sink.map Prod.snd) ∧
    ∀ s ∈ ss, ∀ r ∈ s.reads, b.Holds r.1 fun env p => r.2.eval env p

section

variable {b b' : Builder F E} {hs : List (Nat × Expr F E)} {ds : List (Sink E (Expr F E))}

theorem Built.handle (h : Built b hs ds) {id : Nat} {e : Expr F E} (hext : b.Extends b')
    (hholds : b'.Holds id fun env p => e.eval env p) : Built b' ((id, e) :: hs) ds := by
  obtain ⟨ss, hsinks, hds, hreads⟩ := h.sinks
  exact ⟨hext.wf, forall_mem_cons.2 ⟨hholds, fun x hx => (h.handles x hx).mono hext⟩, ss, hext.sinks.trans hsinks, hds,
    fun s hs r hr => (hreads s hs r hr).mono hext⟩

variable [DecidableEq F] [DecidableEq E]

theorem Built.intern (h : Built b hs ds) {n : Node F E} (hn : n.WF b.nodes b.nodes.length) {e : Expr F E}
    (he : ∀ env p, (n.eval env p (value env p b.nodes)).toExt = e.eval env p) :
    Built (b.intern n).1 (((b.intern n).2, e) :: hs) ds := by
  obtain ⟨hext, hholds⟩ := Builder.of_intern h.wf rfl hn he
  exact h.handle hext hholds

theorem Builds.built (h : Builds b hs ds) : Built b hs ds := by
  induction h with
  | new =>
    refine ⟨fun id n hn => ?_, forall_mem_nil _, [], rfl, rfl, forall_mem_nil _⟩
    cases hn
  | base _ table offset padding ih => exact ih.intern (n := .vecBase table offset padding) trivial fun _ _ => rfl
  | ext _ table offset padding ih => exact ih.intern (n := .vecExt table offset padding) trivial fun _ _ => rfl
  | scalarBase _ s ih => exact ih.intern (n := .scalarBase s) trivial fun _ _ => rfl
  | scalarExt _ s ih => exact ih.intern (n := .scalarExt s) trivial fun _ _ => rfl
  | @unary b b' hs ds _ o id x a ha hop ih =>
    obtain ⟨hext, hholds⟩ := Builder.op_holds ih.wf hop
    refine ih.handle hext (hholds.congr fun env p => ?_)
    rw [map_singleton, Builder.extValues, (ih.handles _ ha).2 env p]
    rfl
  | @binary b b' hs ds _ o id x y a c ha hc hop ih =>
    obtain ⟨hext, hholds⟩ := Builder.op_holds ih.wf hop
    refine ih.handle hext (hholds.congr fun env p => ?_)
    rw [map_cons, map_singleton, Builder.extValues, Builder.extValues, (ih.handles _ ha).2 env p,
      (ih.handles _ hc).2 env p]
    rfl
  | @sink b hs ds _ s hreads ih =>
    obtain ⟨ss, hsinks, hds, hss⟩ := ih.sinks
    refine ⟨ih.wf, fun h hh => ih.handles h hh, ss ++ [s], ?_, ?_, fun s' hs' r hr => ?_⟩
    · rw [map_append, ← hsinks]
      rfl
    · rw [map_append, ← hds]
      rfl
    · rcases mem_append.1 hs' with hs' | hs'
      · exact hss s' hs' r hr
      · cases mem_singleton.1 hs'
        exact ih.handles r (hreads r hr)

end

end Lineth.Vecprog
