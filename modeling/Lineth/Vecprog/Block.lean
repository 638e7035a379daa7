import Lineth.Vecprog.Vector

/-!
# Computing a node over a block

The operands of a node over a block are scalars or vectors of either field. An operation is dispatched on their kinds;
whatever the case, the result is the operator at every point. -/

namespace Lineth.Vecprog

variable {F E : Type}

/-! ### Operands -/

inductive Operand (F E : Type) where
  | scalarBase (s : F)
  | scalarExt (s : E)
  | base (v : List F)
  | ext (v : List E)

namespace Operand

def isBase : Operand F E → Bool
  | scalarBase _ | base _ => true
  | _ => false

def isScalar : Operand F E → Bool
  | scalarBase _ | scalarExt _ => true
  | _ => false

def baseVec : Operand F E → List F
  | base v => v
  | _ => []

def broadcast (L : Nat) : Operand F E → Operand F E
  | scalarBase s => base (List.replicate L s)
  | scalarExt s => ext (List.replicate L s)
  | a => a

theorem exists_base {a : Operand F E} (hb : a.isBase = true) (hv : a.isScalar = false) : ∃ v, a = base v := by
  cases a with
  | base v => exact ⟨v, rfl⟩
  | scalarBase s => cases hv
  | _ => cases hb

variable [Field F]

def baseAt (i : Nat) : Operand F E → F
  | scalarBase s => s
  | base v => v.getD i 0
  | _ => 0

variable [Field E] [Algebra F E]

def extAt (i : Nat) : Operand F E → E
  | scalarBase s => algebraMap F E s
  | scalarExt s => s
  | base v => algebraMap F E (v.getD i 0)
  | ext v => v.getD i 0

/-- An operand as an extension vector, lifted or broadcast if needed. -/
def extVector (L : Nat) : Operand F E → List E
  | ext v => v
  | a => vec L fun i => a.extAt i

def cancelled (cancel : Option (List F)) : Operand F E → Operand F E
  | base v => base (cancel.elim v fun cancel => List.zipWith (· * ·) v cancel)
  | ext v => ext (cancel.elim v fun cancel => List.zipWith (fun x y => x * algebraMap F E y) v cancel)
  | a => a

/-- The operand has the values of `f` at the points of a block. -/
def Represents (L : Nat) (f : Nat → Value F E) : Operand F E → Prop
  | scalarBase s => ∀ o < L, f o = .base s
  | scalarExt s => ∀ o < L, f o = .ext s
  | base v => (v = vec L fun o => (f o).toBase) ∧ ∀ o < L, f o = .base (f o).toBase
  | ext v => (v = vec L fun o => (f o).toExt) ∧ ∀ o < L, f o = .ext (f o).toExt

section

variable {L : Nat} {f : Nat → Value F E} {a : Operand F E} {o : Nat}

theorem extAt_eq (h : a.Represents L f) (ho : o < L) : a.extAt o = (f o).toExt := by
  cases a with
  | scalarBase s => rw [h o ho]; rfl
  | scalarExt s => rw [h o ho]; rfl
  | base v => rw [h.2 o ho, extAt, h.1, List.getD_eq_getElem?_getD, getElem?_vec _ ho]; rfl
  | ext v => rw [extAt, h.1, List.getD_eq_getElem?_getD, getElem?_vec _ ho]; rfl

theorem baseAt_eq (h : a.Represents L f) (hb : a.isBase = true) (ho : o < L) :
    a.baseAt o = (f o).toBase := by
  cases a with
  | scalarBase s => rw [h o ho]; rfl
  | base v => rw [baseAt, h.1, List.getD_eq_getElem?_getD, getElem?_vec _ ho]; rfl
  | _ => cases hb

theorem extVector_eq (h : a.Represents L f) : a.extVector L = vec L fun o => (f o).toExt := by
  cases a with
  | ext v => exact h.1
  | _ => exact vec_congr fun o ho => extAt_eq h ho

theorem toExt_eq {v : List F} (h : (base v : Operand F E).Represents L f) (ho : o < L) :
    (f o).toExt = algebraMap F E (f o).toBase := by
  rw [h.2 o ho]
  rfl

theorem broadcast_represents (h : a.Represents L f) : (a.broadcast L).Represents L f := by
  cases a with
  | scalarBase s =>
    refine ⟨?_, fun o ho => by rw [h o ho]; rfl⟩
    rw [replicate_eq_vec]
    exact vec_congr fun o ho => by rw [h o ho]; rfl
  | scalarExt s =>
    refine ⟨?_, fun o ho => by rw [h o ho]; rfl⟩
    rw [replicate_eq_vec]
    exact vec_congr fun o ho => by rw [h o ho]; rfl
  | base v => exact h
  | ext v => exact h

theorem cancelled_broadcast_extAt (h : a.Represents L f) (cancel : Option (Nat → F)) (ho : o < L) :
    ((a.broadcast L).cancelled (cancel.map (vec L))).extAt o = (f o).toExt * cancel.elim 1 fun c =>
      algebraMap F E (c o) := by
  have hb := broadcast_represents h
  cases hcase : a.broadcast L with
  | scalarBase s => cases a <;> cases hcase
  | scalarExt s => cases a <;> cases hcase
  | base v =>
    rw [hcase] at hb
    rw [toExt_eq hb ho]
    cases cancel with
    | none =>
      rw [Option.elim_none, mul_one]
      exact (extAt_eq hb ho).trans (toExt_eq hb ho)
    | some c =>
      rw [cancelled, Option.map_some, Option.elim_some, hb.1, zipWith_vec, extAt,
        List.getD_eq_getElem?_getD, getElem?_vec _ ho]
      exact map_mul _ _ _
  | ext v =>
    rw [hcase] at hb
    cases cancel with
    | none =>
      rw [Option.elim_none, mul_one]
      exact extAt_eq hb ho
    | some c =>
      rw [cancelled, Option.map_some, Option.elim_some, hb.1, zipWith_vec, extAt,
        List.getD_eq_getElem?_getD, getElem?_vec _ ho]
      rfl

end

end Operand

open Operand List

variable {L : Nat}

/-! ### Operations -/

section

variable [Field F] [DecidableEq F]

def baseOp (o : Op) (args : List (Operand F E)) (L : Nat) : List F :=
  match o, args with
  | .add, [.base a, .base b] => List.zipWith (· + ·) a b
  | .sub, [.base a, .base b] => List.zipWith (· - ·) a b
  | .mul, [.base a, .base b] => List.zipWith (· * ·) a b
  | .mul, [a, .scalarBase s] => a.baseVec.map (· * s)
  | .mul, [.scalarBase s, b] => b.baseVec.map (· * s)
  | .inverse, [.base a] => batchInvertBase a
  | .div, [.scalarBase s, .base b] => (batchInvertBase b).map (· * s)
  | .div, [.base a, .base b] => List.zipWith (· * ·) a (batchInvertBase b)
  | o, args => vec L fun i => o.apply (args.map (baseAt i))

end

variable [Field F] [Field E] [Algebra F E]

/-- The constant, to which the terms are added one after the other. -/
def linearOp (s : E) (terms : List (Operand F E × E)) (L : Nat) : List E :=
  terms.foldl (fun acc t => List.zipWith (fun x y => x + t.2 * algebraMap F E y) acc t.1.baseVec) (List.replicate L s)

def extOp [DecidableEq E] (o : Op) (args : List (Operand F E)) (L : Nat) : List E :=
  match o, args with
  | .add, [.ext a, .ext b] => List.zipWith (· + ·) a b
  | .sub, [.ext a, .ext b] => List.zipWith (· - ·) a b
  | .add, [.ext a, .base b] => List.zipWith (fun x y => x + algebraMap F E y) a b
  | .sub, [.ext a, .base b] => List.zipWith (fun x y => x - algebraMap F E y) a b
  | .mul, [.ext a, .ext b] => List.zipWith (· * ·) a b
  | .mul, [.ext a, .base b] => List.zipWith (fun x y => x * algebraMap F E y) a b
  | .mul, [.ext a, .scalarBase s] => a.map (· * algebraMap F E s)
  | .mul, [.ext a, .scalarExt s] => a.map (· * s)
  -- the operands swapped
  | .mul, [.base b, .ext a] => List.zipWith (fun x y => x * algebraMap F E y) a b
  | .mul, [.scalarBase s, .ext a] => a.map (· * algebraMap F E s)
  | .mul, [.scalarExt s, .ext a] => a.map (· * s)
  | .square, [.ext a] => List.zipWith (· * ·) a a
  | .inverse, [a] => batchInvertExt (a.extVector L)
  | .div, [.ext a, b] => List.zipWith (· * ·) a (batchInvertExt (b.extVector L))
  | .div, [.base a, b] => List.zipWith (fun x y => x * algebraMap F E y) (batchInvertExt (b.extVector L)) a
  | .div, [.scalarBase s, b] => (batchInvertExt (b.extVector L)).map (· * algebraMap F E s)
  | .div, [.scalarExt s, b] => (batchInvertExt (b.extVector L)).map (· * s)
  | o, args => vec L fun i => o.apply (args.map (extAt i))

/-! ### The operator at every point -/

variable {fs : List (Nat → Value F E)}

theorem forall₂_one {a : Operand F E} (h : List.Forall₂ (fun a f => a.Represents L f) [a] fs) :
    ∃ f, fs = [f] ∧ a.Represents L f := by
  cases h with
  | cons h hnil =>
    cases hnil
    exact ⟨_, rfl, h⟩

theorem forall₂_two {a b : Operand F E} (h : List.Forall₂ (fun a f => a.Represents L f) [a, b] fs) :
    ∃ f g, fs = [f, g] ∧ a.Represents L f ∧ b.Represents L g := by
  cases h with
  | cons h hrest =>
    obtain ⟨g, rfl, hg⟩ := forall₂_one hrest
    exact ⟨_, g, rfl, h, hg⟩

variable {args : List (Operand F E)}

theorem map_at {K : Type} {at' : Operand F E → K} {val : (Nat → Value F E) → K}
    (h : List.Forall₂ (fun a f => a.Represents L f) args fs)
    (hat : ∀ a f, a ∈ args → a.Represents L f → at' a = val f) :
    args.map at' = fs.map val := by
  induction h with
  | nil => rfl
  | cons ha _ ih =>
    rw [map_cons, map_cons, hat _ _ mem_cons_self ha, ih fun a f hmem => hat a f (mem_cons_of_mem _ hmem)]

theorem map_baseVec {a : Operand F E} {f : Nat → Value F E} (h : a.Represents L f) (hb : a.isBase = true)
    (hv : a.isScalar = false) (op : F → F) : a.baseVec.map op = vec L fun i => op (f i).toBase := by
  obtain ⟨v, rfl⟩ := exists_base hb hv
  rw [baseVec, h.1, map_vec]

theorem zipWith_ext_ext {a b : List E} {f g : Nat → Value F E} (hf : (ext a : Operand F E).Represents L f)
    (hg : (ext b : Operand F E).Represents L g) (op : E → E → E) :
    List.zipWith op a b = vec L fun i => op (f i).toExt (g i).toExt := by
  rw [hf.1, hg.1, zipWith_vec]

theorem zipWith_base_right {a : List E} {b : List F} {f : Nat → E} {g : Nat → Value F E} (hf : a = vec L f)
    (hg : (base b : Operand F E).Represents L g) (op : E → E → E) :
    List.zipWith (fun x y => op x (algebraMap F E y)) a b = vec L fun i => op (f i) (g i).toExt := by
  rw [hf, hg.1, zipWith_vec]
  exact vec_congr fun i hi => by rw [toExt_eq hg hi]

section

variable (h : List.Forall₂ (fun a f => a.Represents L f) args fs)

include h

theorem baseOp_eq [DecidableEq F] {o : Op} (hbase : ∀ a ∈ args, a.isBase = true)
    (hvec : ∃ a ∈ args, a.isScalar = false) :
    baseOp o args L = vec L fun i => o.apply (fs.map fun f => (f i).toBase) := by
  unfold baseOp
  split
  case h_1 | h_2 | h_3 =>
    obtain ⟨f, g, rfl, hf, hg⟩ := forall₂_two h
    rw [hf.1, hg.1, zipWith_vec]
    rfl
  · -- the other operand is not a scalar
    obtain ⟨f, g, rfl, hf, hg⟩ := forall₂_two h
    obtain ⟨x, hx, hv⟩ := hvec
    rcases mem_pair.1 hx with rfl | rfl
    · rw [map_baseVec hf (hbase _ hx) hv]
      exact vec_congr fun i hi => by rw [map_cons, map_singleton, hg i hi]; rfl
    · cases hv
  · obtain ⟨f, g, rfl, hf, hg⟩ := forall₂_two h
    obtain ⟨x, hx, hv⟩ := hvec
    rcases mem_pair.1 hx with rfl | rfl
    · cases hv
    · rw [map_baseVec hg (hbase _ hx) hv]
      exact vec_congr fun i hi => by rw [map_cons, map_singleton, hf i hi]; exact mul_comm _ _
  · obtain ⟨f, rfl, hf⟩ := forall₂_one h
    rw [hf.1, batchInvertBase_eq, map_vec]
    rfl
  · obtain ⟨f, g, rfl, hf, hg⟩ := forall₂_two h
    rw [hg.1, batchInvertBase_eq, map_vec, map_vec]
    exact vec_congr fun i hi => by rw [map_cons, map_singleton, hf i hi]; exact mul_comm _ _
  · obtain ⟨f, g, rfl, hf, hg⟩ := forall₂_two h
    rw [hf.1, hg.1, batchInvertBase_eq, map_vec, zipWith_vec]
    rfl
  · refine vec_congr fun i hi => congrArg o.apply ?_
    exact map_at h fun a f ha haf => baseAt_eq haf (hbase a ha) hi

theorem extOp_eq [DecidableEq E] {o : Op} :
    extOp o args L = vec L fun i => o.apply (fs.map fun f => (f i).toExt) := by
  unfold extOp
  split
  case h_1 | h_2 | h_5 =>
    obtain ⟨f, g, rfl, hf, hg⟩ := forall₂_two h
    exact zipWith_ext_ext hf hg _
  -- a scalar on the right, on the left, and divided
  case h_7 | h_8 =>
    obtain ⟨f, g, rfl, hf, hg⟩ := forall₂_two h
    rw [hf.1, map_vec]
    exact vec_congr fun i hi => by rw [map_cons, map_singleton, hg i hi]; rfl
  case h_10 | h_11 =>
    obtain ⟨f, g, rfl, hf, hg⟩ := forall₂_two h
    rw [hg.1, map_vec]
    exact vec_congr fun i hi => by rw [map_cons, map_singleton, hf i hi]; exact mul_comm _ _
  case h_16 | h_17 =>
    obtain ⟨f, g, rfl, hf, hg⟩ := forall₂_two h
    rw [extVector_eq hg, batchInvertExt_eq, map_vec, map_vec]
    exact vec_congr fun i hi => by rw [map_cons, map_singleton, hf i hi]; exact mul_comm _ _
  · obtain ⟨f, g, rfl, hf, hg⟩ := forall₂_two h
    exact zipWith_base_right hf.1 hg (· + ·)
  · obtain ⟨f, g, rfl, hf, hg⟩ := forall₂_two h
    exact zipWith_base_right hf.1 hg (· - ·)
  · obtain ⟨f, g, rfl, hf, hg⟩ := forall₂_two h
    exact zipWith_base_right hf.1 hg (· * ·)
  · obtain ⟨f, g, rfl, hf, hg⟩ := forall₂_two h
    exact (zipWith_base_right hg.1 hf (· * ·)).trans (vec_congr fun i _ => mul_comm _ _)
  · obtain ⟨f, rfl, hf⟩ := forall₂_one h
    exact zipWith_ext_ext hf hf _
  · obtain ⟨f, rfl, hf⟩ := forall₂_one h
    rw [extVector_eq hf, batchInvertExt_eq, map_vec]
    rfl
  · obtain ⟨f, g, rfl, hf, hg⟩ := forall₂_two h
    rw [extVector_eq hg, batchInvertExt_eq, map_vec, hf.1, zipWith_vec]
    rfl
  · obtain ⟨f, g, rfl, hf, hg⟩ := forall₂_two h
    rw [extVector_eq hg, batchInvertExt_eq, map_vec]
    exact (zipWith_base_right rfl hf (· * ·)).trans (vec_congr fun i _ => mul_comm _ _)
  · refine vec_congr fun i hi => congrArg o.apply ?_
    exact map_at h fun a f _ haf => extAt_eq haf hi

end

/-- The atoms are base-valued vectors. -/
theorem linearOp_eq {terms : List (Operand F E × E)}
    (h : List.Forall₂ (fun t f => ∃ v, t.1 = base v ∧ t.1.Represents L f) terms fs) (s : E) :
    linearOp s terms L = vec L fun i => s + (List.zipWith (fun t f => t.2 * (f i).toExt) terms fs).sum := by
  rw [linearOp, replicate_eq_vec]
  have hloop : ∀ acc : Nat → E, terms.foldl (fun acc t => List.zipWith
    (fun x y => x + t.2 * algebraMap F E y) acc t.1.baseVec) (vec L acc) =
      vec L fun i => acc i + (List.zipWith (fun t f => t.2 * (f i).toExt) terms fs).sum := by
    induction h with
    | nil => exact fun acc => vec_congr fun i _ => (add_zero _).symm
    | @cons t f terms fs ht _ ih =>
      intro acc
      obtain ⟨v, hv, hf⟩ := ht
      rw [hv] at hf
      rw [foldl_cons, hv, baseVec, zipWith_base_right rfl hf fun x y => x + t.2 * y, ih]
      refine vec_congr fun i _ => ?_
      rw [zipWith_cons_cons, sum_cons, add_assoc]
  exact hloop _

end Lineth.Vecprog
