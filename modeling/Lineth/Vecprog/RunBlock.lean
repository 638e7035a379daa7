import Lineth.Vecprog.Run

/-!
# What a worker does in a block

While the steps of a program are taken, the register of every node that is still to be read holds the values of the
node, and the entries of the block are those that the sinks leave at each point. -/

namespace Lineth.Vecprog

open List Nat

variable {F E : Type}

/-! ### Entries of a block -/

theorem Sink.reads_map {ρ σ : Type} (f : ρ → σ) (s : Sink E ρ) : (s.map f).reads = s.reads.map f := by
  cases s <;> rfl

theorem Sink.point_loc {ρ : Type} (s : Sink E ρ) (t : Nat) : (s.loc t).point = some t := by
  cases s <;> rfl

section

variable {V : Type} {loc : Nat → Loc} (hloc : ∀ t, (loc t).point = some t)

include hloc

omit hloc in
theorem writeBlock_of_not {point L : Nat} {x : Loc} (hx : ∀ o < L, loc (point + o) ≠ x)
    (f : Nat → V → V) (m : Loc → V) :
    writeBlock loc point L f m x = m x := by
  induction L with
  | zero => rfl
  | succ L ih =>
    rw [writeBlock, range_succ, foldl_concat, ← writeBlock, Function.update_of_ne (hx L (lt_succ_self L)).symm]
    exact ih fun o ho => hx o (lt_succ_of_lt ho)

theorem loc_inj {t t' : Nat} (h : loc t = loc t') : t = t' :=
  Option.some.inj ((hloc t).symm.trans ((congrArg Loc.point h).trans (hloc t')))

theorem writeBlock_of_lt {point L o : Nat} (ho : o < L) (f : Nat → V → V) (m : Loc → V) :
    writeBlock loc point L f m (loc (point + o)) = f o (m (loc (point + o))) := by
  induction L with
  | zero => exact absurd ho (not_lt_zero o)
  | succ L ih =>
    rw [writeBlock, range_succ, foldl_concat, ← writeBlock]
    by_cases hoL : o = L
    · subst hoL
      rw [Function.update_self, writeBlock_of_not]
      exact fun o' ho' h => absurd (loc_inj hloc h) (by omega)
    · rw [Function.update_of_ne, ih (by omega)]
      exact fun h => absurd (loc_inj hloc h) (by omega)

theorem writeBlock_at {point L o : Nat} (ho : o < L) {x : Loc} (hx : x.point = some (point + o))
    (f : Nat → V → V) (m : Loc → V) :
    writeBlock loc point L f m x = if loc (point + o) = x then f o (m x) else m x := by
  split
  · rename_i h
    rw [← h, writeBlock_of_lt hloc ho]
  · rename_i h
    refine writeBlock_of_not (fun o' _ h' => h ?_) f m
    have hpoint : point + o' = point + o := Option.some.inj ((hloc _).symm.trans ((congrArg Loc.point h').trans hx))
    rw [← hpoint, h']

theorem writeBlock_outside {point L : Nat} {x : Loc} (hx : ∀ o < L, x.point ≠ some (point + o))
    (f : Nat → V → V) (m : Loc → V) :
    writeBlock loc point L f m x = m x :=
  writeBlock_of_not (fun o ho h => hx o ho ((congrArg Loc.point h).symm.trans (hloc _))) f m

end

/-! ### Sinks at a point -/

section

variable [Field F] [Field E] [Algebra F E] [DecidableEq E] {ρ : Type}

/-- What a sink makes of the entry of a point, where the roots are evaluated by `ev` and the cancellations by
`cancel`. -/
def Sink.cell (ev : ρ → E) (cancel : Slice → F) : Sink E ρ → Cell F E → Cell F E
  | accumulate root cancellation coef, c =>
    .ext (c.toExt + coef * (ev root * cancellation.elim 1 fun table => algebraMap F E (cancel table)))
  | store root _, _ => .ext (ev root)
  | addTo root _, c => .ext (c.toExt + ev root)
  | check root guard _, c => if ev root = 0 ∧ ev guard ≠ 0 then .count (c.toCount + 1) else c

/-- The sinks at the point `t`, one after the other, at the location `x`. -/
def cellAfter (ev : ρ → E) (cancel : Slice → F) (t : Nat) (x : Loc) (sinks : List (Sink E ρ))
    (c : Cell F E) : Cell F E :=
  sinks.foldl (fun c s => if s.loc t = x then s.cell ev cancel c else c) c

theorem Sink.cell_map {σ : Type} (f : ρ → σ) (ev : σ → E) (cancel : Slice → F) (s : Sink E ρ) (c : Cell F E) :
    (s.map f).cell ev cancel c = s.cell (fun r => ev (f r)) cancel c := by
  cases s <;> rfl

theorem Sink.cell_congr {ev ev' : ρ → E} {s : Sink E ρ} (h : ∀ r ∈ s.reads, ev r = ev' r)
    (cancel : Slice → F) (c : Cell F E) :
    s.cell ev cancel c = s.cell ev' cancel c := by
  cases s with
  | check root guard onZero => rw [cell, cell, h root mem_cons_self, h guard (mem_cons_of_mem _ mem_cons_self)]
  | _ => rw [cell, cell, h _ mem_cons_self]

end

theorem filterMap_getElem?_range {α : Type} (l : List α) : (range l.length).filterMap (l[·]?) = l := by
  induction l with
  | nil => rfl
  | cons a l ih =>
    rw [length_cons, range_succ_eq_map]
    change a :: ((range l.length).map Nat.succ).filterMap ((a :: l)[·]?) = a :: l
    rw [filterMap_map]
    exact congrArg (a :: ·) ih

/-! ### Operands and values -/

section

variable {K : Type}

theorem tableView_eq {mem : Nat → K} {n k stride i0 L offset : Nat} {table : Slice}
    {padding : Option (K × Int)} (hoffset : offset < n)
    (hL : i0 + L ≤ n) (hpad : ∀ q, padding = some q → q.2 + table.len ≤ n) :
    tableView mem n (k * stride) table padding (if i0 + offset ≥ n then i0 + offset - n else i0 + offset) L =
      vec L fun o => readTable mem n stride table offset padding ⟨k, i0 + o⟩ := by
  obtain ⟨idx, hidx⟩ : ∃ idx, idx = if i0 + offset ≥ n then i0 + offset - n else i0 + offset := ⟨_, rfl⟩
  have hlt : idx < n := by
    rw [hidx]
    split <;> omega
  have hrow (o : Nat) : (idx + o) % n = (i0 + o + offset) % n := by
    rw [hidx]
    split
    · rw [show i0 + o + offset = i0 + offset - n + o + n by omega, add_mod_right]
    · rw [add_right_comm]
  rw [← hidx]
  cases padding with
  | none =>
    rw [tableView, wrappedView_eq hlt (by omega)]
    exact vec_congr fun o _ => by rw [hrow]; rfl
  | some q =>
    rw [tableView, paddedView_eq hlt (hpad q rfl)]
    exact vec_congr fun o _ => by rw [hrow]; rfl

theorem getD_modify_self {l : List (List K)} {r : Nat} (hr : r < l.length) (v : List K) :
    ((l.modify r fun old => v ++ old.drop v.length).getD r []).take v.length = v := by
  rw [getD_eq_getElem?_getD, getElem?_modify_eq, getElem?_eq_getElem hr]
  exact take_left' rfl

theorem getD_modify_of_ne (l : List (List K)) {r r' : Nat} (h : r ≠ r') (f : List K → List K) :
    (l.modify r f).getD r' [] = l.getD r' [] := by
  rw [getD_eq_getElem?_getD, getElem?_modify_ne _ _ h, getD_eq_getElem?_getD]

end

/-- A table is read at an offset within the coset. -/
def Node.OffsetBelow (n : Nat) : Node F E → Prop
  | vecBase _ offset _ | vecExt _ offset _ => offset < n
  | _ => True

def Regs.Sized (p : Program F E) (regs : Regs F E) : Prop := regs.base.length = p.nb true ∧ regs.ext.length = p.nb false

namespace Program

variable [Field F] [Field E] [Algebra F E] {p : Program F E} {baseMem : Nat → F} {extMem : Nat → E} {blk : Block}

section

variable (p : Program F E) (baseMem : Nat → F) (extMem : Nat → E) (blk : Block)

def valueAt (id o : Nat) : Value F E :=
  value (p.env baseMem extMem) ⟨blk.coset, blk.start + o⟩ p.nodes id

def Held (regs : Regs F E) (id : Nat) : Prop :=
  (p.operand baseMem extMem blk regs id).Represents blk.len (p.valueAt baseMem extMem blk id)

end

section

variable (hwf : NodesWF p.nodes) (hoffset : ∀ nd ∈ p.nodes, nd.OffsetBelow p.n)
  (hleaves : ∀ id ∈ p.leaves, ∃ nd, p.nodes[id]? = some nd ∧ nd.isLeaf = true ∧ nd.fits p.n = true)
  (hblk : blk.start + blk.len ≤ p.n)

include hwf hoffset hleaves hblk

/-- Scalars and tables are held whatever is in the registers. -/
theorem held_of_ready {pre : List Step} {regs : Regs F E} {a : Nat} (hready : ReadyIn p.nodes p.leaves pre a)
    (hcomputed : .node a ∈ pre → p.Held baseMem extMem blk regs a) : p.Held baseMem extMem blk regs a := by
  obtain ⟨nd, hnd, hc, hleaf⟩ := hready
  have hval (o : Nat) := @value_eq F E _ _ _ (p.env baseMem extMem) ⟨blk.coset, blk.start + o⟩ p.nodes nd a hwf hnd
  cases nd with
  | scalarBase s =>
    rw [Held, operand, hnd]
    exact fun o _ => hval o
  | scalarExt s =>
    rw [Held, operand, hnd]
    exact fun o _ => hval o
  | vecBase table offset padding =>
    obtain ⟨nd', hnd', -, hfits⟩ := hleaves a (hleaf rfl)
    cases hnd.symm.trans hnd'
    rw [Held, operand, hnd]
    dsimp only
    rw [if_pos (hleaf rfl)]
    refine ⟨?_, fun o _ => value_isBase hwf hnd rfl⟩
    rw [leafIndex, tableView_eq (hoffset _ (mem_of_getElem? hnd)) hblk]
    · exact vec_congr fun o _ => by rw [valueAt, hval o]; rfl
    · intro q hq
      obtain ⟨q', rfl, rfl⟩ := Option.map_eq_some_iff.1 hq
      exact of_decide_eq_true hfits
  | vecExt table offset padding =>
    obtain ⟨nd', hnd', -, hfits⟩ := hleaves a (hleaf rfl)
    cases hnd.symm.trans hnd'
    rw [Held, operand, hnd]
    dsimp only
    rw [if_pos (hleaf rfl)]
    refine ⟨?_, fun o _ => by rw [valueAt, hval o]; rfl⟩
    rw [leafIndex, tableView_eq (hoffset _ (mem_of_getElem? hnd)) hblk]
    · exact vec_congr fun o _ => by rw [valueAt, hval o]; rfl
    · intro q hq
      obtain ⟨q', rfl, rfl⟩ := Option.map_eq_some_iff.1 hq
      exact of_decide_eq_true hfits
  | op isBase o args => exact hcomputed (hc rfl)
  | linear s terms => exact hcomputed (hc rfl)

end

/-! ### Registers -/

section

variable {regs : Regs F E} {nd : Node F E}

theorem operand_kind {a : Nat} (hnd : p.nodes[a]? = some nd) :
    (p.operand baseMem extMem blk regs a).isBase = nd.isBase ∧
      (p.operand baseMem extMem blk regs a).isScalar = nd.isScalar := by
  rw [operand, hnd]
  cases nd with
  | op isBase o args => cases isBase <;> exact ⟨rfl, rfl⟩
  | _ => exact ⟨rfl, rfl⟩

theorem operand_setBase {id : Nat} {o : Op} {args : List Nat} (hnd : p.nodes[id]? = some (.op true o args))
    (hreg : p.reg id < regs.base.length) {v : List F} (hv : v.length = blk.len) :
    p.operand baseMem extMem blk (regs.setBase (p.reg id) v) id = .base v := by
  rw [operand, hnd, ← hv]
  exact congrArg Operand.base (getD_modify_self hreg v)

theorem operand_setExt {id : Nat} (hnd : p.nodes[id]? = some nd) (hcomputed : nd.isComputed = true)
    (hext : nd.isBase = false) (hreg : p.reg id < regs.ext.length) {v : List E} (hv : v.length = blk.len) :
    p.operand baseMem extMem blk (regs.setExt (p.reg id) v) id = .ext v := by
  rw [operand, hnd, ← hv]
  cases nd with
  | op isBase o args =>
    cases hext
    exact congrArg Operand.ext (getD_modify_self hreg v)
  | linear s terms => exact congrArg Operand.ext (getD_modify_self hreg v)
  | _ => cases hcomputed

theorem Held.forall₂ {args : List Nat} (h : ∀ a ∈ args, p.Held baseMem extMem blk regs a) :
    List.Forall₂ (fun a f => a.Represents blk.len f) (args.map (p.operand baseMem extMem blk regs))
      (args.map (p.valueAt baseMem extMem blk)) := by
  rw [forall₂_map_left_iff, forall₂_map_right_iff, forall₂_same]
  exact h

variable [DecidableEq F] [DecidableEq E]

theorem compute_spec (regs : Regs F E) (id : Nat) :
    (∀ r, (isBaseAt p.nodes id = true → p.reg id ≠ r) →
      (p.compute baseMem extMem blk regs id).base.getD r [] = regs.base.getD r []) ∧
    (∀ r, (isBaseAt p.nodes id = false → p.reg id ≠ r) →
      (p.compute baseMem extMem blk regs id).ext.getD r [] = regs.ext.getD r []) ∧
    (regs.Sized p → (p.compute baseMem extMem blk regs id).Sized p) := by
  rw [compute, isBaseAt]
  cases p.nodes[id]? with
  | none => exact ⟨fun _ _ => rfl, fun _ _ => rfl, fun h => h⟩
  | some nd =>
    cases nd with
    | op isBase o args =>
      cases isBase with
      | true =>
        exact ⟨fun r hr => getD_modify_of_ne _ (hr rfl) _, fun _ _ => rfl, fun h => ⟨(length_modify ..).trans h.1, h.2⟩⟩
      | false =>
        exact ⟨fun _ _ => rfl, fun r hr => getD_modify_of_ne _ (hr rfl) _, fun h => ⟨h.1, (length_modify ..).trans h.2⟩⟩
    | linear s terms =>
      exact ⟨fun _ _ => rfl, fun r hr => getD_modify_of_ne _ (hr rfl) _, fun h => ⟨h.1, (length_modify ..).trans h.2⟩⟩
    | _ => exact ⟨fun _ _ => rfl, fun _ _ => rfl, fun h => h⟩

theorem operand_compute_of_ne {id a : Nat} (h : isBaseAt p.nodes a = isBaseAt p.nodes id → p.reg a ≠ p.reg id) :
    p.operand baseMem extMem blk (p.compute baseMem extMem blk regs id) a = p.operand baseMem extMem blk regs a := by
  obtain ⟨hbase, hext, -⟩ := @compute_spec F E _ _ _ p baseMem extMem blk _ _ regs id
  rw [operand, operand]
  rw [isBaseAt] at h
  cases hnd : p.nodes[a]? with
  | none => rfl
  | some nd =>
    rw [hnd] at h
    cases nd with
    | op isBase o args =>
      cases isBase with
      | true => exact congrArg (fun v => Operand.base (v.take blk.len)) (hbase _ fun hb => (h hb.symm).symm)
      | false => exact congrArg (fun v => Operand.ext (v.take blk.len)) (hext _ fun hb => (h hb.symm).symm)
    | linear s terms => exact congrArg (fun v => Operand.ext (v.take blk.len)) (hext _ fun hb => (h hb.symm).symm)
    | _ => rfl

theorem held_compute (hwf : NodesWF p.nodes) (hsized : regs.Sized p) {id : Nat}
    (hnd : p.nodes[id]? = some nd) (hcomputed : nd.isComputed = true) (hreg : p.reg id < p.nb nd.isBase)
    (hdeps : ∀ a ∈ nd.deps, p.Held baseMem extMem blk regs a) :
    p.Held baseMem extMem blk (p.compute baseMem extMem blk regs id) id := by
  have hval (o : Nat) := @value_eq F E _ _ _ (p.env baseMem extMem) ⟨blk.coset, blk.start + o⟩ p.nodes nd id hwf hnd
  have hnode := hwf id nd hnd
  rw [Held, compute, hnd]
  cases nd with
  | op isBase o args =>
    obtain ⟨-, -, hbase, a, ha, nd', hnd', hscalar⟩ := hnode
    have hargs : List.Forall₂ _ (args.map (p.operand baseMem extMem blk regs)) _ := Held.forall₂ hdeps
    cases isBase with
    | true =>
      have hvec := baseOp_eq (o := o) hargs
        (fun x hx => by
          obtain ⟨y, hy, rfl⟩ := mem_map.1 hx
          obtain ⟨ny, hny, hb⟩ := hbase rfl y hy
          exact (operand_kind hny).1.trans hb)
        ⟨_, mem_map_of_mem ha, (operand_kind hnd').2.trans hscalar⟩
      dsimp only
      rw [operand_setBase hnd (hsized.1 ▸ hreg) (by rw [hvec, length_vec]), hvec]
      refine ⟨vec_congr fun i _ => ?_, fun i _ => value_isBase hwf hnd rfl⟩
      rw [valueAt, hval i, map_map]
      rfl
    | false =>
      have hvec := extOp_eq (o := o) hargs
      dsimp only
      rw [operand_setExt hnd rfl rfl (hsized.2 ▸ hreg) (by rw [hvec, length_vec]), hvec]
      refine ⟨vec_congr fun i _ => ?_, fun i _ => by rw [valueAt, hval i]; rfl⟩
      rw [valueAt, hval i, map_map]
      rfl
  | linear s terms =>
    have hterms : List.Forall₂ (fun (t : Operand F E × E) f => ∃ v, t.1 = .base v ∧ t.1.Represents blk.len f)
        (terms.map fun t => (p.operand baseMem extMem blk regs t.1, t.2))
          (terms.map fun t => p.valueAt baseMem extMem blk t.1) := by
      rw [forall₂_map_left_iff, forall₂_map_right_iff, forall₂_same]
      intro t ht
      obtain ⟨-, na, hna, hbase, hscalar⟩ := hnode t ht
      obtain ⟨v, hv⟩ := Operand.exists_base ((operand_kind hna).1.trans hbase) ((operand_kind hna).2.trans hscalar)
      exact ⟨v, hv, hdeps t.1 (mem_map_of_mem ht)⟩
    have hvec := linearOp_eq hterms s
    dsimp only
    rw [operand_setExt hnd rfl rfl (hsized.2 ▸ hreg) (by rw [hvec, length_vec]), hvec]
    refine ⟨vec_congr fun i _ => ?_, fun i _ => by rw [valueAt, hval i]; rfl⟩
    rw [valueAt, hval i, zipWith_map, zipWith_self]
    rfl
  | _ => cases hcomputed

end

/-! ### The steps of a block -/

def cancelAt (p : Program F E) (baseMem : Nat → F) (blk : Block) (o : Nat) (table : Slice) : F :=
  baseMem (table.addr + (blk.coset * p.stride + (blk.start + o)))

variable [DecidableEq F] [DecidableEq E]

omit [DecidableEq F] in
/-- A sink does at each point of a block what it does there alone. -/
theorem sinkCell_eq {regs : Regs F E} {sk : Sink E Nat}
    (hreads : ∀ a ∈ sk.reads, p.Held baseMem extMem blk regs a) {o : Nat} (ho : o < blk.len) (c : Cell F E) :
    p.sinkCell baseMem extMem blk regs sk o c =
      sk.cell (fun a => (p.valueAt baseMem extMem blk a o).toExt) (p.cancelAt baseMem blk o) c := by
  cases sk with
  | accumulate root cancellation coef =>
    have hroot := hreads root mem_cons_self
    have hcancel := Operand.cancelled_broadcast_extAt hroot (cancellation.map fun table i =>
      p.cancelAt baseMem blk i table) ho
    rw [Option.map_map, Option.elim_map] at hcancel
    refine congrArg (fun x => Cell.ext (c.toExt + coef * x)) (Eq.trans ?_ hcancel)
    simp only [cancelAt, Function.comp_def, add_assoc]
  | store root d =>
    have hroot := hreads root mem_cons_self
    rw [sinkCell, Operand.extVector_eq hroot, getD_eq_getElem?_getD, getElem?_vec _ ho]
    rfl
  | addTo root d =>
    have hroot : p.Held baseMem extMem blk regs root := hreads root mem_cons_self
    rw [sinkCell, Sink.cell]
    rw [Held] at hroot
    split
    · rename_i v hv
      rw [hv] at hroot
      rw [← Operand.extAt_eq hroot ho]
      rfl
    · rw [Operand.extVector_eq hroot, getD_eq_getElem?_getD, getElem?_vec _ ho]
      rfl
  | check root guard onZero =>
    have hroot := hreads root mem_cons_self
    have hguard := hreads guard (mem_cons_of_mem _ mem_cons_self)
    rw [sinkCell, Operand.extAt_eq hroot ho, Operand.extAt_eq hguard ho]
    rfl

def sinksOf (p : Program F E) (steps : List Step) : List (Sink E Nat) :=
  (steps.filterMap Step.sinkId).filterMap (p.sinks[·]?)

/-- The memory after the steps `pre` of a block. -/
structure BlockInv (p : Program F E) (baseMem : Nat → F) (extMem : Nat → E) (w : Nat)
    (blk : Block) (lastUse : Nat → Nat) (m₀ : Loc → Cell F E) (pre : List Step) (m : Loc → Cell F E) : Prop where
  sized : (m (.regs w)).toRegs.Sized p
  /-- The registers hold the nodes that are read later. -/
  live : ∀ a, LiveAt lastUse pre a → p.Held baseMem extMem blk (m (.regs w)).toRegs a
  /-- The entries of the block have gone through the sinks. -/
  inside : ∀ o < blk.len, ∀ x, x.point = some (p.firstPoint blk + o) →
    m x = cellAfter (fun a => (p.valueAt baseMem extMem blk a o).toExt) (p.cancelAt baseMem blk o)
      (p.firstPoint blk + o) x (p.sinksOf pre)
      (m₀ x)
  outside : ∀ x ≠ .regs w, (∀ o < blk.len, x.point ≠ some (p.firstPoint blk + o)) → m x = m₀ x

/-- What a run needs of a program. -/
structure Runnable (p : Program F E) (lastUse : Nat → Nat) : Prop where
  wf : NodesWF p.nodes
  offsets : ∀ nd ∈ p.nodes, nd.OffsetBelow p.n
  leaves : ∀ id ∈ p.leaves, ∃ nd, p.nodes[id]? = some nd ∧ nd.isLeaf = true ∧ nd.fits p.n = true
  ordered : OrderedSteps p.nodes p.sinks p.leaves p.steps
  computed : ∀ id, .node id ∈ p.steps → isComputedAt p.nodes id = true
  uses : ∀ pre st post, p.steps = pre ++ st :: post → ∀ a ∈ st.reads p.nodes p.sinks, pre.length ≤ lastUse a
  registers : ∀ pre id post, p.steps = pre ++ .node id :: post → p.reg id < p.nb (isBaseAt p.nodes id) ∧
    ∀ a, LiveAt lastUse pre a → isBaseAt p.nodes a = isBaseAt p.nodes id → p.reg a ≠ p.reg id

section

variable {w : Nat} {lastUse : Nat → Nat} {m₀ m : Loc → Cell F E} {pre post : List Step} {st : Step}

section

variable (hp : p.Runnable lastUse) (hblk : blk.start + blk.len ≤ p.n)
  (h : p.BlockInv baseMem extMem w blk lastUse m₀ pre m)

include hp hblk h

omit [DecidableEq F] in
theorem BlockInv.held (hsplit : p.steps = pre ++ st :: post) {a : Nat}
    (ha : a ∈ st.reads p.nodes p.sinks) : p.Held baseMem extMem blk (m (.regs w)).toRegs a :=
  held_of_ready hp.wf hp.offsets hp.leaves hblk (hp.ordered pre st post hsplit a ha) fun hpre =>
    h.live a ⟨hpre, hp.uses pre st post hsplit a ha⟩

theorem BlockInv.node {id : Nat} (hsplit : p.steps = pre ++ .node id :: post) :
    p.BlockInv baseMem extMem w blk lastUse m₀ (pre ++ [.node id]) (p.runStep baseMem extMem w blk (.node id) m) := by
  have hregs : (p.runStep baseMem extMem w blk (.node id) m (.regs w)).toRegs =
      p.compute baseMem extMem blk (m (.regs w)).toRegs id := by
    rw [runStep, Function.update_self]
    rfl
  have hother {x : Loc} (hx : x ≠ .regs w) : p.runStep baseMem extMem w blk (.node id) m x = m x :=
    Function.update_of_ne hx _ _
  have hsinks : p.sinksOf (pre ++ [.node id]) = p.sinksOf pre := by
    rw [sinksOf, filterMap_append, filterMap_cons_none rfl, filterMap_nil, append_nil]
    rfl
  obtain ⟨hreg, hdistinct⟩ := hp.registers pre id post hsplit
  refine ⟨?_, fun a ha => ?_, fun o ho x hx => ?_, fun x hx hout => ?_⟩
  · rw [hregs]
    exact (compute_spec _ _).2.2 h.sized
  · rw [hregs]
    obtain ⟨hmem, huse⟩ := ha
    rw [length_append] at huse
    rcases mem_append.1 hmem with hpre | hnew
    · -- its register is not the one that was written
      have hlive : LiveAt lastUse pre a := ⟨hpre, le_of_succ_le huse⟩
      rw [Held, operand_compute_of_ne (hdistinct a hlive)]
      exact h.live a hlive
    · obtain rfl : a = id := Step.node.inj (mem_singleton.1 hnew)
      have hcomputed := hp.computed a (hsplit ▸ mem_append_right pre mem_cons_self)
      rw [isComputedAt] at hcomputed
      cases hnd : p.nodes[a]? with
      | none =>
        rw [hnd] at hcomputed
        cases hcomputed
      | some nd =>
        rw [hnd] at hcomputed
        rw [isBaseAt, hnd] at hreg
        refine held_compute hp.wf h.sized hnd hcomputed hreg fun x hx => h.held hp hblk hsplit ?_
        rw [Step.reads, hnd]
        exact hx
  · rw [hsinks, hother (fun hreg => by rw [hreg] at hx; cases hx)]
    exact h.inside o ho x hx
  · rw [hother hx]
    exact h.outside x hx hout

theorem BlockInv.sink {i : Nat} (hsplit : p.steps = pre ++ .sink i :: post) :
    p.BlockInv baseMem extMem w blk lastUse m₀ (pre ++ [.sink i]) (p.runStep baseMem extMem w blk (.sink i) m) := by
  have hlive (a : Nat) (ha : LiveAt lastUse (pre ++ [.sink i]) a) : LiveAt lastUse pre a := by
    obtain ⟨hmem, huse⟩ := ha
    rw [length_append] at huse
    rcases mem_append.1 hmem with hpre | hnew
    · exact ⟨hpre, le_of_succ_le huse⟩
    · cases mem_singleton.1 hnew
  have hsinks : p.sinksOf (pre ++ [.sink i]) = p.sinksOf pre ++ (p.sinks[i]?).toList := by
    rw [sinksOf, filterMap_append, filterMap_append, ← sinksOf]
    rfl
  cases hsk : p.sinks[i]? with
  | none =>
    rw [hsk, Option.toList_none, append_nil] at hsinks
    rw [runStep, hsk]
    refine ⟨h.sized, fun a ha => h.live a (hlive a ha), fun o ho x hx => ?_, h.outside⟩
    rw [hsinks]
    exact h.inside o ho x hx
  | some sk =>
    rw [hsk, Option.toList_some] at hsinks
    have hreads : ∀ a ∈ sk.reads, p.Held baseMem extMem blk (m (.regs w)).toRegs a :=
      fun a ha => h.held hp hblk hsplit (by
      rw [Step.reads, hsk]
      exact ha)
    have hregs : p.runStep baseMem extMem w blk (.sink i) m (.regs w) = m (.regs w) := by
      rw [runStep, hsk]
      exact writeBlock_outside sk.point_loc (fun o _ h => by cases h) _ _
    refine ⟨hregs ▸ h.sized, fun a ha => hregs ▸ h.live a (hlive a ha), fun o ho x hx => ?_, fun x hx hout => ?_⟩
    · rw [hsinks, cellAfter, foldl_concat, ← cellAfter, ← h.inside o ho x hx, runStep, hsk]
      dsimp only
      rw [writeBlock_at sk.point_loc ho hx, sinkCell_eq hreads ho]
    · rw [← h.outside x hx hout, runStep, hsk]
      exact writeBlock_outside sk.point_loc hout _ _

theorem BlockInv.run (hsplit : p.steps = pre ++ post) :
    p.BlockInv baseMem extMem w blk lastUse m₀ p.steps
      (Parallel.run (post.map (p.runStep baseMem extMem w blk)) m) := by
  induction post generalizing pre m with
  | nil =>
    rw [hsplit, append_nil]
    exact h
  | cons st post ih =>
    rw [map_cons, Parallel.run_cons]
    have hsplit' : p.steps = pre ++ [st] ++ post := by rw [hsplit, append_assoc, singleton_append]
    cases st with
    | node id => exact ih (h.node hp hblk hsplit) hsplit'
    | sink i => exact ih (h.sink hp hblk hsplit) hsplit'

end

theorem run_block (hp : p.Runnable lastUse) (hsinks : p.steps.filterMap Step.sinkId = range p.sinks.length)
    (hblk : blk.start + blk.len ≤ p.n) (hsized : (m (.regs w)).toRegs.Sized p) :
    let m' := Parallel.run (p.steps.map (p.runStep baseMem extMem w blk)) m
    (m' (.regs w)).toRegs.Sized p ∧
    (∀ o < blk.len, ∀ x, x.point = some (p.firstPoint blk + o) →
      m' x = cellAfter (fun a => (p.valueAt baseMem extMem blk a o).toExt) (p.cancelAt baseMem blk o)
        (p.firstPoint blk + o) x p.sinks (m x)) ∧
    ∀ x ≠ .regs w, (∀ o < blk.len, x.point ≠ some (p.firstPoint blk + o)) → m' x = m x := by
  have hstart : p.BlockInv baseMem extMem w blk lastUse m [] m :=
    ⟨hsized, fun a ha => absurd ha.1 not_mem_nil, fun _ _ _ _ => rfl, fun _ _ _ => rfl⟩
  obtain ⟨hsized', -, hinside, houtside⟩ := hstart.run hp hblk rfl
  have hall : p.sinksOf p.steps = p.sinks := by
    rw [sinksOf, hsinks]
    exact filterMap_getElem?_range p.sinks
  rw [hall] at hinside
  exact ⟨hsized', hinside, houtside⟩

end

end Program

end Lineth.Vecprog
