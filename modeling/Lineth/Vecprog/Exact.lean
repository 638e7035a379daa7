import Mathlib.Data.Nat.ModEq
import Lineth.Vecprog.RunBlock

/-!
# Programs evaluate their expressions

A compiled program, run by any number of workers in any order, leaves what the expressions of its sinks give point by
point in the extension field, in the order in which the sinks were declared. -/

namespace Lineth.Vecprog

open List Nat Parallel
open Function (update update_of_ne update_self)

variable {F E : Type}

/-! ### Blocks and points -/

namespace Program

variable {p : Program F E}

def blockOf (p : Program F E) (t : Nat) : Nat := t / p.n * p.perCoset + t % p.n / blockSize

theorem div_blockSize_lt {i : Nat} (hi : i < p.n) : i / blockSize < p.perCoset := by
  rw [perCoset, div_lt_iff_lt_mul (by decide)]
  have h := div_add_mod (p.n + blockSize - 1) blockSize
  have h' : (p.n + blockSize - 1) % blockSize < blockSize := mod_lt _ (by decide)
  rw [Nat.mul_comm] at h
  omega

theorem block_start_lt {blk : Nat} (hblk : blk < p.ratio * p.perCoset) : (p.block blk).start < p.n := by
  have hpos : 0 < p.perCoset := pos_of_ne_zero fun h => by rw [h, mul_zero] at hblk; exact not_lt_zero _ hblk
  have hlt : blk % p.perCoset < p.perCoset := mod_lt _ hpos
  have hle : p.perCoset * blockSize ≤ p.n + blockSize - 1 := div_mul_le_self _ _
  have hmul : (blk % p.perCoset + 1) * blockSize ≤ p.perCoset * blockSize := Nat.mul_le_mul_right _ hlt
  have hsize : 0 < blockSize := by decide
  rw [Nat.succ_mul] at hmul
  change blk % p.perCoset * blockSize < p.n
  omega

theorem block_fits {blk : Nat} (hblk : blk < p.ratio * p.perCoset) : (p.block blk).start + (p.block blk).len ≤ p.n := by
  have hstart := block_start_lt hblk
  have hlen : (p.block blk).len ≤ p.n - (p.block blk).start := min_le_right _ _
  omega

theorem point_of_block {blk o : Nat} (hblk : blk < p.ratio * p.perCoset) (ho : o < (p.block blk).len) :
    p.firstPoint (p.block blk) + o < p.ratio * p.n ∧ (p.firstPoint (p.block blk) + o) / p.n = (p.block blk).coset ∧
      (p.firstPoint (p.block blk) + o) % p.n = (p.block blk).start + o ∧
        p.blockOf (p.firstPoint (p.block blk) + o) = blk := by
  have hfits := block_fits hblk
  have hrow : (p.block blk).start + o < p.n := by omega
  have hcoset : (p.block blk).coset < p.ratio := Nat.div_lt_of_lt_mul (Nat.mul_comm p.ratio p.perCoset ▸ hblk)
  have hdiv : (p.firstPoint (p.block blk) + o) / p.n = (p.block blk).coset := by
    rw [firstPoint, Nat.add_assoc, Nat.mul_comm, Nat.mul_add_div (by omega), Nat.div_eq_of_lt hrow, Nat.add_zero]
  have hmod : (p.firstPoint (p.block blk) + o) % p.n = (p.block blk).start + o := by
    rw [firstPoint, Nat.add_assoc, Nat.mul_comm, mul_add_mod, mod_eq_of_lt hrow]
  have ho' : o < blockSize := lt_of_lt_of_le ho (min_le_left _ _)
  refine ⟨?_, hdiv, hmod, ?_⟩
  · have h := Nat.mul_le_mul_right p.n hcoset
    rw [Nat.succ_mul] at h
    rw [firstPoint]
    omega
  · rw [blockOf, hdiv, hmod]
    have hstart : ((p.block blk).start + o) / blockSize = blk % p.perCoset := by
      change (blk % p.perCoset * blockSize + o) / blockSize = _
      rw [Nat.mul_comm, Nat.mul_add_div (by decide), Nat.div_eq_of_lt ho', Nat.add_zero]
    rw [hstart, Nat.mul_comm]
    exact div_add_mod blk p.perCoset

theorem block_of_point {t : Nat} (ht : t < p.ratio * p.n) :
    p.blockOf t < p.ratio * p.perCoset ∧ ∃ o < (p.block (p.blockOf t)).len,
      t = p.firstPoint (p.block (p.blockOf t)) + o := by
  have hn : 0 < p.n := pos_of_ne_zero fun h => by rw [h, mul_zero] at ht; exact not_lt_zero _ ht
  have hrow : t % p.n < p.n := mod_lt _ hn
  have hlt := div_blockSize_lt hrow
  have hdiv : p.blockOf t / p.perCoset = t / p.n := by
    rw [blockOf, Nat.mul_comm, Nat.mul_add_div (zero_lt_of_lt hlt), Nat.div_eq_of_lt hlt, Nat.add_zero]
  have hmod : p.blockOf t % p.perCoset = t % p.n / blockSize := by
    rw [blockOf, Nat.mul_comm, mul_add_mod, mod_eq_of_lt hlt]
  refine ⟨?_, t % p.n % blockSize, ?_, ?_⟩
  · have hcoset : t / p.n < p.ratio := Nat.div_lt_of_lt_mul (Nat.mul_comm p.ratio p.n ▸ ht)
    have h := Nat.mul_le_mul_right p.perCoset hcoset
    rw [Nat.succ_mul] at h
    rw [blockOf]
    omega
  · change _ < min blockSize (p.n - p.blockOf t % p.perCoset * blockSize)
    rw [hmod]
    have h := div_add_mod (t % p.n) blockSize
    have h' : t % p.n % blockSize < blockSize := mod_lt _ (by decide)
    rw [Nat.mul_comm] at h
    omega
  · change t = p.blockOf t / p.perCoset * p.n + p.blockOf t % p.perCoset * blockSize + _
    rw [hdiv, hmod, Nat.add_assoc, Nat.mul_comm (t % p.n / blockSize), div_add_mod, Nat.mul_comm, div_add_mod]

/-- What the worker `w` may touch while it works on a piece. -/
def own (p : Program F E) (w : Nat) (piece : Nat × Nat) : Set Loc :=
  {x | x = .regs w ∨ ∃ t, x.point = some t ∧ t < p.ratio * p.n ∧ piece.1 ≤ p.blockOf t ∧ p.blockOf t < piece.2}

theorem own_disjoint {w w' : Nat} {piece piece' : Nat × Nat} (hne : w ≠ w')
    (hdisjoint : piece.2 ≤ piece'.1 ∨ piece'.2 ≤ piece.1) {x : Loc} (hx : x ∈ p.own w piece) : x ∉ p.own w' piece' := by
  rintro (rfl | ⟨t', ht', -, hle', hlt'⟩)
  · rcases hx with h | ⟨t, ht, -⟩
    · exact hne (Loc.regs.inj h).symm
    · cases ht
  · rcases hx with rfl | ⟨t, ht, -, hle, hlt⟩
    · cases ht'
    · cases ht.symm.trans ht'
      omega

section

variable {w : Nat} {own : Set Loc}

theorem local_setRegs (hregs : .regs w ∈ own) (f : Regs F E → Regs F E) :
    Parallel.Local own ∅ fun m : Loc → Cell F E => update m (.regs w) (.regs (f (m (.regs w)).toRegs)) where
  frame m x hx := update_of_ne (fun h => hx (by rwa [h])) _ _
  reads m m' h x hx := by
    by_cases hw : x = .regs w
    · subst hw
      rw [update_self, update_self, h _ (.inl hregs)]
    · rw [update_of_ne hw, update_of_ne hw, h x (.inl hx)]

theorem local_writeBlock (hregs : .regs w ∈ own) {loc : Nat → Loc} (hloc : ∀ t, (loc t).point = some t) {point L : Nat}
    (hown : ∀ o < L, ∀ x : Loc, x.point = some (point + o) → x ∈ own) (f : Regs F E → Nat → Cell F E → Cell F E) :
    Parallel.Local own ∅ fun m : Loc → Cell F E => writeBlock loc point L (f (m (.regs w)).toRegs) m where
  frame m x hx := writeBlock_outside hloc (fun o ho h => hx (hown o ho x h)) _ m
  reads m m' h x hx := by
    rw [h _ (.inl hregs)]
    by_cases hin : ∃ o < L, x.point = some (point + o)
    · obtain ⟨o, ho, hpoint⟩ := hin
      rw [writeBlock_at hloc ho hpoint, writeBlock_at hloc ho hpoint, h x (.inl hx)]
    · have hout : ∀ o < L, x.point ≠ some (point + o) := fun o ho hpoint => hin ⟨o, ho, hpoint⟩
      rw [writeBlock_outside hloc hout, writeBlock_outside hloc hout, h x (.inl hx)]

theorem local_id : Parallel.Local own ∅ fun m : Loc → Cell F E => m :=
  ⟨fun _ _ _ => rfl, fun _ _ h x hx => h x (.inl hx)⟩

end

end Program

theorem Program.Compiled.runnable {p : Program F E} {b : Builder F E} {n ratio cosetStep : Nat}
    (h : p.Compiled b n ratio cosetStep)
    (hwf : NodesWF b.nodes) (hoffset : ∀ nd ∈ b.nodes, nd.OffsetBelow n) : ∃ lastUse, p.Runnable lastUse := by
  obtain ⟨lastUse, huses, hregisters⟩ := h.registers
  refine ⟨lastUse, h.nodes ▸ hwf, ?_, ?_, h.ordered, h.computed, huses, hregisters⟩
  · rw [h.nodes, h.points.1]
    exact hoffset
  · rw [h.points.1]
    exact h.leaves

def Program.KeepsOperands (p : Program F E) : Prop :=
  ∀ pre id mid st post a, p.steps = pre ++ .node id :: mid ++ st :: post → .node a ∈ pre →
    a ∈ st.reads p.nodes p.sinks →
    isBaseAt p.nodes a = isBaseAt p.nodes id → p.reg a ≠ p.reg id

theorem Program.Runnable.keepsOperands {p : Program F E} {lastUse : Nat → Nat} (hp : p.Runnable lastUse) :
    p.KeepsOperands := by
  intro pre id mid st post a hsplit ha hread
  have hle := hp.uses (pre ++ .node id :: mid) st post hsplit a hread
  rw [length_append] at hle
  exact (hp.registers pre id (mid ++ st :: post) (by rw [hsplit, append_assoc, cons_append])).2 a ⟨ha, by omega⟩

variable [Field F] [Field E] [Algebra F E] [DecidableEq E]

/-! ### Evaluation point by point -/

def Sink.effect {ρ : Type} (ev : ρ → E) (cancel : Slice → F) (t : Nat) (m : Loc → Cell F E)
    (s : Sink E ρ) : Loc → Cell F E :=
  update m (s.loc t) (s.cell ev cancel (m (s.loc t)))

def Env.pointOf (env : Env F E) (t : Nat) : Point := ⟨t / env.n, t % env.n⟩

def Env.cancelAt (env : Env F E) (pt : Point) (table : Slice) : F :=
  env.baseMem (table.addr + (pt.coset * env.stride + pt.row))

section

variable (env : Env F E) (ds : List (Sink E (Expr F E))) (aggregate : Bool) (scale : Option (Nat → F))

/-- All sinks at the point `t`, and then the factor of its coset. -/
def evaluatePoint (m : Loc → Cell F E) (t : Nat) : Loc → Cell F E :=
  let pt := env.pointOf t
  let m := ds.foldl (Sink.effect (fun e => e.eval env pt) (env.cancelAt pt) t) m
  match aggregate, scale with
  | true, some s => update m (.aggregate t) (.ext ((m (.aggregate t)).toExt * algebraMap F E (s pt.coset)))
  | _, _ => m

def evaluate (ratio : Nat) (m : Loc → Cell F E) : Loc → Cell F E :=
  (range (ratio * env.n)).foldl (evaluatePoint env ds aggregate scale) m

def scaledCell (k t : Nat) (x : Loc) (c : Cell F E) : Cell F E :=
  match aggregate, scale with
  | true, some s => if .aggregate t = x then .ext (c.toExt * algebraMap F E (s k)) else c
  | _, _ => c

def evaluatedCell (t : Nat) (x : Loc) (c : Cell F E) : Cell F E :=
  scaledCell aggregate scale (env.pointOf t).coset t x
    (cellAfter (fun e => e.eval env (env.pointOf t)) (env.cancelAt (env.pointOf t)) t x ds c)

end

section

variable {ρ : Type} {ev : ρ → E} {cancel : Slice → F} {t : Nat}

theorem foldl_effect (sinks : List (Sink E ρ)) (m : Loc → Cell F E) (x : Loc) :
    sinks.foldl (Sink.effect ev cancel t) m x = cellAfter ev cancel t x sinks (m x) := by
  induction sinks generalizing m with
  | nil => rfl
  | cons s sinks ih =>
    rw [foldl_cons, ih, cellAfter, cellAfter, foldl_cons, Sink.effect]
    congr 1
    split
    · rename_i h
      rw [← h, update_self]
    · rename_i h
      rw [update_of_ne (Ne.symm h)]

theorem cellAfter_of_ne {x : Loc} (hx : x.point ≠ some t) (sinks : List (Sink E ρ)) (c : Cell F E) :
    cellAfter ev cancel t x sinks c = c := by
  induction sinks with
  | nil => rfl
  | cons s sinks ih =>
    rw [cellAfter, foldl_cons, if_neg, ← cellAfter, ih]
    exact fun h => hx (h ▸ s.point_loc t)

theorem cellAfter_map {σ : Type} {ss : List (Sink E (ρ × σ))} {ev' : σ → E}
    (h : ∀ s ∈ ss, ∀ r ∈ s.reads, ev r.1 = ev' r.2) (x : Loc) (c : Cell F E) :
    cellAfter ev cancel t x (ss.map (Sink.map Prod.fst)) c = cellAfter ev' cancel t x
      (ss.map (Sink.map Prod.snd)) c := by
  induction ss generalizing c with
  | nil => rfl
  | cons s ss ih =>
    obtain ⟨hs, hss⟩ := forall_mem_cons.1 h
    rw [map_cons, map_cons, cellAfter, cellAfter, foldl_cons, foldl_cons, ← cellAfter, ← cellAfter, ih hss]
    have hloc : (s.map Prod.fst).loc t = (s.map Prod.snd).loc t := by cases s <;> rfl
    rw [hloc, Sink.cell_map, Sink.cell_map, Sink.cell_congr hs]

end

section

variable {env : Env F E} {ds : List (Sink E (Expr F E))} {aggregate : Bool} {scale : Option (Nat → F)}

theorem evaluatePoint_apply (m : Loc → Cell F E) (t : Nat) (x : Loc) :
    evaluatePoint env ds aggregate scale m t x = evaluatedCell env ds aggregate scale t x (m x) := by
  cases aggregate with
  | false => exact foldl_effect ds m x
  | true =>
    cases scale with
    | none => exact foldl_effect ds m x
    | some s =>
      rw [evaluatePoint, evaluatedCell, scaledCell, ← foldl_effect]
      split
      · rename_i h
        rw [← h, update_self]
      · rename_i h
        rw [update_of_ne (Ne.symm h)]

theorem evaluatedCell_of_ne {t : Nat} {x : Loc} (hx : x.point ≠ some t) (c : Cell F E) :
    evaluatedCell env ds aggregate scale t x c = c := by
  rw [evaluatedCell, cellAfter_of_ne hx]
  cases aggregate with
  | false => rfl
  | true =>
    cases scale with
    | none => rfl
    | some s =>
      refine if_neg ?_
      rintro rfl
      exact hx rfl

theorem evaluate_apply (ratio : Nat) (m : Loc → Cell F E) {x : Loc} {t : Nat} (hx : x.point = some t) :
    evaluate env ds aggregate scale ratio m x =
      if t < ratio * env.n then evaluatedCell env ds aggregate scale t x (m x) else m x := by
  rw [evaluate]
  generalize ratio * env.n = points
  induction points with
  | zero => rfl
  | succ points ih =>
    rw [range_succ, foldl_concat, evaluatePoint_apply, ih]
    by_cases ht : t = points
    · subst ht
      rw [if_neg (lt_irrefl t), if_pos (lt_succ_self t)]
    · rw [evaluatedCell_of_ne (fun h => ht (Option.some.inj (hx.symm.trans h)))]
      by_cases hlt : t < points
      · rw [if_pos hlt, if_pos (lt_succ_of_lt hlt)]
      · rw [if_neg hlt, if_neg (by omega)]

end

/-! ### Workers -/

namespace Program

variable {p : Program F E} {baseMem : Nat → F} {extMem : Nat → E} {aggregate : Bool}
  {scale : Option (Nat → F)} {w : Nat}

variable {blk : Block}

omit [DecidableEq E] in
theorem scaleStep_inside {o : Nat} (ho : o < blk.len) {x : Loc} (hx : x.point = some (p.firstPoint blk + o))
    (m : Loc → Cell F E) :
    p.scaleStep aggregate scale blk m x = scaledCell aggregate scale blk.coset (p.firstPoint blk + o) x (m x) := by
  cases aggregate with
  | false => rfl
  | true =>
    cases scale with
    | none => rfl
    | some s =>
      exact @writeBlock_at _ .aggregate (fun _ => rfl) _ _ _ ho _ hx (fun _ c =>
        .ext (c.toExt * algebraMap F E (s blk.coset))) m

omit [DecidableEq E] in
theorem scaleStep_outside {x : Loc} (hx : ∀ o < blk.len, x.point ≠ some (p.firstPoint blk + o)) (m : Loc → Cell F E) :
    p.scaleStep aggregate scale blk m x = m x := by
  cases aggregate with
  | false => rfl
  | true =>
    cases scale with
    | none => rfl
    | some s =>
      exact @writeBlock_outside _ .aggregate (fun _ => rfl) _ _ _ hx (fun _ c =>
        .ext (c.toExt * algebraMap F E (s blk.coset))) m

theorem cellAfter_sinks {b : Builder F E} {hs : List (Nat × Expr F E)}
    {ds : List (Sink E (Expr F E))} (hb : Built b hs ds)
    (hnodes : p.nodes = b.nodes) (hsinks : p.sinks = b.sinks) {o t : Nat} (hdiv : t / p.n = blk.coset)
    (hmod : t % p.n = blk.start + o) (x : Loc) (c : Cell F E) :
    cellAfter (fun a => (p.valueAt baseMem extMem blk a o).toExt) (p.cancelAt baseMem blk o) t x p.sinks c =
      cellAfter (fun e => e.eval (p.env baseMem extMem) ((p.env baseMem extMem).pointOf t))
        ((p.env baseMem extMem).cancelAt ((p.env baseMem extMem).pointOf t)) t x ds c := by
  have hpoint : (p.env baseMem extMem).pointOf t = ⟨blk.coset, blk.start + o⟩ := by
    rw [← hdiv, ← hmod]
    rfl
  obtain ⟨ss, hss, rfl, hreads⟩ := hb.sinks
  rw [hpoint, hsinks, hss]
  refine cellAfter_map (fun s hs r hr => ?_) x c
  rw [valueAt, hnodes]
  exact (hreads s hs r hr).2 _ _

variable [DecidableEq F]

section

variable {b : Builder F E} {hs : List (Nat × Expr F E)} {ds : List (Sink E (Expr F E))} {lastUse : Nat → Nat}
  (hb : Built b hs ds) (hnodes : p.nodes = b.nodes) (hsinks : p.sinks = b.sinks) (hp : p.Runnable lastUse)
  (horder : p.steps.filterMap Step.sinkId = range p.sinks.length)

include hb hnodes hsinks hp horder

theorem run_block_entry {blk : Nat} (hblk : blk < p.ratio * p.perCoset) {m : Loc → Cell F E}
    (hsized : (m (.regs w)).toRegs.Sized p) :
    let m' :=
      run (p.steps.map (p.runStep baseMem extMem w (p.block blk)) ++ [p.scaleStep aggregate scale (p.block blk)]) m
    (m' (.regs w)).toRegs.Sized p ∧
      ∀ x t, x.point = some t → m' x =
        if t < p.ratio * p.n ∧ p.blockOf t = blk then
          evaluatedCell (p.env baseMem extMem) ds aggregate scale t x (m x)
        else m x := by
  obtain ⟨hsized', hinside, houtside⟩ := @run_block F E _ _ _ p baseMem extMem
    (p.block blk) _ _ w lastUse m hp horder (block_fits hblk) hsized
  rw [run_append]
  refine ⟨?_, fun x t hx => ?_⟩
  · rw [run_cons, run_nil, scaleStep_outside fun o _ h => by cases h]
    exact hsized'
  rw [run_cons, run_nil]
  split
  · rename_i ht
    obtain ⟨o, ho, hto⟩ := (block_of_point ht.1).2
    rw [ht.2] at ho hto
    subst hto
    obtain ⟨-, hdiv, hmod, -⟩ := point_of_block hblk ho
    rw [scaleStep_inside ho hx, hinside o ho x hx, cellAfter_sinks hb hnodes hsinks hdiv hmod, ← hdiv]
    rfl
  · rename_i ht
    have hout : ∀ o < (p.block blk).len, x.point ≠ some (p.firstPoint (p.block blk) + o) := fun o ho h => by
      obtain ⟨hlt, -, -, hof⟩ := point_of_block hblk ho
      cases hx.symm.trans h
      exact ht ⟨hlt, hof⟩
    rw [scaleStep_outside hout]
    exact houtside x (fun h => by rw [h] at hx; cases hx) hout

theorem run_blocks {blks : List Nat} (hnodup : blks.Nodup) (hblks : ∀ blk ∈ blks, blk < p.ratio * p.perCoset)
    {m : Loc → Cell F E} (hsized : (m (.regs w)).toRegs.Sized p) {x : Loc} {t : Nat} (hx : x.point = some t) :
    run (blks.flatMap fun blk =>
        p.steps.map (p.runStep baseMem extMem w (p.block blk)) ++ [p.scaleStep aggregate scale (p.block blk)]) m x =
      if t < p.ratio * p.n ∧ p.blockOf t ∈ blks then evaluatedCell (p.env baseMem extMem) ds aggregate scale t x (m x)
      else m x := by
  induction blks generalizing m with
  | nil => rw [if_neg fun h => absurd h.2 not_mem_nil]; rfl
  | cons blk blks ih =>
    obtain ⟨hblk, hrest⟩ := forall_mem_cons.1 hblks
    obtain ⟨hnew, hnodup⟩ := nodup_cons.1 hnodup
    obtain ⟨hsized', hentry⟩ := @run_block_entry F E _ _ _ _ p baseMem extMem aggregate scale w _ b hs ds lastUse
      hb hnodes hsinks hp horder
      blk hblk m hsized
    rw [flatMap_cons, run_append, ih hnodup hrest hsized', hentry x t hx]
    by_cases hof : p.blockOf t = blk
    · subst hof
      rw [if_neg fun h => hnew h.2]
      simp only [mem_cons_self, and_true]
    · simp only [hof, and_false, if_false, mem_cons, false_or]

theorem run_work {piece : Nat × Nat} (hpiece : piece.2 ≤ p.ratio * p.perCoset) {m : Loc → Cell F E} {x : Loc} {t : Nat}
    (hx : x.point = some t) (ht : t < p.ratio * p.n) (hfirst : piece.1 ≤ p.blockOf t) (hlast : p.blockOf t < piece.2) :
    run (p.work baseMem extMem aggregate scale w piece) m x =
      evaluatedCell (p.env baseMem extMem) ds aggregate scale t x (m x) := by
  have hmem (blk : Nat) : blk ∈ Tiling.members piece ↔ piece.1 ≤ blk ∧ blk < piece.2 := by
    rw [Tiling.members, mem_range'_1]
    omega
  have hsized : ((update m (.regs w) (.regs p.newRegs)) (.regs w)).toRegs.Sized p := by
    rw [update_self]
    exact ⟨length_replicate, length_replicate⟩
  have hne : x ≠ .regs w := fun h => by
    rw [h] at hx
    cases hx
  have hnodup : (Tiling.members piece).Nodup := nodup_range'
  rw [work, run_cons, run_blocks hb hnodes hsinks hp horder hnodup (fun blk hblk =>
    ((hmem blk).1 hblk).2.trans_le hpiece)
    hsized hx, if_pos ⟨ht, (hmem _).2 ⟨hfirst, hlast⟩⟩, update_of_ne hne]

end

/-- Every step of a worker keeps to what is its own. -/
theorem local_work {piece : Nat × Nat} (hpiece : piece.2 ≤ p.ratio * p.perCoset) :
    ∀ f ∈ p.work baseMem extMem aggregate scale w piece, Parallel.Local (p.own w piece) ∅ f := by
  have hregs : .regs w ∈ p.own w piece := .inl rfl
  refine forall_mem_cons.2 ⟨local_setRegs hregs fun _ => p.newRegs, fun f hf => ?_⟩
  obtain ⟨blk, hblk, hf⟩ := mem_flatMap.1 hf
  obtain ⟨hle, hlt⟩ : piece.1 ≤ blk ∧ blk < piece.2 := by
    have := mem_range'_1.1 hblk
    omega
  have hown : ∀ o < (p.block blk).len, ∀ x : Loc, x.point = some (p.firstPoint (p.block blk) + o) →
    x ∈ p.own w piece := by
    intro o ho x hx
    obtain ⟨ht, -, -, hof⟩ := point_of_block (hlt.trans_le hpiece) ho
    exact .inr ⟨_, hx, ht, hof.symm ▸ hle, hof.symm ▸ hlt⟩
  rcases mem_append.1 hf with hf | hf
  · obtain ⟨st, -, rfl⟩ := mem_map.1 hf
    cases st with
    | node id => exact local_setRegs hregs fun r => p.compute baseMem extMem (p.block blk) r id
    | sink i =>
      cases hsk : p.sinks[i]? with
      | none =>
        have hstep : p.runStep baseMem extMem w (p.block blk) (.sink i) = fun m => m := by
          funext m
          rw [runStep, hsk]
        exact hstep ▸ local_id
      | some sk =>
        have hstep : p.runStep baseMem extMem w (p.block blk) (.sink i) = fun m =>
            writeBlock sk.loc (p.firstPoint (p.block blk)) (p.block blk).len
              (p.sinkCell baseMem extMem (p.block blk) (m (.regs w)).toRegs sk) m := by
          funext m
          rw [runStep, hsk]
        exact hstep ▸ local_writeBlock hregs sk.point_loc hown fun r => p.sinkCell baseMem extMem (p.block blk) r sk
  · rw [mem_singleton.1 hf]
    cases aggregate with
    | false => exact local_id
    | true =>
      cases scale with
      | none => exact local_id
      | some s =>
        exact @local_writeBlock F E w _ hregs .aggregate (fun _ => rfl) _ _ hown fun _ _ c =>
          .ext (c.toExt * algebraMap F E (s _))

end Program

/-- Every run of a compiled program is the evaluation of the declared sinks, and a program whose padded tables fit
compiles. -/
theorem compiled_runs_evaluate [DecidableEq F] {b : Builder F E} {hs : List (Nat × Expr F E)}
    {ds : List (Sink E (Expr F E))}
    (hb : Builds b hs ds) {n : Nat} (hoffset : ∀ nd ∈ b.nodes, nd.OffsetBelow n) (ratio cosetStep : Nat) :
    ((∀ nd ∈ b.nodes, nd.fits n = true) → ∃ p, b.compile n ratio cosetStep = some p) ∧
    ∀ p, b.compile n ratio cosetStep = some p → p.KeepsOperands ∧ ∀ (baseMem : Nat → F) (extMem : Nat → E)
    (aggregate : Bool) (scale : Option (Nat → F))
      (workers : Nat) (m : Loc → Cell F E), (p.accumulates = true → aggregate = true) →
      (∃ m', p.Runs baseMem extMem aggregate scale workers m m') ∧
      ∀ m', p.Runs baseMem extMem aggregate scale workers m m' → ∀ x, x.point ≠ none →
        m' x = evaluate ⟨baseMem, extMem, n, cosetStep * n⟩ ds aggregate scale ratio m x := by
  have hbuilt := hb.built
  have hsinks : ∀ sk ∈ b.sinks, ∀ a ∈ sk.reads, a < b.nodes.length := by
    obtain ⟨ss, hss, -, hreads⟩ := hbuilt.sinks
    intro sk hsk a ha
    rw [hss] at hsk
    obtain ⟨s, hs, rfl⟩ := mem_map.1 hsk
    rw [Sink.reads_map] at ha
    obtain ⟨r, hr, rfl⟩ := mem_map.1 ha
    exact (hreads s hs r hr).1
  refine ⟨fun hfits => ?_, fun p hp => ?_⟩
  · obtain ⟨s, hs⟩ := exists_schedule hbuilt.wf hfits hsinks
    exact ⟨_, by rw [Builder.compile, hs]; rfl⟩
  have hc := compile_spec hbuilt.wf hsinks hp
  obtain ⟨lastUse, hrunnable⟩ := hc.runnable hbuilt.wf hoffset
  refine ⟨hrunnable.keepsOperands, fun baseMem extMem aggregate scale workers m hagg => ?_⟩
  obtain ⟨m', hm'⟩ := exists_executes (p.ratio * p.perCoset) workers (p.work baseMem extMem aggregate scale) m
  refine ⟨⟨m', hagg, hm'⟩, fun m' hrun x hx => ?_⟩
  obtain ⟨hin, hout⟩ := hrun.2.spec p.own ∅ (fun w piece _ hle => Program.local_work hle)
    (fun _ _ _ _ hne hdisj x => Program.own_disjoint hne hdisj) (fun _ _ x hx => absurd hx (Set.notMem_empty x))
  obtain ⟨t, ht⟩ := Option.ne_none_iff_exists'.1 hx
  have henv : p.env baseMem extMem = ⟨baseMem, extMem, n, cosetStep * n⟩ := by
    rw [Program.env, hc.points.1, hc.points.2.2]
  rw [← henv, ← hc.points.2.1, evaluate_apply _ _ ht]
  have hne {w : Nat} : x ≠ .regs w := fun h => by
    rw [h] at ht
    cases ht
  split
  · rename_i hlt
    obtain ⟨w, piece, hfirst, hlast, hle, hown⟩ := hin _ (Program.block_of_point hlt).1
    rw [hown x (.inr ⟨t, ht, hlt, hfirst, hlast⟩)]
    exact Program.run_work hbuilt hc.nodes hc.sinks hrunnable hc.sinkSteps hle ht hlt hfirst hlast
  · rename_i hge
    refine hout x fun w piece hx => ?_
    rcases hx with h | ⟨t', ht', hlt, -⟩
    · exact hne h
    · cases ht.symm.trans ht'
      exact hge hlt

def inverseBuilder : Builder ℚ ℚ := ⟨[.vecBase ⟨0, 2⟩ 1 none, .op true .inverse [0]], [.store 1 0]⟩

theorem builds_inverseBuilder :
    Builds inverseBuilder [(1, .unary .inverse (.base ⟨0, 2⟩ 1 none)), (0, .base ⟨0, 2⟩ 1 none)]
      [.store (.unary .inverse (.base ⟨0, 2⟩ 1 none)) 0] := by
  have hbase : Builds (⟨[.vecBase ⟨0, 2⟩ 1 none], []⟩ : Builder ℚ ℚ) [(0, .base ⟨0, 2⟩ 1 none)] [] :=
    .base .new ⟨0, 2⟩ 1 none
  have hop : Builds (⟨[.vecBase ⟨0, 2⟩ 1 none, .op true .inverse [0]], []⟩ : Builder ℚ ℚ)
      [(1, .unary .inverse (.base ⟨0, 2⟩ 1 none)), (0, .base ⟨0, 2⟩ 1 none)] [] := .unary hbase mem_cons_self rfl
  exact .sink hop (.store (1, .unary .inverse (.base ⟨0, 2⟩ 1 none)) 0) fun r hr => mem_singleton.1 hr ▸ mem_cons_self

theorem compiled_runs_evaluate_inverse :
    ∃ p m', inverseBuilder.compile 2 1 1 = some p ∧
      p.Runs (fun i => if i = 0 then 2 else 0) (fun _ => 0) true none 3 (fun _ => .count 0) m' ∧
        m' (.dst 0 0) = .ext 0 ∧ m' (.dst 0 1) = .ext (1 / 2) := by
  have hoffset : ∀ nd ∈ inverseBuilder.nodes, nd.OffsetBelow 2 := by
    intro nd hnd
    rcases mem_pair.1 hnd with rfl | rfl
    · exact one_lt_two
    · trivial
  obtain ⟨hcompiles, hruns⟩ := compiled_runs_evaluate builds_inverseBuilder hoffset 1 1
  obtain ⟨p, hp⟩ := hcompiles (by
    intro nd hnd
    rcases mem_pair.1 hnd with rfl | rfl <;> rfl)
  obtain ⟨⟨m', hm'⟩, heval⟩ := (hruns p hp).2 (fun i => if i = 0 then 2 else 0)
    (fun _ => 0) true none 3 (fun _ => .count 0) fun _ => rfl
  refine ⟨p, m', hp, hm', ?_, ?_⟩
  · rw [heval m' hm' _ (by decide), evaluate_apply 1 _ rfl]
    simp [evaluatedCell, scaledCell, cellAfter, Sink.loc, Sink.cell, Expr.eval, Env.readBase,
      readTable, Env.pointOf, Op.apply]
  · rw [heval m' hm' _ (by decide), evaluate_apply 1 _ rfl]
    simp [evaluatedCell, scaledCell, cellAfter, Sink.loc, Sink.cell, Expr.eval, Env.readBase,
      readTable, Env.pointOf, Op.apply]

end Lineth.Vecprog
