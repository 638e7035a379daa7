import Lineth.Lib.Parallel
import Lineth.Vecprog.Block
import Lineth.Vecprog.Compile

/-!
# Running programs

The points of a coset are split into blocks, which are shared out among workers. A worker goes through the steps of
the program once for each of its blocks: a node is computed into its register, and a sink is applied to the entries of
the block. -/

namespace Lineth.Vecprog

variable {F E : Type}

/-! ### Memory -/

structure Regs (F E : Type) where
  base : List (List F)
  ext : List (List E)

inductive Loc where
  | regs (w : Nat)
  | dst (d t : Nat)
  | aggregate (t : Nat)
  /-- How often a callback was called for the point `t`. -/
  | calls (onZero t : Nat)
deriving DecidableEq, Repr

def Loc.point : Loc → Option Nat
  | regs _ => none
  | dst _ t | aggregate t | calls _ t => some t

inductive Cell (F E : Type) where
  | regs (r : Regs F E)
  | ext (x : E)
  | count (c : Nat)

def Cell.toRegs : Cell F E → Regs F E
  | regs r => r
  | _ => ⟨[], []⟩

def Cell.toExt [Zero E] : Cell F E → E
  | ext x => x
  | _ => 0

def Cell.toCount : Cell F E → Nat
  | count c => c
  | _ => 0

/-- The entries for the points from `point` on are written one after the other. -/
def writeBlock {V : Type} (loc : Nat → Loc) (point L : Nat) (f : Nat → V → V) (m : Loc → V) : Loc → V :=
  (List.range L).foldl (fun m i => Function.update m (loc (point + i)) (f i (m (loc (point + i))))) m

def Sink.loc {ρ : Type} : Sink E ρ → Nat → Loc
  | accumulate .. => .aggregate
  | store _ d | addTo _ d => .dst d
  | check _ _ c => .calls c

def Sink.isAccumulate {ρ : Type} : Sink E ρ → Bool
  | accumulate .. => true
  | _ => false

/-! ### Blocks -/

def blockSize : Nat := 256

structure Block where
  coset : Nat
  start : Nat
  len : Nat
deriving DecidableEq, Repr

def Regs.setBase (regs : Regs F E) (r : Nat) (v : List F) : Regs F E :=
  { regs with base := regs.base.modify r fun old => v ++ old.drop v.length }

def Regs.setExt (regs : Regs F E) (r : Nat) (v : List E) : Regs F E :=
  { regs with ext := regs.ext.modify r fun old => v ++ old.drop v.length }

def tableView {K : Type} (mem : Nat → K) (n tableStart : Nat) (table : Slice) (padding : Option (K × Int))
    (idx L : Nat) : List K :=
  match padding with
  | some (pad, start) => paddedView (fun j => mem (table.addr + j)) table.len pad start n idx L
  | none => wrappedView (fun j => mem (table.addr + (tableStart + j))) n idx L

namespace Program

variable (p : Program F E)

def perCoset : Nat := (p.n + blockSize - 1) / blockSize

def accumulates : Bool := p.sinks.any Sink.isAccumulate

def block (blk : Nat) : Block :=
  let i0 := blk % p.perCoset * blockSize
  ⟨blk / p.perCoset, i0, min blockSize (p.n - i0)⟩

def leafIndex (offset : Nat) (blk : Block) : Nat :=
  let idx := blk.start + offset
  if idx ≥ p.n then idx - p.n else idx

def firstPoint (blk : Block) : Nat := blk.coset * p.n + blk.start

variable [Field F] [Field E]

def newRegs : Regs F E :=
  ⟨List.replicate (p.nb true) (List.replicate blockSize 0), List.replicate (p.nb false) (List.replicate blockSize 0)⟩

variable [Algebra F E] (baseMem : Nat → F) (extMem : Nat → E)

def env : Env F E := ⟨baseMem, extMem, p.n, p.stride⟩

def operand (blk : Block) (regs : Regs F E) (id : Nat) : Operand F E :=
  match p.nodes[id]? with
  | some (.scalarBase s) => .scalarBase s
  | some (.scalarExt s) => .scalarExt s
  | some (.vecBase table offset padding) =>
    .base (if id ∈ p.leaves then
      tableView baseMem p.n (blk.coset * p.stride) table (padding.map fun q => (q.pad, q.start))
        (p.leafIndex offset blk) blk.len
    else [])
  | some (.vecExt table offset padding) =>
    .ext (if id ∈ p.leaves then
      tableView extMem p.n (blk.coset * p.stride) table (padding.map fun q => (algebraMap F E q.pad, q.start))
        (p.leafIndex offset blk)
        blk.len
    else [])
  | some (.op true ..) => .base ((regs.base.getD (p.reg id) []).take blk.len)
  | some (.op false ..) | some (.linear ..) => .ext ((regs.ext.getD (p.reg id) []).take blk.len)
  | none => .ext []

variable [DecidableEq F] [DecidableEq E]

def compute (blk : Block) (regs : Regs F E) (id : Nat) : Regs F E :=
  let operand := p.operand baseMem extMem blk regs
  match p.nodes[id]? with
  | some (.linear s terms) => regs.setExt (p.reg id) (linearOp s (terms.map fun t => (operand t.1, t.2)) blk.len)
  | some (.op true o args) => regs.setBase (p.reg id) (baseOp o (args.map operand) blk.len)
  | some (.op false o args) => regs.setExt (p.reg id) (extOp o (args.map operand) blk.len)
  | _ => regs

omit [DecidableEq F] in
/-- What a sink makes of the entry of the point `i` of a block. -/
def sinkCell (blk : Block) (regs : Regs F E) : Sink E Nat → Nat → Cell F E → Cell F E
  | .store root _, i, _ => .ext (((p.operand baseMem extMem blk regs root).extVector blk.len).getD i 0)
  | .addTo root _, i, c =>
    match p.operand baseMem extMem blk regs root with
    | .base v => .ext (c.toExt + algebraMap F E (v.getD i 0))
    | root => .ext (c.toExt + (root.extVector blk.len).getD i 0)
  | .check root guard _, i, c =>
    if (p.operand baseMem extMem blk regs root).extAt i = 0 ∧ (p.operand baseMem extMem blk regs guard).extAt i ≠ 0 then
      .count (c.toCount + 1)
    else c
  | .accumulate root cancellation coef, i, c =>
    let cancel := cancellation.map fun table => vec blk.len fun i =>
      baseMem (table.addr + (blk.coset * p.stride + blk.start + i))
    .ext (c.toExt + coef * (((p.operand baseMem extMem blk regs root).broadcast blk.len).cancelled cancel).extAt i)

def runStep (w : Nat) (blk : Block) : Step → Parallel.Step Loc (Cell F E)
  | .node id, m => Function.update m (.regs w) (.regs (p.compute baseMem extMem blk (m (.regs w)).toRegs id))
  | .sink i, m =>
    match p.sinks[i]? with
    | some sk => writeBlock sk.loc (p.firstPoint blk) blk.len (p.sinkCell baseMem extMem blk (m (.regs w)).toRegs sk) m
    | none => m

omit [DecidableEq F] [DecidableEq E] in
section

variable (aggregate : Bool) (scale : Option (Nat → F))

/-- The block of the aggregate is scaled after the steps. -/
def scaleStep (blk : Block) : Parallel.Step Loc (Cell F E) := fun m =>
  match aggregate, scale with
  | true, some s =>
    writeBlock .aggregate (p.firstPoint blk) blk.len (fun _ c => .ext (c.toExt * algebraMap F E (s blk.coset))) m
  | _, _ => m

def work (w : Nat) (piece : Nat × Nat) : List (Parallel.Step Loc (Cell F E)) :=
  (fun m => Function.update m (.regs w) (.regs p.newRegs)) ::
    (Tiling.members piece).flatMap fun blk =>
      p.steps.map (p.runStep baseMem extMem w (p.block blk)) ++ [p.scaleStep aggregate scale (p.block blk)]

/-- `Run`, with an aggregate or without, in some order of the steps of the workers. It panics if the program
accumulates and there is no aggregate. -/
def Runs (workers : Nat) (m m' : Loc → Cell F E) : Prop :=
  (p.accumulates = true → aggregate = true) ∧
    Parallel.Executes (p.ratio * p.perCoset) workers (p.work baseMem extMem aggregate scale) m m'

end

end Program

end Lineth.Vecprog
