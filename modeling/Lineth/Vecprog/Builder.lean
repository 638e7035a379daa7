import Mathlib.Algebra.Algebra.Defs
import Mathlib.Algebra.Field.Basic
import Mathlib.Algebra.BigOperators.Group.List.Basic
import Lineth.Lib.Straightline

/-!
# Building vector programs

Expressions over tables of field elements are lowered into a list of nodes, each added once. Operations on scalars are
made at once, and an extension-valued expression that is affine in base-valued ones with scalar coefficients becomes
one linear node. -/

namespace Lineth.Vecprog

/-! ### Operators -/

inductive Op where
  | add
  | sub
  | mul
  | div
  | double
  | square
  | negate
  | inverse
deriving DecidableEq, Repr

def Op.arity : Op → Nat
  | add | sub | mul | div => 2
  | double | square | negate | inverse => 1

/-- `applyBase` and `applyExt`; zero is its own inverse. -/
def Op.apply {K : Type} [Field K] : Op → List K → K
  | add, [x, y] => x + y
  | sub, [x, y] => x - y
  | mul, [x, y] => x * y
  | div, [x, y] => x * y⁻¹
  | double, [x] => x + x
  | square, [x] => x * x
  | negate, [x] => -x
  | inverse, [x] => x⁻¹
  | _, _ => 0

/-! ### Nodes -/

/-- A table: where it starts in memory, and its length. -/
structure Slice where
  addr : Nat
  len : Nat
deriving DecidableEq, Repr

/-- The rows of a padded table outside the data hold `pad`; `start` is the row of the first element. -/
structure Padding (F : Type) where
  pad : F
  start : Int
deriving DecidableEq, Repr

inductive Node (F E : Type) where
  | scalarBase (s : F)
  | scalarExt (s : E)
  | vecBase (table : Slice) (offset : Nat) (padding : Option (Padding F))
  | vecExt (table : Slice) (offset : Nat) (padding : Option (Padding F))
  | op (isBase : Bool) (o : Op) (args : List Nat)
  /-- `s + Σ coefs[i]·atoms[i]`, as pairs of an atom and its coefficient. -/
  | linear (s : E) (terms : List (Nat × E))
deriving DecidableEq, Repr

variable {F E : Type}

namespace Node

def isScalar : Node F E → Bool
  | scalarBase _ | scalarExt _ => true
  | _ => false

def isBase : Node F E → Bool
  | scalarBase _ | vecBase .. => true
  | op isBase .. => isBase
  | _ => false

def isComputed : Node F E → Bool
  | op .. | linear .. => true
  | _ => false

def deps : Node F E → List Nat
  | op _ _ args => args
  | linear _ terms => terms.map Prod.fst
  | _ => []

/-- Whether a node can take part in a linear form: as its constant, as an atom or by merging. -/
def linearizable : Node F E → Bool
  | linear .. => true
  | n => n.isScalar || n.isBase

end Node

/-! ### Sinks -/

/-- What is done with a root. Callbacks and destinations are numbered. -/
inductive Sink (E ρ : Type) where
  /-- `aggregate += coef · root · cancellation`. -/
  | accumulate (root : ρ) (cancellation : Option Slice) (coef : E)
  | store (root : ρ) (dst : Nat)
  | addTo (root : ρ) (dst : Nat)
  /-- `onZero(t)` where the root is zero and the guard is not. -/
  | check (root guard : ρ) (onZero : Nat)
deriving DecidableEq, Repr

def Sink.map {ρ σ : Type} (f : ρ → σ) : Sink E ρ → Sink E σ
  | accumulate root cancellation coef => accumulate (f root) cancellation coef
  | store root dst => store (f root) dst
  | addTo root dst => addTo (f root) dst
  | check root guard onZero => check (f root) (f guard) onZero

def Sink.reads {ρ : Type} : Sink E ρ → List ρ
  | accumulate root .. | store root _ | addTo root _ => [root]
  | check root guard _ => [root, guard]

/-! ### Linear forms -/

/-- `c + Σ coefs[i]·atoms[i]` during construction, the atoms increasing. -/
structure LinForm (E : Type) where
  c : E
  terms : List (Nat × E)

section

variable [Field E]

/-- The loop of `linForm.plus`. -/
def mergeTerms : List (Nat × E) → List (Nat × E) → List (Nat × E)
  | [], r => r
  | l, [] => l
  | (a, x) :: l, (b, y) :: r =>
    if a < b then (a, x) :: mergeTerms l ((b, y) :: r)
    else if b < a then (b, y) :: mergeTerms ((a, x) :: l) r
    else (a, x + y) :: mergeTerms l r
termination_by l r => l.length + r.length

def LinForm.plus (l r : LinForm E) : LinForm E := ⟨l.c + r.c, mergeTerms l.terms r.terms⟩

def LinForm.scale (l : LinForm E) (s : E) : LinForm E := ⟨l.c * s, l.terms.map fun t => (t.1, t.2 * s)⟩

end

/-! ### The builder -/

structure Builder (F E : Type) where
  nodes : List (Node F E)
  sinks : List (Sink E Nat)

namespace Builder

def new : Builder F E := ⟨[], []⟩

section

variable [DecidableEq F] [DecidableEq E]

section

variable (b : Builder F E)

def intern (n : Node F E) : Builder F E × Nat :=
  if n ∈ b.nodes then (b, b.nodes.idxOf n) else ({ b with nodes := b.nodes ++ [n] }, b.nodes.length)

section

variable (table : Slice) (offset : Nat) (padding : Option (Padding F))

def base : Builder F E × Nat :=
  b.intern (.vecBase table offset padding)

def ext : Builder F E × Nat :=
  b.intern (.vecExt table offset padding)

end

def scalarBase (s : F) : Builder F E × Nat := b.intern (.scalarBase s)

def scalarExt (s : E) : Builder F E × Nat := b.intern (.scalarExt s)

end

variable [Field F] [Field E] [Algebra F E]

def scalarValue : Node F E → E
  | .scalarBase s => algebraMap F E s
  | .scalarExt s => s
  | _ => 0

def baseScalarValue : Node F E → F
  | .scalarBase s => s
  | _ => 0

def linForm (id : Nat) : Node F E → LinForm E
  | .linear s terms => ⟨s, terms⟩
  | n => if n.isScalar then ⟨scalarValue n, []⟩ else ⟨0, [(id, 1)]⟩

/-- A linear form without its zero terms, as a scalar when none is left. -/
def linear (b : Builder F E) (l : LinForm E) : Builder F E × Nat :=
  let terms := l.terms.filter fun t => t.2 ≠ 0
  if terms = [] then b.scalarExt l.c else b.intern (.linear l.c terms)

/-- The linear form of an operation that has one. -/
def redistribute (o : Op) (operands : List (Nat × Node F E)) : Option (LinForm E) :=
  match o, operands with
  | .add, [x, y] =>
    if x.2.linearizable && y.2.linearizable then some ((linForm x.1 x.2).plus (linForm y.1 y.2)) else none
  | .sub, [x, y] =>
    if x.2.linearizable && y.2.linearizable then some ((linForm x.1 x.2).plus ((linForm y.1 y.2).scale (-1))) else none
  | .negate, [x] => if x.2.linearizable then some ((linForm x.1 x.2).scale (-1)) else none
  | .double, [x] => if x.2.linearizable then some ((linForm x.1 x.2).scale (1 + 1)) else none
  | .mul, [x, y] =>
    if x.2.isScalar && y.2.linearizable then some ((linForm y.1 y.2).scale (scalarValue x.2))
    else if y.2.isScalar && x.2.linearizable then some ((linForm x.1 x.2).scale (scalarValue y.2))
    else none
  | _, _ => none

/-- `o` applied to `args`; there is none if the number of operands is wrong or one is not a node. -/
def op (b : Builder F E) (o : Op) (args : List Nat) : Option (Builder F E × Nat) := do
  if args.length ≠ o.arity then none
  let operands ← args.mapM fun a => b.nodes[a]?
  if operands.all Node.isScalar then
    if operands.all Node.isBase then return b.scalarBase (o.apply (operands.map baseScalarValue))
    else return b.scalarExt (o.apply (operands.map scalarValue))
  else if operands.all Node.isBase then return b.intern (.op true o args)
  else match redistribute o (args.zip operands) with
    | some l => return b.linear l
    | none => return b.intern (.op false o args)

end

def addSink (b : Builder F E) (s : Sink E Nat) : Builder F E := { b with sinks := b.sinks ++ [s] }

end Builder

/-! ### Values -/

/-- The tables, and how they are read: the points are laid out as cosets of `n`, `stride` entries of a table apart. -/
structure Env (F E : Type) where
  baseMem : Nat → F
  extMem : Nat → E
  n : Nat
  stride : Nat

/-- A row of a coset. -/
structure Point where
  coset : Nat
  row : Nat
deriving DecidableEq, Repr

def readTable {K : Type} (mem : Nat → K) (n stride : Nat) (table : Slice) (offset : Nat)
    (padding : Option (K × Int)) (p : Point) : K :=
  let row := (p.row + offset) % n
  match padding with
  | none => mem (table.addr + (p.coset * stride + row))
  | some (pad, start) =>
    if start ≤ row ∧ row < start + table.len then mem (table.addr + (row - start).toNat) else pad

inductive Value (F E : Type) where
  | base (x : F)
  | ext (x : E)

section

variable [Field F] [Field E] [Algebra F E]

def Value.toExt : Value F E → E
  | base x => algebraMap F E x
  | ext x => x

def Value.toBase : Value F E → F
  | base x => x
  | ext _ => 0

section

variable (env : Env F E) (table : Slice) (offset : Nat) (padding : Option (Padding F)) (p : Point)

def Env.readBase : F :=
  readTable env.baseMem env.n env.stride table offset (padding.map fun q => (q.pad, q.start)) p

def Env.readExt : E :=
  readTable env.extMem env.n env.stride table offset (padding.map fun q => (algebraMap F E q.pad, q.start)) p

end

inductive Expr (F E : Type) where
  | base (table : Slice) (offset : Nat) (padding : Option (Padding F))
  | ext (table : Slice) (offset : Nat) (padding : Option (Padding F))
  | scalar (v : Value F E)
  | unary (o : Op) (a : Expr F E)
  | binary (o : Op) (a b : Expr F E)

def Expr.eval (env : Env F E) (p : Point) : Expr F E → E
  | base table offset padding => algebraMap F E (env.readBase table offset padding p)
  | ext table offset padding => env.readExt table offset padding p
  | scalar v => v.toExt
  | unary o a => o.apply [a.eval env p]
  | binary o a b => o.apply [a.eval env p, b.eval env p]

def Node.eval (env : Env F E) (p : Point) : Node F E → (Nat → Value F E) → Value F E
  | scalarBase s, _ => .base s
  | scalarExt s, _ => .ext s
  | vecBase table offset padding, _ => .base (env.readBase table offset padding p)
  | vecExt table offset padding, _ => .ext (env.readExt table offset padding p)
  | op true o args, v => .base (o.apply (args.map fun a => (v a).toBase))
  | op false o args, v => .ext (o.apply (args.map fun a => (v a).toExt))
  | linear s terms, v => .ext (s + (terms.map fun t => t.2 * (v t.1).toExt).sum)

def value (env : Env F E) (p : Point) (nodes : List (Node F E)) (id : Nat) : Value F E :=
  Straightline.value (Node.eval env p) (.base 0) nodes id

end

/-! ### Runs of the builder -/

section

variable [DecidableEq F] [DecidableEq E] [Field F] [Field E] [Algebra F E]

/-- A run of the builder: the handles it has given out, each with its expression, and the sinks that were declared. -/
inductive Builds : Builder F E → List (Nat × Expr F E) → List (Sink E (Expr F E)) → Prop
  | new : Builds .new [] []
  | base {b : Builder F E} {hs : List (Nat × Expr F E)} {ds : List (Sink E (Expr F E))}
      (h : Builds b hs ds) (table : Slice) (offset : Nat) (padding : Option (Padding F)) :
      Builds (b.base table offset padding).1 (((b.base table offset padding).2, .base table offset padding) :: hs) ds
  | ext {b : Builder F E} {hs : List (Nat × Expr F E)} {ds : List (Sink E (Expr F E))}
      (h : Builds b hs ds) (table : Slice) (offset : Nat) (padding : Option (Padding F)) :
      Builds (b.ext table offset padding).1 (((b.ext table offset padding).2, .ext table offset padding) :: hs) ds
  | scalarBase {b : Builder F E} {hs : List (Nat × Expr F E)} {ds : List (Sink E (Expr F E))}
      (h : Builds b hs ds) (s : F) :
      Builds (b.scalarBase s).1 (((b.scalarBase s).2, .scalar (.base s)) :: hs) ds
  | scalarExt {b : Builder F E} {hs : List (Nat × Expr F E)} {ds : List (Sink E (Expr F E))}
      (h : Builds b hs ds) (s : E) :
      Builds (b.scalarExt s).1 (((b.scalarExt s).2, .scalar (.ext s)) :: hs) ds
  | unary {b b' : Builder F E} {hs : List (Nat × Expr F E)} {ds : List (Sink E (Expr F E))}
      (h : Builds b hs ds) {o : Op} {id x : Nat}
      {a : Expr F E} (ha : (x, a) ∈ hs) (hop : b.op o [x] = some (b', id)) : Builds b' ((id, .unary o a) :: hs) ds
  | binary {b b' : Builder F E} {hs : List (Nat × Expr F E)} {ds : List (Sink E (Expr F E))}
      (h : Builds b hs ds) {o : Op}
      {id x y : Nat} {a c : Expr F E} (ha : (x, a) ∈ hs) (hc : (y, c) ∈ hs) (hop : b.op o [x, y] = some (b', id)) :
      Builds b' ((id, .binary o a c) :: hs) ds
  | sink {b : Builder F E} {hs : List (Nat × Expr F E)} {ds : List (Sink E (Expr F E))} (h : Builds b hs ds)
      (s : Sink E (Nat × Expr F E)) (hs' : ∀ r ∈ s.reads, r ∈ hs) :
      Builds (b.addSink (s.map Prod.fst)) hs (ds ++ [s.map Prod.snd])

end

end Lineth.Vecprog
