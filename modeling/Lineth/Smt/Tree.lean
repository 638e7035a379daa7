import Lineth.Lib.Merkle

/-!
# The sparse Merkle tree (`smt_koalabear`)

The levels of the tree are slices that grow on demand: positions past the end stand for empty subtrees, whose nodes
are precomputed in `emptyNodes`. `Tree.update` writes one leaf and rewrites the path above it, padding each slice;
`Tree.prove` reads the siblings of a path; `recoverRoot` and `verify` are the verifier's side. The digest type is a
parameter: `⊥` is the zero octuplet, which is also the empty leaf, and `hashLR` is the hash of two children. Panics
are the errors of an `Except`. Shifts `1 << d` are the 64-bit ones. -/

namespace Lineth.Smt

/-- The panics of the package; `index` and `makeslice` are Go's own, for a slice access out of bounds and
a negative length. -/
inductive Panic where
  | outOfBound | negative | index | idxNotZero | rootPosition | zeroRoot | zeroNode | nodeOutOfBound
  | badLevel | extendRoot | overextend | makeslice | notPowerOfTwo (numLeaves : Nat)
  | lastLevel (len : Nat)
deriving DecidableEq, Repr

/-- `1 << d` on a 64-bit `int`. -/
def shl1 (d : Nat) : Int := Int.bmod (2 ^ d) (2 ^ 64)

def defaultDepth : Nat := 40

structure Tree (H : Type) where
  depth : Nat
  root : H
  /-- The leaves up to the last one written. -/
  occupiedLeaves : List H
  /-- The nodes of the levels `1, …, depth - 1`. -/
  occupiedNodes : List (List H)
  /-- The empty node of the levels `1, …, depth - 1`. -/
  emptyNodes : List H
deriving Repr

structure Proof (H : Type) where
  path : Int
  siblings : List H
deriving DecidableEq, Repr

variable {H : Type} [DecidableEq H] [Bot H]

def emptyLeaf : H := ⊥

/-- The loop of `NewEmptyTree`: `n` empty nodes above `prevNode`, and the last node reached. -/
def emptyNodesAbove (hashLR : H → H → H) : Nat → H → List H × H
  | 0, prevNode => ([], prevNode)
  | n + 1, prevNode =>
    let newNode := hashLR prevNode prevNode
    let above := emptyNodesAbove hashLR n newNode
    (newNode :: above.1, above.2)

def newEmptyTree (hashLR : H → H → H) (depths : List Int) : Tree H :=
  let depth := match depths with
    | d :: _ => if 0 < d then d.toNat else defaultDepth
    | [] => defaultDepth
  let levels := emptyNodesAbove hashLR (depth - 1) emptyLeaf
  { depth := depth
    root := hashLR levels.2 levels.2
    occupiedLeaves := []
    occupiedNodes := List.replicate (depth - 1) []
    emptyNodes := levels.1 }

namespace Tree

def getLeaf (t : Tree H) (pos : Int) : Except Panic H :=
  if pos ≥ shl1 t.depth then throw .outOfBound
  else if pos < 0 then throw .negative
  else if pos ≥ t.occupiedLeaves.length then return emptyLeaf
  else match t.occupiedLeaves[pos.toNat]? with
    | some leaf => return leaf
    | none => throw .index

/-- The slice of a level above the leaves, with Go's bound check. -/
def nodesOf (t : Tree H) (level : Nat) : Except Panic (List H) :=
  match t.occupiedNodes[level - 1]? with
  | some ns => return ns
  | none => throw .index

def emptyNode (t : Tree H) (level : Nat) : Except Panic H :=
  match t.emptyNodes[level - 1]? with
  | some e => return e
  | none => throw .index

/-- The node of a level: `0` is a leaf, `depth` is the root. -/
def getNode (t : Tree H) (level posInLevel : Nat) : Except Panic H :=
  if level = t.depth then
    if posInLevel > 0 then throw .rootPosition
    else if t.root = ⊥ then throw .zeroRoot
    else return t.root
  else if 1 ≤ level ∧ level < t.depth then
    if (posInLevel : Int) ≥ shl1 (t.depth - level) then throw .nodeOutOfBound
    else do
      let ns ← t.nodesOf level
      match ns[posInLevel]? with
      | none => t.emptyNode level
      | some res => if res = ⊥ then throw .zeroNode else return res
  else if level = 0 then t.getLeaf posInLevel
  else throw .badLevel

/-- `append` of the trivial nodes a slice lacks to have `newSize` entries. -/
def pad (ns : List H) (newSize : Nat) (e : H) : List H := ns ++ List.replicate (newSize - ns.length) e

def reserveLevel (t : Tree H) (level newSize : Nat) : Except Panic (Tree H) :=
  if level > t.depth then throw .badLevel
  else if level = t.depth then throw .extendRoot
  else if (newSize : Int) > shl1 (t.depth - level) then throw .overextend
  else if level = 0 then
    if newSize ≤ t.occupiedLeaves.length then return t
    else return { t with occupiedLeaves := pad t.occupiedLeaves newSize emptyLeaf }
  else do
    let ns ← t.nodesOf level
    if newSize ≤ ns.length then return t
    else do
      let e ← t.emptyNode level
      return { t with occupiedNodes := t.occupiedNodes.set (level - 1) (pad ns newSize e) }

def updateNode (t : Tree H) (level posInLevel : Nat) (newVal : H) : Except Panic (Tree H) :=
  if level = t.depth then
    if posInLevel > 0 then throw .rootPosition
    else if t.root = ⊥ then throw .zeroRoot
    else return { t with root := newVal }
  else if 1 ≤ level ∧ level < t.depth then
    if (posInLevel : Int) ≥ shl1 (t.depth - level) then throw .nodeOutOfBound
    else do
      let ns ← t.nodesOf level
      let t ← if posInLevel ≥ ns.length then t.reserveLevel level (posInLevel + 1) else pure t
      let ns ← t.nodesOf level
      return { t with occupiedNodes := t.occupiedNodes.set (level - 1) (ns.set posInLevel newVal) }
  else if level = 0 then
    if (posInLevel : Int) ≥ shl1 t.depth then throw .nodeOutOfBound
    else do
      let t ← if posInLevel ≥ t.occupiedLeaves.length then t.reserveLevel 0 (posInLevel + 1) else pure t
      return { t with occupiedLeaves := t.occupiedLeaves.set posInLevel newVal }
  else throw .badLevel

/-- The loop of `Update` from a level on, with `n` levels to go. -/
def updateFrom (hashLR : H → H → H) (t : Tree H) : Nat → Nat → Nat → H → Except Panic (Tree H)
  | 0, _, idx, current => if idx ≠ 0 then throw .idxNotZero else return { t with root := current }
  | n + 1, level, idx, current => do
    let t ← t.updateNode level idx current
    let sibling ← t.getNode level (idx ^^^ 1)
    let current := if idx % 2 = 1 then hashLR sibling current else hashLR current sibling
    updateFrom hashLR t n (level + 1) (idx / 2) current

/-- `Update`: overwrite a leaf and its path. A negative position fails at the first slice access. -/
def update (hashLR : H → H → H) (t : Tree H) (pos : Int) (newVal : H) : Except Panic (Tree H) :=
  if pos ≥ shl1 t.depth then throw .outOfBound
  else if pos < 0 then throw .index
  else updateFrom hashLR t t.depth 0 pos.toNat newVal

/-- The loop of `Prove`: the siblings from a level on, with `n` levels to go. -/
def proveFrom (t : Tree H) : Nat → Nat → Nat → Except Panic (List H)
  | 0, _, idx => if idx ≠ 0 then throw .idxNotZero else return []
  | n + 1, level, idx => do
    let sibling ← t.getNode level (idx ^^^ 1)
    let siblings ← t.proveFrom n (level + 1) (idx / 2)
    return sibling :: siblings

/-- `MustProve`: a proof for the leaf at `pos`, panicking where `Prove` returns an error. -/
def prove (t : Tree H) (pos : Int) : Except Panic (Proof H) :=
  if pos ≥ shl1 t.depth then throw .outOfBound
  else if pos < 0 then throw .negative
  else do
    let siblings ← t.proveFrom t.depth 0 pos.toNat
    return { path := pos, siblings := siblings }

end Tree

/-- The loop of `RecoverRoot`: what is left of the path, and the node reached. -/
def recoverFrom (hashLR : H → H → H) : Int → H → List H → Int × H
  | idx, current, [] => (idx, current)
  | idx, current, sibling :: siblings =>
    recoverFrom hashLR (idx / 2) (if idx % 2 = 1 then hashLR sibling current else hashLR current sibling) siblings

def recoverRoot (hashLR : H → H → H) (p : Proof H) (leaf : H) : Except Panic H :=
  let (idx, current) := recoverFrom hashLR p.path leaf p.siblings
  if idx ≠ 0 then throw .idxNotZero else return current

/-- `Verify`: `true` is the nil error, `false` is `ErrInvalidProof`. -/
def verify (hashLR : H → H → H) (p : Proof H) (leaf root : H) : Except Panic Bool := do
  let actual ← recoverRoot hashLR p leaf
  return decide (actual = root)

end Lineth.Smt
