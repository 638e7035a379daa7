import Lineth.Lib.Except
import Lineth.Lib.LinkedList
import Lineth.Smt.Tree

/-!
# Leaf openings of the accumulator

A map is stored in a sparse Merkle tree: a leaf is the hash of a `LeafOpening`, which carries the hashes of key and
value and the positions of the two neighbours in the order of the key hashes. Positions `0` and `1` hold the sentinels
`Head` and `Tail`. The digests are a bounded linear order (`Cmp` of octuplets), in which `⊥` is the zero octuplet. The
hash functions are a parameter. -/

namespace Lineth.Accumulator

structure LeafOpening (H : Type) where
  prev : Int
  next : Int
  hKey : H
  hVal : H
deriving DecidableEq, Repr

structure Hashes (K V H : Type) where
  key : K → H
  val : V → H
  leaf : LeafOpening H → H
  node : H → H → H

structure KVOpeningTuple (K V H : Type) where
  leafOpening : LeafOpening H
  key : K
  value : V
deriving DecidableEq, Repr

inductive TupleError where
  | inconsistentKey | inconsistentVal
deriving DecidableEq, Repr

variable {K V H : Type}

namespace LeafOpening

def copyWithPrev (leaf : LeafOpening H) (prev : Int) : LeafOpening H := { leaf with prev := prev }

def copyWithNext (leaf : LeafOpening H) (next : Int) : LeafOpening H := { leaf with next := next }

/-- The links of a leaf opening, as the library of linked lists sees them. -/
@[simps] def links : LinkedList.Links (LeafOpening H) Int H where
  prev := prev
  next := next
  key := hKey
  setPrev := copyWithPrev
  setNext := copyWithNext
  prev_setPrev _ _ := rfl
  next_setPrev _ _ := rfl
  key_setPrev _ _ := rfl
  prev_setNext _ _ := rfl
  next_setNext _ _ := rfl
  key_setNext _ _ := rfl

def matchKey [DecidableEq H] (hs : Hashes K V H) (l : LeafOpening H) (k : K) : Bool := l.hKey = hs.key k

variable [LinearOrder H] [BoundedOrder H]

def head : LeafOpening H := { prev := 0, next := 1, hKey := ⊥, hVal := ⊥ }

def tail : LeafOpening H := { prev := 0, next := 1, hVal := ⊥, hKey := ⊤ }

def headOrTail (leaf : LeafOpening H) : Bool := leaf.hKey = ⊤ || leaf.hKey = ⊥

theorem headOrTail_eq_false {leaf : LeafOpening H} : leaf.headOrTail = false ↔ leaf.hKey ≠ ⊥ ∧ leaf.hKey ≠ ⊤ := by
  simp [headOrTail, and_comm]

end LeafOpening

namespace KVOpeningTuple

def copyWithPrev (t : KVOpeningTuple K V H) (prev : Int) : KVOpeningTuple K V H :=
  { t with leafOpening := t.leafOpening.copyWithPrev prev }

def copyWithNext (t : KVOpeningTuple K V H) (next : Int) : KVOpeningTuple K V H :=
  { t with leafOpening := t.leafOpening.copyWithNext next }

variable [LinearOrder H] [BoundedOrder H]

/-- `CheckAndLeaf`: the sentinels are let through without comparing their key and value. -/
def checkAndLeaf (hs : Hashes K V H) (t : KVOpeningTuple K V H) : Except TupleError H :=
  if t.leafOpening.headOrTail then return hs.leaf t.leafOpening
  else if t.leafOpening.hKey ≠ hs.key t.key then throw .inconsistentKey
  else if t.leafOpening.hVal ≠ hs.val t.value then throw .inconsistentVal
  else return hs.leaf t.leafOpening

/-- The key and the value are those of the opening, unless it is a sentinel. -/
def Consistent (hs : Hashes K V H) (t : KVOpeningTuple K V H) : Prop :=
  t.leafOpening.headOrTail = false → t.leafOpening.hKey = hs.key t.key ∧ t.leafOpening.hVal = hs.val t.value

theorem checkAndLeaf_eq_ok {hs : Hashes K V H} {t : KVOpeningTuple K V H} {x : H} :
    t.checkAndLeaf hs = .ok x ↔ t.Consistent hs ∧ hs.leaf t.leafOpening = x := by
  cases hht : t.leafOpening.headOrTail with
  | true => simp [checkAndLeaf, Consistent, hht]
  | false => simp [checkAndLeaf, Consistent, hht, and_assoc]

end KVOpeningTuple

end Lineth.Accumulator
