import Lineth.Smt.Spec

/-!
# Building a tree from its leaves (`NewTree`)

The bulk construction hashes the tree bottom up: subtrees of height at most 10, one task each, then the levels above
them. The tasks, and the hashes of one large upper level, run in parallel; a `Schedule` is the order in which they
happen to be done. Every node is hashed after its children, so the result is the tree over the given leaves, as single
updates build it. -/

namespace Lineth.Smt
open Merkle Except List Nat

variable {H : Type}

/-! ### The source -/

def isPowerOfTwo (n : Nat) : Bool := n &&& (n - 1) = 0 && 0 < n

/-- The loop of `Log2Floor`. -/
def log2Floor (i : Nat) : Nat := if 1 < i then log2Floor (i / 2) + 1 else 0

def log2Ceil (a : Nat) : Nat :=
  let floor := log2Floor a
  if (a : Int) ≠ shl1 floor then floor + 1 else floor

/-- What the runtime decides: `GOMAXPROCS` and, for each call of `parallel.Execute`, the order in which
its iterations are done. -/
structure Schedule where
  procs : Nat
  order : Nat → List Nat → List Nat
  perm : ∀ i l, (order i l).Perm l

namespace Tree

def readAt (ns : List H) (i : Nat) : Except Panic H :=
  match ns[i]? with
  | some x => return x
  | none => throw .index

def writeAt (ns : List H) (i : Nat) (x : H) : Except Panic (List H) :=
  if i < ns.length then return ns.set i x else throw .index

/-- `outLevel[outStart+k] = hashLR(inLevel[inStart+2*k], inLevel[inStart+2*k+1])` for every `k` of `ks`. -/
def hashRange (hashLR : H → H → H) (inLevel : List H) (inStart outStart : Nat) (ks : List Nat) (outLevel : List H) :
    Except Panic (List H) :=
  ks.foldlM (fun out k => do
    let left ← readAt inLevel (inStart + 2 * k)
    let right ← readAt inLevel (inStart + 2 * k + 1)
    writeAt out (outStart + k) (hashLR left right)) outLevel

def prevLevel (t : Tree H) (l : Nat) : Except Panic (List H) := if l = 0 then return t.occupiedLeaves else t.nodesOf l

/-- The same, from the level below `OccupiedNodes[l]` into it. -/
def hashLevel (hashLR : H → H → H) (t : Tree H) (l inStart outStart : Nat) (ks : List Nat) : Except Panic (Tree H) := do
  let inLevel ← t.prevLevel l
  let outLevel ← t.nodesOf (l + 1)
  let out ← hashRange hashLR inLevel inStart outStart ks outLevel
  return { t with occupiedNodes := t.occupiedNodes.set l out }

/-- One task of the first phase: the subtree of height `subtreeHeight` over the leaves of chunk `task`. -/
def hashSubtree (hashLR : H → H → H) (subtreeHeight chunkSize : Nat) (t : Tree H) (task : Nat) :
    Except Panic (Tree H) := do
  let t ← (if 0 < subtreeHeight then
      hashLevel hashLR t 0 (task * chunkSize) (task * (chunkSize / 2)) (range (chunkSize / 2))
    else return t)
  (range' 1 (subtreeHeight - 1)).foldlM (fun t l =>
    hashLevel hashLR t l (task * (chunkSize / 2 ^ l)) (task * (chunkSize / 2 ^ (l + 1)))
      (range (chunkSize / 2 ^ (l + 1)))) t

def hashUpperLevel (hashLR : H → H → H) (sched : Schedule) (t : Tree H) (i : Nat) : Except Panic (Tree H) := do
  let currLevel ← t.nodesOf (i + 1)
  let n := currLevel.length
  let ks := if 32 ≤ n ∧ 1 < sched.procs then sched.order (i + 1) (range n) else range n
  hashLevel hashLR t i 0 0 ks

end Tree

def targetSubtreeHeight : Nat := 10

variable [Bot H]

/-- The tree that `NewTree` allocates, before any node is hashed. -/
def allocTree (hashLR : H → H → H) (leaves : List H) (depth : Nat) : Tree H :=
  { depth := depth
    root := ⊥
    occupiedLeaves := leaves
    -- one slice per level, each half as long as the one below
    occupiedNodes := (range (depth - 1)).map fun i => replicate (leaves.length / 2 / 2 ^ i) ⊥
    emptyNodes := (emptyNodesAbove hashLR (depth - 1) emptyLeaf).1 }

/-- The end of `NewTree`: the root from the two nodes below it. -/
def Tree.hashRoot (hashLR : H → H → H) (t : Tree H) : Except Panic (Tree H) :=
  if t.depth = 1 then do
    let left ← Tree.readAt t.occupiedLeaves 0
    let right ← Tree.readAt t.occupiedLeaves 1
    return { t with root := hashLR left right }
  else do
    let lastLevel ← t.nodesOf (t.depth - 1)
    if lastLevel.length ≠ 2 then throw (.lastLevel lastLevel.length)
    let left ← Tree.readAt lastLevel 0
    let right ← Tree.readAt lastLevel 1
    return { t with root := hashLR left right }

def newTree (hashLR : H → H → H) (sched : Schedule) (leaves : List H) : Except Panic (Tree H) := do
  let numLeaves := leaves.length
  if !isPowerOfTwo numLeaves || numLeaves = 0 then throw (.notPowerOfTwo numLeaves)
  let depth := log2Ceil numLeaves
  -- the slices of length `depth - 1`
  if depth = 0 then throw .makeslice
  let subtreeHeight := if targetSubtreeHeight > depth - 1 then depth - 1 else targetSubtreeHeight
  let chunkSize := 2 ^ subtreeHeight
  let numTasks := numLeaves / chunkSize
  let t ← (sched.order 0 (range numTasks)).foldlM (Tree.hashSubtree hashLR subtreeHeight chunkSize)
    (allocTree hashLR leaves depth)
  let t ← (range' subtreeHeight (depth - 1 - subtreeHeight)).foldlM (Tree.hashUpperLevel hashLR sched) t
  t.hashRoot hashLR

def Tree.updateAll [DecidableEq H] (hashLR : H → H → H) (t : Tree H) (writes : List (Int × H)) :
    Except Panic (Tree H) :=
  writes.foldlM (fun t w => t.update hashLR w.1 w.2) t

/-! ### Every node is hashed after its children -/

theorem log2Floor_two_pow (k : Nat) : log2Floor (2 ^ k) = k := by
  induction k with
  | zero => rw [log2Floor, if_neg (by simp)]
  | succ k ih =>
    have : 0 < 2 ^ k := Nat.two_pow_pos k
    rw [log2Floor, if_pos (by rw [Nat.pow_succ]; omega), Nat.pow_succ, Nat.mul_div_cancel _ Nat.two_pos, ih]

theorem log2Ceil_two_pow {k : Nat} (hk : k ≤ 62) : log2Ceil (2 ^ k) = k := by
  rw [log2Ceil, log2Floor_two_pow, if_neg]
  rw [shl1_eq hk, not_not]
  push_cast
  rfl

theorem isPowerOfTwo_two_pow (k : Nat) : isPowerOfTwo (2 ^ k) = true := by
  simp [isPowerOfTwo, and_two_pow_sub_one_eq_mod]

namespace Tree

variable {hashLR : H → H → H}

/-- The construction with the nodes of `D` hashed: `D l j` is the node `j` of level `l`. -/
structure Built (hashLR : H → H → H) (leaves : List H) (depth : Nat) (D : Nat → Nat → Prop) (t : Tree H) : Prop
    extends Shape hashLR t where
  depth_eq : t.depth = depth
  leaves_eq : t.occupiedLeaves = leaves
  length : ∀ l, l < depth → (t.level l).length = 2 ^ (depth - l)
  done : ∀ l j, l < depth → j < 2 ^ (depth - l) → D l j →
    (t.level l)[j]? = some (nodeAt hashLR (fun i => leaves.getD i emptyLeaf) l j)

variable {leaves : List H} {depth : Nat} {D D' : Nat → Nat → Prop} {t : Tree H}

theorem Built.mono (h : Built hashLR leaves depth D t) (hD : ∀ l j, l < depth → j < 2 ^ (depth - l) → D' l j → D l j) :
    Built hashLR leaves depth D' t :=
  ⟨h.toShape, h.depth_eq, h.leaves_eq, h.length, fun l j hl hj hd => h.done l j hl hj (hD l j hl hj hd)⟩

omit [Bot H] in
theorem readAt_eq {ns : List H} {i : Nat} {x : H} (h : ns[i]? = some x) : readAt ns i = .ok x := by
  rw [readAt, h]; rfl

omit [Bot H] in
theorem hashRange_spec {leaf : Nat → H} {inLevel out : List H} {l outStart : Nat} {ks : List Nat}
    (hin : ∀ k ∈ ks, ∀ b, b < 2 →
      inLevel[2 * (outStart + k) + b]? = some (nodeAt hashLR leaf l (2 * (outStart + k) + b)))
    (hout : ∀ k ∈ ks, outStart + k < out.length) :
    ∃ out', hashRange hashLR inLevel (2 * outStart) outStart ks out = .ok out' ∧ out'.length = out.length ∧
      ∀ j, out'[j]? = if ∃ k ∈ ks, outStart + k = j then some (nodeAt hashLR leaf (l + 1) j) else out[j]? := by
  classical
  refine foldlM_prefix (fun p (out' : List H) => out'.length = out.length ∧
    ∀ j, out'[j]? = if ∃ k ∈ p, outStart + k = j then some (nodeAt hashLR leaf (l + 1) j) else out[j]?)
      ⟨rfl, by simp⟩ ?_
  rintro p k q rfl s ⟨hlen, hs⟩
  have hk : k ∈ p ++ k :: q := mem_append_right p mem_cons_self
  have hleft := readAt_eq (hin k hk 0 (by omega))
  have hright := readAt_eq (hin k hk 1 (by omega))
  rw [add_zero, mul_add] at hleft
  rw [mul_add] at hright
  have hlt : outStart + k < s.length := by rw [hlen]; exact hout k hk
  refine ⟨s.set (outStart + k) (nodeAt hashLR leaf (l + 1) (outStart + k)), ?_, by rw [length_set, hlen], fun j => ?_⟩
  · rw [hleft, ok_bind, hright, ok_bind, writeAt, if_pos hlt, nodeAt, mul_add]
    rfl
  · rw [getElem?_set]
    by_cases hj : outStart + k = j
    · rw [if_pos hj, if_pos hlt, if_pos ⟨k, by simp, hj⟩, hj]
    · rw [if_neg hj, hs]
      refine if_congr ?_ rfl rfl
      simp [or_and_right, exists_or, hj]

namespace Built

theorem hashLevel (h : Built hashLR leaves depth D t) (l outStart : Nat) (ks : List Nat) (hl : l + 1 < depth)
    (hks : ∀ k ∈ ks, outStart + k < 2 ^ (depth - (l + 1)) ∧
      D l (2 * (outStart + k)) ∧ D l (2 * (outStart + k) + 1)) :
    ∃ t', hashLevel hashLR t l (2 * outStart) outStart ks = .ok t' ∧
      Built hashLR leaves depth (fun l' j => D l' j ∨ l' = l + 1 ∧ ∃ k ∈ ks, outStart + k = j) t' := by
  classical
  have hlt : l < t.occupiedNodes.length := by rw [h.nodes, h.depth_eq]; omega
  have hdep : l + 1 < t.depth := by rw [h.depth_eq]; exact hl
  have hpow : 2 ^ (depth - l) = 2 * 2 ^ (depth - (l + 1)) := by
    rw [← Nat.pow_succ']; congr 1; omega
  have hread : t.prevLevel l = .ok (t.level l) := by
    cases l with
    | zero => rfl
    | succ l => rw [prevLevel, if_neg (succ_ne_zero l), h.nodesOf_eq (by omega)]
  have hin : ∀ k ∈ ks, ∀ b, b < 2 → (t.level l)[2 * (outStart + k) + b]? =
      some (nodeAt hashLR (fun i => leaves.getD i emptyLeaf) l (2 * (outStart + k) + b)) := by
    intro k hk b hb
    obtain ⟨h1, h2, h3⟩ := hks k hk
    refine h.done l _ (by omega) (by omega) ?_
    rcases (by omega : b = 0 ∨ b = 1) with rfl | rfl
    · exact h2
    · exact h3
  have hout : ∀ k ∈ ks, outStart + k < (t.level (l + 1)).length := by
    intro k hk
    rw [h.length _ hl]
    exact (hks k hk).1
  obtain ⟨out, hrun, hlen, hget⟩ := hashRange_spec hin hout
  refine ⟨{ t with occupiedNodes := t.occupiedNodes.set l out }, ?_, h.setNodes l out, h.depth_eq, h.leaves_eq, ?_, ?_⟩
  · rw [Tree.hashLevel, hread, ok_bind, h.nodesOf_eq hdep, ok_bind, hrun]
    rfl
  · intro l' hl'
    rw [level_setNodes hlt]
    split
    · subst l'; rw [hlen, h.length _ hl]
    · exact h.length l' hl'
  · intro l' j hl' hj hD
    rw [level_setNodes hlt]
    by_cases hll : l' = l + 1
    · subst hll
      rw [if_pos rfl, hget]
      split
      · rfl
      · next hno =>
        rcases hD with hD | ⟨-, hk⟩
        · exact h.done _ j hl' hj hD
        · exact absurd hk hno
    · rw [if_neg hll]
      rcases hD with hD | ⟨heq, -⟩
      · exact h.done l' j hl' hj hD
      · exact absurd heq hll

/-- One level of a task's chunk: the nodes `j` of level `l + 1` with `j / 2 ^ (height - (l + 1)) = task`. -/
theorem hashChunkLevel {height task l : Nat} (hheight : height < depth) (htask : task < 2 ^ (depth - height))
    (hl : l < height) (h : Built hashLR leaves depth (fun l' j => D l' j ∨ l' ≤ l ∧ j / 2 ^ (height - l') = task) t) :
    ∃ t', Tree.hashLevel hashLR t l (task * 2 ^ (height - l)) (task * 2 ^ (height - (l + 1)))
        (range (2 ^ (height - (l + 1)))) = .ok t' ∧
      Built hashLR leaves depth (fun l' j => D l' j ∨ l' ≤ l + 1 ∧ j / 2 ^ (height - l') = task) t' := by
  obtain ⟨w, hw⟩ : ∃ w, w = 2 ^ (height - (l + 1)) := ⟨_, rfl⟩
  have hsplit : 2 ^ (height - l) = 2 * w := by rw [hw, ← Nat.pow_succ']; congr 1; omega
  have hpos : 0 < w := by rw [hw]; exact Nat.two_pow_pos _
  have hchunk : ∀ k, k < w → (task * w + k) / w = task := by
    intro k hk
    rw [mul_comm, mul_add_div hpos, div_eq_of_lt hk, Nat.add_zero]
  have hchild : ∀ k, k < w → ∀ b, b < 2 → (2 * (task * w + k) + b) / 2 ^ (height - l) = task := by
    intro k hk b hb
    rw [hsplit, ← Nat.div_div_eq_div_mul, show (2 * (task * w + k) + b) / 2 = task * w + k by omega, hchunk k hk]
  have hks : ∀ k ∈ range w, task * w + k < 2 ^ (depth - (l + 1)) ∧
      (D l (2 * (task * w + k)) ∨ l ≤ l ∧ 2 * (task * w + k) / 2 ^ (height - l) = task) ∧
      (D l (2 * (task * w + k) + 1) ∨ l ≤ l ∧ (2 * (task * w + k) + 1) / 2 ^ (height - l) = task) := by
    intro k hk
    rw [mem_range] at hk
    have hpow : 2 ^ (depth - (l + 1)) = 2 ^ (depth - height) * w := by
      rw [hw, ← Nat.pow_add]; congr 1; omega
    refine ⟨?_, .inr ⟨le_rfl, hchild k hk 0 (by omega)⟩, .inr ⟨le_rfl, hchild k hk 1 (by omega)⟩⟩
    rw [hpow, ← Nat.div_lt_iff_lt_mul hpos, hchunk k hk]
    exact htask
  obtain ⟨t', hrun, h'⟩ := h.hashLevel l (task * w) (range w) (by omega) hks
  rw [← hw, hsplit, mul_left_comm]
  refine ⟨t', hrun, h'.mono fun l' j hl' hj hD => ?_⟩
  rcases hD with hD | ⟨hle, hj'⟩
  · exact .inl (.inl hD)
  rcases Nat.lt_or_ge l l' with hlt | hge
  · obtain rfl : l' = l + 1 := by omega
    rw [← hw] at hj'
    refine .inr ⟨rfl, j % w, mem_range.2 (mod_lt _ hpos), ?_⟩
    rw [← hj']
    exact div_add_mod' j w
  · exact .inl (.inr ⟨hge, hj'⟩)

theorem hashSubtree (h : Built hashLR leaves depth D t) {height task : Nat} (hheight : height < depth)
    (htask : task < 2 ^ (depth - height)) (hleaf : ∀ j, D 0 j) :
    ∃ t', Tree.hashSubtree hashLR height (2 ^ height) t task = .ok t' ∧
      Built hashLR leaves depth (fun l j => D l j ∨ l ≤ height ∧ j / 2 ^ (height - l) = task) t' := by
  have hstart : Built hashLR leaves depth (fun l j => D l j ∨ l ≤ 0 ∧ j / 2 ^ (height - l) = task) t :=
    h.mono fun l j _ _ hD => by
      rcases hD with hD | ⟨hle, -⟩
      · exact hD
      · rw [le_zero.1 hle]; exact hleaf j
  have hdiv : ∀ l, l ≤ height → 2 ^ height / 2 ^ l = 2 ^ (height - l) := fun l hl => Nat.pow_div hl Nat.two_pos
  rcases Nat.eq_zero_or_pos height with rfl | hpos
  · exact ⟨t, rfl, hstart⟩
  obtain ⟨t₁, hrun₁, h₁⟩ := hashChunkLevel hheight htask hpos hstart
  obtain ⟨t', hrun, h'⟩ := foldlM_range' (a := 1) (n := height - 1)
    (f := fun s l => Tree.hashLevel hashLR s l (task * (2 ^ height / 2 ^ l)) (task * (2 ^ height / 2 ^ (l + 1)))
      (range (2 ^ height / 2 ^ (l + 1))))
    (fun l s => Built hashLR leaves depth (fun l' j => D l' j ∨ l' ≤ l ∧ j / 2 ^ (height - l') = task) s) h₁
    (fun l hl hlt s hs => by
      simp only [hdiv l (by omega), hdiv (l + 1) (by omega)]
      exact hashChunkLevel hheight htask (by omega) hs)
  refine ⟨t', ?_, by rw [show 1 + (height - 1) = height by omega] at h'; exact h'⟩
  have hd1 := hdiv 1 hpos
  rw [pow_one] at hd1
  rw [Tree.hashSubtree, if_pos hpos, hd1]
  rw [Nat.zero_add, Nat.sub_zero] at hrun₁
  rw [hrun₁, ok_bind, hrun]

theorem hashUpperLevel {i : Nat} (h : Built hashLR leaves depth (fun l _ => l ≤ i) t) (hi : i + 1 < depth)
    (sched : Schedule) :
    ∃ t', Tree.hashUpperLevel hashLR sched t i = .ok t' ∧ Built hashLR leaves depth (fun l _ => l ≤ i + 1) t' := by
  have hdep : i + 1 < t.depth := by rw [h.depth_eq]; exact hi
  obtain ⟨ks, hks⟩ : ∃ ks, ks = if 32 ≤ (t.level (i + 1)).length ∧ 1 < sched.procs then
    sched.order (i + 1) (range (t.level (i + 1)).length) else range (t.level (i + 1)).length := ⟨_, rfl⟩
  have hmem : ∀ k, k ∈ ks ↔ k < 2 ^ (depth - (i + 1)) := by
    intro k
    rw [hks, ← h.length _ hi]
    split
    · rw [(sched.perm _ _).mem_iff, mem_range]
    · rw [mem_range]
  obtain ⟨t', hrun, h'⟩ := h.hashLevel i 0 ks hi fun k hk =>
    ⟨by rw [Nat.zero_add]; exact (hmem k).1 hk, le_rfl, le_rfl⟩
  refine ⟨t', ?_, h'.mono fun l j hl hj hD => ?_⟩
  · rw [Tree.hashUpperLevel, h.nodesOf_eq hdep, ok_bind]
    simp only [← hks]
    exact hrun
  · rcases Nat.lt_or_ge i l with hlt | hge
    · obtain rfl : l = i + 1 := by omega
      exact .inr ⟨rfl, j, (hmem j).2 hj, Nat.zero_add j⟩
    · exact .inl hge

theorem hashRoot (h : Built hashLR leaves depth (fun _ _ => True) t) (hlen : leaves.length = 2 ^ depth) :
    ∃ t', t.hashRoot hashLR = .ok t' ∧ t'.depth = depth ∧ t'.Holds hashLR fun i => leaves.getD i emptyLeaf := by
  have hpos := h.depth_pos
  rw [h.depth_eq] at hpos
  obtain ⟨d, rfl⟩ := exists_eq_succ_of_ne_zero (show depth ≠ 0 by omega)
  have hroot : ∀ b, b < 2 → (t.level d)[b]? = some (nodeAt hashLR (fun i => leaves.getD i emptyLeaf) d b) := by
    intro b hb
    exact h.done d b (by omega) (by rw [show d.succ - d = 1 by omega]; omega) trivial
  refine ⟨{ t with root := nodeAt hashLR (fun i => leaves.getD i emptyLeaf) (d + 1) 0 }, ?_, h.depth_eq,
    ⟨h.depth_pos, h.depth_le, h.nodes, h.empties⟩, ?_, by show _ = nodeAt _ _ t.depth 0; rw [h.depth_eq]⟩
  · cases d with
    | zero =>
      have h0 : readAt t.occupiedLeaves 0 = _ := readAt_eq (hroot 0 (by omega))
      have h1 : readAt t.occupiedLeaves 1 = _ := readAt_eq (hroot 1 (by omega))
      rw [Tree.hashRoot, if_pos h.depth_eq, h0, ok_bind, h1]
      rfl
    | succ d =>
      have hlast : (t.level (d + 1)).length = 2 := by
        rw [h.length (d + 1) (by omega), show (d + 1).succ - (d + 1) = 1 by omega, pow_one]
      rw [Tree.hashRoot, if_neg (by rw [h.depth_eq]; omega), h.depth_eq, show (d + 1).succ - 1 = d + 1 from rfl,
        h.nodesOf_eq (by rw [h.depth_eq]; omega), ok_bind, if_neg (by rw [hlast]; exact not_not.2 rfl),
        readAt_eq (hroot 0 (by omega)), ok_bind, readAt_eq (hroot 1 (by omega))]
      rfl
  · intro l hl j
    show (t.level l).getD j _ = _
    have hl' : l < d.succ := by rw [← h.depth_eq]; exact hl
    rw [getD_eq_getElem?_getD]
    rcases Nat.lt_or_ge j (2 ^ (d.succ - l)) with hj | hj
    · rw [h.done l j hl' hj trivial]
      rfl
    · -- past the leaves the naive tree is empty as well
      rw [getElem?_eq_none (by rw [h.length l hl']; exact hj), Option.getD_none, ← nodeAt_empty l j]
      refine (nodeAt_congr fun i hi => ?_).symm
      rw [getD_eq_default]
      rw [hlen, show d.succ = d.succ - l + l by omega, Nat.pow_add, ← Nat.le_div_iff_mul_le (Nat.two_pow_pos l), hi]
      exact hj

end Built

end Tree

/-! ### The whole construction -/

variable {hashLR : H → H → H}

theorem allocTree_built {leaves : List H} {depth : Nat} (hpos : 1 ≤ depth) (hle : depth ≤ 62)
    (hlen : leaves.length = 2 ^ depth) :
    Tree.Built hashLR leaves depth (fun l _ => l = 0) (allocTree hashLR leaves depth) := by
  refine ⟨⟨hpos, hle, by simp [allocTree], ?_⟩, rfl, rfl, ?_, ?_⟩
  · intro l hl
    have hl : l + 1 < depth := hl
    have := (emptyNodesAbove_spec hashLR (depth - 1) 0).2 l (by omega)
    rw [Nat.zero_add] at this
    exact this
  · intro l hl
    cases l with
    | zero => exact hlen
    | succ l =>
      show (((range (depth - 1)).map fun i => replicate (leaves.length / 2 / 2 ^ i) (⊥ : H)).getD l []).length = _
      rw [getD_eq_getElem?_getD, getElem?_map, getElem?_range (by omega), Option.map_some, Option.getD_some,
        length_replicate, hlen, Nat.div_div_eq_div_mul, ← Nat.pow_succ', Nat.pow_div (by omega) Nat.two_pos]
  · rintro l j hl hj rfl
    have hj : j < leaves.length := by rw [hlen]; exact hj
    show leaves[j]? = some (leaves.getD j emptyLeaf)
    rw [getD_eq_getElem?_getD, getElem?_eq_getElem hj, Option.getD_some]

theorem newTree_spec (hashLR : H → H → H) (sched : Schedule) {leaves : List H} {depth : Nat}
    (hpos : 1 ≤ depth) (hle : depth ≤ 62) (hlen : leaves.length = 2 ^ depth) :
    ∃ t, newTree hashLR sched leaves = .ok t ∧ t.depth = depth ∧ t.Holds hashLR fun i => leaves.getD i emptyLeaf := by
  obtain ⟨height, hheight⟩ : ∃ height, height = if targetSubtreeHeight > depth - 1 then depth - 1
    else targetSubtreeHeight :=
    ⟨_, rfl⟩
  have hlt : height < depth := by
    rw [hheight]
    split <;> omega
  have hmem : ∀ task, task ∈ sched.order 0 (range (2 ^ depth / 2 ^ height)) ↔ task < 2 ^ (depth - height) := by
    intro task
    rw [(sched.perm _ _).mem_iff, mem_range, Nat.pow_div hlt.le Nat.two_pos]
  obtain ⟨t₁, hrun₁, h₁⟩ := foldlM_prefix (l := sched.order 0 (range (2 ^ depth / 2 ^ height)))
    (f := Tree.hashSubtree hashLR height (2 ^ height))
    (fun p t => Tree.Built hashLR leaves depth (fun l j => l = 0 ∨ l ≤ height ∧ j / 2 ^ (height - l) ∈ p) t)
    ((allocTree_built hpos hle hlen).mono fun l j _ _ hD => by
      rcases hD with hD | ⟨-, hD⟩
      · exact hD
      · exact absurd hD not_mem_nil)
    (fun p task q hp t ht => by
      have hin : task < 2 ^ (depth - height) := by
        rw [← hmem, hp]
        exact mem_append_right p mem_cons_self
      obtain ⟨t', hrun, ht'⟩ := ht.hashSubtree hlt hin fun j => .inl rfl
      refine ⟨t', hrun, ht'.mono fun l j _ _ hD => ?_⟩
      rcases hD with hD | ⟨hl, hD⟩
      · exact .inl (.inl hD)
      rcases mem_append.1 hD with hD | hD
      · exact .inl (.inr ⟨hl, hD⟩)
      · exact .inr ⟨hl, mem_singleton.1 hD⟩)
  have h₁ : Tree.Built hashLR leaves depth (fun l _ => l ≤ height) t₁ := h₁.mono fun l j hl hj hD => by
    refine .inr ⟨hD, (hmem _).2 ?_⟩
    rw [Nat.div_lt_iff_lt_mul (Nat.two_pow_pos _), ← Nat.pow_add,
      show depth - height + (height - l) = depth - l by omega]
    exact hj
  obtain ⟨t₂, hrun₂, h₂⟩ := foldlM_range' (a := height) (n := depth - 1 - height)
    (f := Tree.hashUpperLevel hashLR sched) (fun i t => Tree.Built hashLR leaves depth (fun l _ => l ≤ i) t) h₁
    fun i _ hi t ht => ht.hashUpperLevel (by omega) sched
  have h₂ : Tree.Built hashLR leaves depth (fun _ _ => True) t₂ := h₂.mono fun l j hl _ _ => by
    show l ≤ height + (depth - 1 - height)
    omega
  obtain ⟨t, hroot, hd, ht⟩ := h₂.hashRoot hlen
  refine ⟨t, ?_, hd, ht⟩
  have hdepth : log2Ceil (2 ^ depth) = depth := log2Ceil_two_pow hle
  have h0 : ¬ (depth = 0) := by omega
  simp only [newTree, hlen, isPowerOfTwo_two_pow, hdepth, Bool.not_true, Nat.pow_eq_zero,
    OfNat.ofNat_ne_zero, false_and,
    decide_false, Bool.or_self, Bool.false_eq_true, h0, ↓reduceIte, ← hheight]
  rw [hrun₁, ok_bind, hrun₂, ok_bind, hroot]

/-! ### Single updates, and the two constructions compared -/

section Updates

def lastWritten (writes : List (Int × H)) : Nat → H :=
  writes.foldl (fun leaf w => Function.update leaf w.1.toNat w.2) fun _ => emptyLeaf

def InRange (depth : Nat) (pos : Int) : Prop := 0 ≤ pos ∧ pos < 2 ^ depth

variable {depth : Nat}

theorem InRange.exists_nat {pos : Int} (h : InRange depth pos) : ∃ n : Nat, pos = n ∧ n < 2 ^ depth := by
  obtain ⟨n, rfl⟩ := Int.eq_ofNat_of_zero_le h.1
  exact ⟨n, rfl, by exact_mod_cast h.2⟩

theorem lastWritten_of_ge {depth i : Nat} {writes : List (Int × H)} (hw : ∀ w ∈ writes, InRange depth w.1)
    (hi : 2 ^ depth ≤ i) : lastWritten writes i = emptyLeaf := by
  suffices h : ∀ leaf : Nat → H, leaf i = emptyLeaf →
      writes.foldl (fun leaf w => Function.update leaf w.1.toNat w.2) leaf i = emptyLeaf from h _ rfl
  induction writes with
  | nil => intro leaf hleaf; exact hleaf
  | cons w writes ih =>
    intro leaf hleaf
    obtain ⟨n, hn, hlt⟩ := (hw w mem_cons_self).exists_nat
    refine ih (fun w' hw' => hw w' (mem_cons_of_mem w hw')) _ ?_
    show Function.update leaf w.1.toNat w.2 i = emptyLeaf
    rw [hn, Int.toNat_natCast, Function.update_of_ne (by omega)]
    exact hleaf

variable [DecidableEq H]

namespace Tree.Holds

variable {t : Tree H} {leaf : Nat → H}

theorem updateAll_spec (h : t.Holds hashLR leaf) (hnz : ∀ a b, hashLR a b ≠ ⊥) {writes : List (Int × H)}
    (hw : ∀ w ∈ writes, InRange t.depth w.1) :
    ∃ t', t.updateAll hashLR writes = .ok t' ∧ t'.depth = t.depth ∧
      t'.Holds hashLR (writes.foldl (fun leaf w => Function.update leaf w.1.toNat w.2) leaf) := by
  induction writes generalizing t leaf with
  | nil => exact ⟨t, rfl, rfl, h⟩
  | cons w writes ih =>
    obtain ⟨n, hn, hlt⟩ := (hw w mem_cons_self).exists_nat
    obtain ⟨t₁, hu, hd, h₁⟩ := h.update_spec hnz hlt w.2
    obtain ⟨t', hrest, hd', h'⟩ := ih h₁ fun w' hw' => by rw [hd]; exact hw w' (mem_cons_of_mem w hw')
    refine ⟨t', ?_, hd'.trans hd, ?_⟩
    · rw [updateAll, foldlM_cons, hn, hu, ok_bind]
      exact hrest
    · rw [foldl_cons, hn, Int.toNat_natCast]
      exact h'

theorem verify_prove (h : t.Holds hashLR leaf) (hnz : ∀ a b, hashLR a b ≠ ⊥) {pos : Nat} (hpos : pos < 2 ^ t.depth) :
    ∃ proof, t.prove pos = .ok proof ∧ verify hashLR proof (leaf pos) t.root = .ok true := by
  refine ⟨_, h.prove_spec hnz hpos, verify_eq_ok_true.2 (recoverRoot_eq_ok.2 ⟨pos, rfl, by simpa using hpos, ?_⟩)⟩
  have hclimb := climb_siblings hashLR leaf 0 t.depth pos
  rw [Nat.zero_add, div_eq_of_lt hpos, ← h.root_eq] at hclimb
  exact hclimb

theorem prove_congr {t' : Tree H} (h : t.Holds hashLR leaf) (h' : t'.Holds hashLR leaf) (hnz : ∀ a b, hashLR a b ≠ ⊥)
    (hd : t'.depth = t.depth) (pos : Int) : t.prove pos = t'.prove pos := by
  rcases lt_or_ge pos 0 with hneg | hnn
  · simp only [prove, hd, if_pos hneg]
  obtain ⟨n, rfl⟩ := Int.eq_ofNat_of_zero_le hnn
  rcases Nat.lt_or_ge n (2 ^ t.depth) with hlt | hge
  · rw [h.prove_spec hnz hlt, h'.prove_spec hnz (by rw [hd]; exact hlt), hd]
  · have hb : (n : Int) ≥ shl1 t.depth := by rw [ge_iff_le, ← not_lt, natCast_lt_shl1 h.depth_le]; omega
    simp only [prove, hd, if_pos hb]

end Tree.Holds

omit [DecidableEq H] in
theorem newEmptyTree_depth_holds (hashLR : H → H → H) (hpos : 1 ≤ depth) (hle : depth ≤ 62) :
    (newEmptyTree hashLR [(depth : Int)]).depth = depth ∧
      (newEmptyTree hashLR [(depth : Int)]).Holds hashLR fun _ => emptyLeaf := by
  have hd : (if 0 < (depth : Int) then (depth : Int).toNat else defaultDepth) = depth := by
    rw [if_pos (by omega), Int.toNat_natCast]
  constructor
  · exact hd
  · simp only [newEmptyTree, hd]
    exact emptyTree_holds hpos hle rfl

/-- From the empty tree of a depth, every sequence of updates leaves the root of the naive tree over the
last written values, and every position has a proof that verifies. -/
def UpdatesCorrect (hashLR : H → H → H) (depth : Nat) : Prop :=
  ∀ writes : List (Int × H), (∀ w ∈ writes, InRange depth w.1) →
    ∃ t, (newEmptyTree hashLR [(depth : Int)]).updateAll hashLR writes = .ok t ∧
      t.root = nodeAt hashLR (lastWritten writes) depth 0 ∧
      ∀ pos, InRange depth pos → ∃ proof, t.prove pos = .ok proof ∧
        verify hashLR proof (lastWritten writes pos.toNat) t.root = .ok true

/-- `NewTree` and updates that write the same leaves, in any order, give the same root and proofs. -/
def BulkAgrees (hashLR : H → H → H) : Prop :=
  ∀ (sched : Schedule) (leaves : List H) (depth : Nat) (writes : List (Int × H)), 1 ≤ depth →
    leaves.length = 2 ^ depth → leaves.length < 2 ^ 63 → (∀ w ∈ writes, InRange depth w.1) →
    (∀ i, i < leaves.length → lastWritten writes i = leaves.getD i emptyLeaf) →
    ∃ t t', newTree hashLR sched leaves = .ok t ∧
      (newEmptyTree hashLR [(depth : Int)]).updateAll hashLR writes = .ok t' ∧ t.root = t'.root ∧
      ∀ pos, t.prove pos = t'.prove pos

theorem updatesCorrect_of_le (hnz : ∀ a b, hashLR a b ≠ ⊥) (hpos : 1 ≤ depth) (hle : depth ≤ 62) :
    UpdatesCorrect hashLR depth := by
  intro writes hw
  obtain ⟨hd₀, h₀⟩ := newEmptyTree_depth_holds hashLR hpos hle
  obtain ⟨t, hrun, hd, h⟩ := h₀.updateAll_spec hnz fun w hw' => by rw [hd₀]; exact hw w hw'
  rw [hd₀] at hd
  refine ⟨t, hrun, by rw [h.root_eq, hd]; rfl, fun pos hin => ?_⟩
  obtain ⟨n, rfl, hn⟩ := hin.exists_nat
  rw [Int.toNat_natCast]
  exact h.verify_prove hnz (by rw [hd]; exact hn)

theorem bmod_two_pow {d n : Nat} (h : n ≤ d) : Int.bmod (2 ^ d) (2 ^ n) = 0 := by
  refine Int.bmod_eq_zero_of_dvd ?_
  rw [cast_pow]
  exact pow_dvd_pow _ h

/-- From depth 63 on, `1 << depth` overflows and every position is out of bound. -/
theorem shl1_nonpos {d : Nat} (hd : 63 ≤ d) : shl1 d ≤ 0 := by
  rcases eq_or_lt_of_le hd with rfl | hlt
  · decide
  · exact (bmod_two_pow hlt).le

theorem not_updatesCorrect (hd : 63 ≤ depth) : ¬ UpdatesCorrect hashLR depth := by
  intro h
  obtain ⟨t, hrun, -, hproof⟩ := h [] fun w hw => absurd hw not_mem_nil
  rw [Tree.updateAll, foldlM_nil, pure_eq_ok, ok.injEq] at hrun
  subst hrun
  obtain ⟨proof, hok, -⟩ := hproof 0 ⟨le_rfl, by positivity⟩
  have hdepth : (newEmptyTree hashLR [(depth : Int)]).depth = depth := by
    show (if 0 < (depth : Int) then (depth : Int).toNat else defaultDepth) = depth
    rw [if_pos (by omega), Int.toNat_natCast]
  rw [Tree.prove, hdepth, if_pos (shl1_nonpos hd)] at hok
  cases hok

theorem bulkAgrees (hnz : ∀ a b, hashLR a b ≠ ⊥) : BulkAgrees hashLR := by
  intro sched leaves depth writes hpos hlen hint hw hleaf
  have hle : depth ≤ 62 := by
    rw [hlen] at hint
    have := (Nat.pow_lt_pow_iff_right (by omega)).1 hint
    omega
  obtain ⟨t, hnew, hd, h⟩ := newTree_spec hashLR sched hpos hle hlen
  obtain ⟨hd₀, h₀⟩ := newEmptyTree_depth_holds hashLR hpos hle
  obtain ⟨t', hrun, hd', h'⟩ := h₀.updateAll_spec hnz fun w hw' => by rw [hd₀]; exact hw w hw'
  -- past the list, neither wrote anything
  have hsame : (writes.foldl (fun leaf w => Function.update leaf w.1.toNat w.2) fun _ => emptyLeaf) =
      fun i => leaves.getD i emptyLeaf := by
    funext i
    rcases Nat.lt_or_ge i leaves.length with hi | hi
    · exact hleaf i hi
    · rw [getD_eq_default _ _ hi]
      exact lastWritten_of_ge hw (by rw [← hlen]; exact hi)
  rw [hsame] at h'
  rw [hd₀] at hd'
  refine ⟨t, t', hnew, hrun, ?_, h.prove_congr h' hnz (hd'.trans hd.symm)⟩
  rw [h.root_eq, h'.root_eq, hd, hd']

/-- The sparse tree is the naive one at every depth up to 62, and not at deeper ones, where no position
can be proved; the bulk construction always agrees with single updates. -/
theorem sparse_tree_correct (hashLR : H → H → H) (hnz : ∀ a b, hashLR a b ≠ ⊥) :
    (∀ depth, 1 ≤ depth → (UpdatesCorrect hashLR depth ↔ depth ≤ 62)) ∧ BulkAgrees hashLR := by
  refine ⟨fun depth hpos => ⟨fun h => ?_, updatesCorrect_of_le hnz hpos⟩, bulkAgrees hnz⟩
  by_contra hlt
  exact not_updatesCorrect (by omega) h

end Updates

/-- The hash `a + b + 1` of numbers is never zero. -/
theorem sparse_tree_correct_nat :
    UpdatesCorrect (fun a b : Nat => a + b + 1) 3 ∧ BulkAgrees fun a b : Nat => a + b + 1 := by
  have hnz : ∀ a b : Nat, a + b + 1 ≠ ⊥ := fun a b => succ_ne_zero _
  obtain ⟨hup, hbulk⟩ := sparse_tree_correct (fun a b : Nat => a + b + 1) hnz
  exact ⟨(hup 3 (by decide)).2 (by decide), hbulk⟩

/-- The empty tree of depth 63 has no proof for position 0. -/
theorem prove_depth_63 :
    (newEmptyTree (fun a b : Nat => a + b + 1) [63]).prove 0 = .error .outOfBound ∧
      ¬ UpdatesCorrect (fun a b : Nat => a + b + 1) 63 :=
  ⟨by decide +kernel, not_updatesCorrect le_rfl⟩

end Lineth.Smt
