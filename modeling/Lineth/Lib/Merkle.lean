import Mathlib.Data.Nat.Bitwise
import Mathlib.Data.Set.Function

/-!
# Binary Merkle trees over an arbitrary node function

`nodeAt node leaf h j` is the node of height `h` and index `j` of the complete binary tree whose leaves are `leaf 0,
leaf 1, …`. A membership proof is the list of siblings met on the way up; `climb` recomputes the top from a leaf and
its siblings. The honest siblings recompute the node above (`climb_siblings`), overwriting a leaf changes neither its
siblings nor the nodes off its path (`siblings_update`, `nodeAt_update_of_ne`), and with an injective node function a
list of siblings that recomputes the root is the honest one (`climb_sound`, `climb_injOn`), also when its length was
never checked (`climb_root_sound`). -/

namespace Merkle

open List Nat

variable {H : Type*}

/-- The node of height `h` and index `j` over the leaves `leaf`. -/
def nodeAt (node : H → H → H) (leaf : Nat → H) : Nat → Nat → H
  | 0, j => leaf j
  | h + 1, j => node (nodeAt node leaf h (2 * j)) (nodeAt node leaf h (2 * j + 1))

/-- Combine `x`, at index `i` of its level, with its sibling `s`. -/
def combine (node : H → H → H) (i : Nat) (x s : H) : H :=
  if i % 2 = 1 then node s x else node x s

/-- Recompute the node above index `i` from `x` and the siblings, lowest first. -/
def climb (node : H → H → H) : Nat → H → List H → H
  | _, x, [] => x
  | i, x, s :: ss => climb node (i / 2) (combine node i x s) ss

/-- The index next to `i` under the same parent. -/
def sib (i : Nat) : Nat := if i % 2 = 1 then i - 1 else i + 1

/-- The `n` siblings above index `i` of height `h`. -/
def siblings (node : H → H → H) (leaf : Nat → H) : Nat → Nat → Nat → List H
  | _, 0, _ => []
  | h, n + 1, i => nodeAt node leaf h (sib i) :: siblings node leaf (h + 1) n (i / 2)

variable {node : H → H → H} {leaf leaf' : Nat → H}

theorem xor_one_eq_sib (i : Nat) : i ^^^ 1 = sib i := by
  unfold sib
  split
  · exact xor_one_of_odd (odd_iff.2 ‹_›)
  · exact xor_one_of_even (even_iff.2 (by omega))

theorem sib_div (i : Nat) : sib i / 2 = i / 2 := by
  unfold sib; split <;> omega

theorem sib_ne (i : Nat) : sib i ≠ i := by
  unfold sib; split <;> omega

@[simp] theorem siblings_length (h n i : Nat) : (siblings node leaf h n i).length = n := by
  induction n generalizing h i with
  | zero => rfl
  | succ n ih => simp [siblings, ih]

theorem combine_sib (node : H → H → H) (leaf : Nat → H) (h i : Nat) :
    combine node i (nodeAt node leaf h i) (nodeAt node leaf h (sib i)) = nodeAt node leaf (h + 1) (i / 2) := by
  rw [nodeAt]
  unfold combine sib
  split
  · rw [show 2 * (i / 2) = i - 1 by omega, show i - 1 + 1 = i by omega]
  · rw [show 2 * (i / 2) = i by omega]

theorem climb_siblings (node : H → H → H) (leaf : Nat → H) (h n i : Nat) :
    climb node i (nodeAt node leaf h i) (siblings node leaf h n i) = nodeAt node leaf (h + n) (i / 2 ^ n) := by
  induction n generalizing h i with
  | zero => simp [siblings, climb]
  | succ n ih =>
    rw [siblings, climb, combine_sib, ih, Nat.div_div_eq_div_mul, ← Nat.pow_succ']
    congr 1; omega

/-! ### Overwriting a leaf -/

theorem nodeAt_congr {h j : Nat} (hl : ∀ i, i / 2 ^ h = j → leaf' i = leaf i) :
    nodeAt node leaf' h j = nodeAt node leaf h j := by
  induction h generalizing j with
  | zero => exact hl j (by simp)
  | succ h ih =>
    have below : ∀ i, i / 2 ^ (h + 1) = i / 2 ^ h / 2 := fun i => by
      rw [Nat.div_div_eq_div_mul, ← Nat.pow_succ]
    rw [nodeAt, nodeAt, ih fun i hi => hl i (by rw [below, hi]; omega),
      ih fun i hi => hl i (by rw [below, hi]; omega)]

theorem nodeAt_update_of_ne {h j pos : Nat} {x : H} (hj : j ≠ pos / 2 ^ h) :
    nodeAt node (Function.update leaf pos x) h j = nodeAt node leaf h j :=
  nodeAt_congr fun i hi => Function.update_of_ne (fun e => hj (by rw [← hi, e])) _ _

theorem siblings_update (node : H → H → H) (leaf : Nat → H) (h n pos : Nat) (x : H) :
    siblings node (Function.update leaf pos x) h n (pos / 2 ^ h) = siblings node leaf h n (pos / 2 ^ h) := by
  induction n generalizing h with
  | zero => rfl
  | succ n ih =>
    rw [siblings, siblings, nodeAt_update_of_ne (sib_ne _), Nat.div_div_eq_div_mul, ← Nat.pow_succ, ih]

theorem climb_update (node : H → H → H) (leaf : Nat → H) (n pos : Nat) (x : H) :
    climb node pos x (siblings node leaf 0 n pos) = nodeAt node (Function.update leaf pos x) n (pos / 2 ^ n) := by
  have hs := siblings_update node leaf 0 n pos x
  rw [Nat.pow_zero, Nat.div_one] at hs
  rw [← hs]
  simpa [nodeAt] using climb_siblings node (Function.update leaf pos x) 0 n pos

/-! ### Soundness -/

theorem climb_append (i : Nat) (x : H) (s t : List H) :
    climb node i x (s ++ t) = climb node (i / 2 ^ s.length) (climb node i x s) t := by
  induction s generalizing i x with
  | nil => simp [climb]
  | cons a s ih =>
    rw [cons_append, climb, ih, climb, Nat.div_div_eq_div_mul, ← Nat.pow_succ', length_cons]

theorem climb_isNode (node : H → H → H) (i : Nat) (x : H) {s : List H} (hs : s ≠ []) :
    ∃ a b, climb node i x s = node a b := by
  obtain ⟨t, a, rfl⟩ : ∃ t a, s = t ++ [a] := ⟨_, _, (dropLast_concat_getLast hs).symm⟩
  rw [climb_append]
  simp only [climb, combine]
  split
  · exact ⟨_, _, rfl⟩
  · exact ⟨_, _, rfl⟩

/-- The pairs of nodes that `climb` hashes. -/
def climbPairs (node : H → H → H) : Nat → H → List H → List (H × H)
  | _, _, [] => []
  | i, x, s :: ss => (if i % 2 = 1 then (s, x) else (x, s)) :: climbPairs node (i / 2) (combine node i x s) ss

/-- Where no two of the pairs hashed collide, two climbs of the same length from the same index agree only if they
start from the same leaf and use the same siblings. -/
theorem climb_injOn {Q : Set (H × H)} (hQ : Set.InjOn (fun p => node p.1 p.2) Q) {i : Nat} {x y : H} {s t : List H}
    (hlen : s.length = t.length) (hs : ∀ p ∈ climbPairs node i x s, p ∈ Q) (ht : ∀ p ∈ climbPairs node i y t, p ∈ Q)
    (h : climb node i x s = climb node i y t) : x = y ∧ s = t := by
  induction s generalizing i x y t with
  | nil =>
    obtain rfl := eq_nil_of_length_eq_zero hlen.symm
    exact ⟨h, rfl⟩
  | cons a s ih =>
    obtain ⟨b, t, rfl⟩ := exists_cons_of_length_eq_add_one hlen.symm
    simp only [climbPairs, mem_cons, forall_eq_or_imp] at hs ht
    obtain ⟨hcombine, rfl⟩ := ih (Nat.succ.inj hlen) hs.2 ht.2 h
    unfold combine at hcombine
    split at hcombine
    · have hpair := hQ hs.1 ht.1 (by simp [*])
      simp only [*, if_true, Prod.mk.injEq] at hpair
      exact ⟨hpair.2, by rw [hpair.1]⟩
    · have hpair := hQ hs.1 ht.1 (by simp [*])
      simp only [*, if_false, Prod.mk.injEq] at hpair
      exact ⟨hpair.1, by rw [hpair.2]⟩

section

variable (hinj : ∀ a b c d, node a b = node c d → a = c ∧ b = d)

include hinj

theorem climb_sound {h i : Nat} {x : H} {s : List H}
    (hx : climb node i x s = nodeAt node leaf (h + s.length) (i / 2 ^ s.length)) :
    x = nodeAt node leaf h i ∧ s = siblings node leaf h s.length i := by
  rw [← climb_siblings] at hx
  refine climb_injOn (Q := Set.univ) ?_ (siblings_length ..).symm (fun _ _ => trivial) (fun _ _ => trivial) hx
  rintro ⟨a, b⟩ - ⟨c, d⟩ - hab
  exact Prod.ext_iff.2 (hinj a b c d hab)

/-- Soundness against the root of a tree of height `n` for a sibling list of any length: when neither
the claimed leaf nor a leaf of the tree is a node, only the honest list of length `n` is accepted. -/
theorem climb_root_sound {n i : Nat} {x : H} {s : List H}
    (hleaf : ∀ j a b, leaf j ≠ node a b) (hxn : ∀ a b, x ≠ node a b) (hi : i < 2 ^ s.length)
    (hx : climb node i x s = nodeAt node leaf n 0) :
    s.length = n ∧ x = leaf i ∧ s = siblings node leaf 0 n i := by
  have h0 : i / 2 ^ s.length = 0 := div_eq_of_lt hi
  rcases lt_trichotomy s.length n with hlt | heq | hgt
  · -- too short: the claimed leaf is an inner node
    obtain ⟨m, rfl⟩ : ∃ m, n = m + 1 + s.length := ⟨n - s.length - 1, by omega⟩
    rw [← h0] at hx
    exact absurd (climb_sound hinj hx).1 (hxn _ _)
  · subst heq
    rw [← h0] at hx
    obtain ⟨h1, h2⟩ := climb_sound (h := 0) hinj (by rw [zero_add]; exact hx)
    exact ⟨rfl, h1, h2⟩
  · -- too long: a leaf of the tree is the node recomputed by the surplus siblings
    obtain ⟨t, u, rfl, hu⟩ : ∃ t u, s = t ++ u ∧ u.length = n :=
      ⟨s.take (s.length - n), s.drop (s.length - n), (take_append_drop _ _).symm, by simp; omega⟩
    have ht : t ≠ [] := by rintro rfl; simp [hu] at hgt
    rw [length_append, Nat.pow_add, ← Nat.div_div_eq_div_mul] at h0
    rw [climb_append, ← hu, ← h0] at hx
    obtain ⟨a, b, hab⟩ := climb_isNode node i x ht
    have := (climb_sound (h := 0) hinj (by rw [zero_add]; exact hx)).1
    rw [hab] at this
    exact absurd this.symm (hleaf _ _ _)

end

end Merkle
