import Mathlib.Algebra.BigOperators.Group.List.Lemmas
import Mathlib.Data.List.OfFn
import Lineth.Lib.BatchInverse
import Lineth.Vecprog.BuilderExact

/-!
# Operations on blocks

Each node is computed over a block of points at a time. Tables are read through views, which wrap around the end of a
coset and fill in padded rows. The vector operations give at every point what the operator gives there. -/

namespace Lineth.Vecprog

open List Nat BatchInverse

variable {K : Type}

/-! ### Vectors -/

def vec (L : Nat) (f : Nat → K) : List K := (range L).map f

@[simp] theorem length_vec (L : Nat) (f : Nat → K) : (vec L f).length = L := by rw [vec, length_map, length_range]

theorem vec_congr {L : Nat} {f g : Nat → K} (h : ∀ o < L, f o = g o) : vec L f = vec L g :=
  map_congr_left fun o ho => h o (mem_range.1 ho)

theorem map_vec {K' : Type} (g : K → K') (L : Nat) (f : Nat → K) : (vec L f).map g = vec L fun o => g (f o) := map_map

theorem zipWith_vec {K' K'' : Type} (g : K → K' → K'') (L : Nat) (f : Nat → K) (f' : Nat → K') :
    zipWith g (vec L f) (vec L f') = vec L fun o => g (f o) (f' o) := by
  rw [vec, vec, zipWith_map, zipWith_self]
  rfl

theorem getElem?_vec {L o : Nat} (f : Nat → K) (ho : o < L) : (vec L f)[o]? = some (f o) := by
  rw [vec, getElem?_map, getElem?_range ho]
  rfl

theorem vec_add (L L' : Nat) (f : Nat → K) : vec (L + L') f = vec L f ++ vec L' fun o => f (L + o) := by
  rw [vec, range_add, map_append, map_map]
  rfl

theorem replicate_eq_vec (L : Nat) (x : K) : replicate L x = vec L fun _ => x := by
  rw [vec, map_const', length_range]

/-! ### Views -/

/-- `wrappedView`: the rows from `idx` on of a coset of `n` rows, cyclically. -/
def wrappedView (table : Nat → K) (n idx L : Nat) : List K :=
  if idx + L ≤ n then vec L fun o => table (idx + o)
  else (vec (n - idx) fun o => table (idx + o)) ++ vec (L - (n - idx)) table

theorem wrappedView_eq {table : Nat → K} {n idx L : Nat} (hidx : idx < n) (hL : L ≤ n) :
    wrappedView table n idx L = vec L fun o => table ((idx + o) % n) := by
  rw [wrappedView]
  split
  · exact vec_congr fun o ho => by rw [mod_eq_of_lt (by omega)]
  · conv_rhs => rw [show L = (n - idx) + (L - (n - idx)) by omega, vec_add]
    congr 1
    · exact vec_congr fun o ho => by rw [mod_eq_of_lt (by omega)]
    · refine vec_congr fun o ho => ?_
      rw [show idx + (n - idx + o) = o + n by omega, add_mod_right, mod_eq_of_lt (by omega)]

section

variable (data : Nat → K) (len : Nat) (pad : K) (start : Int)

def paddedRow (r : Nat) : K := if start ≤ r ∧ r < start + len then data (r - start).toNat else pad

/-- A run of rows that does not wrap. -/
def paddedRun (p length : Nat) : List K :=
  let dLo := max (p : Int) start
  let dHi := min ((p + length : Nat) : Int) (start + len)
  if dLo ≥ dHi then replicate length pad
  else replicate (dLo - p).toNat pad ++ (vec (dHi - dLo).toNat fun j => data ((dLo - start).toNat + j)) ++
    replicate (p + length - dHi).toNat pad

def paddedLoop (n idx L : Nat) : Nat → Nat → List K
  | 0, _ => []
  | fuel + 1, o =>
    if o < L then
      let p := (idx + o) % n
      let length := min (L - o) (n - p)
      paddedRun data len pad start p length ++ paddedLoop n idx L fuel (o + length)
    else []

/-- `paddedView`: the rows from `idx` on of a padded coset, cyclically. -/
def paddedView (n idx L : Nat) : List K :=
  if start ≤ idx ∧ ((idx + L : Nat) : Int) ≤ start + len then vec L fun o => data ((idx - start).toNat + o)
  else paddedLoop data len pad start n idx L L 0

variable {data len pad start}

theorem paddedRun_eq (p length : Nat) :
    paddedRun data len pad start p length = vec length fun j => paddedRow data len pad start (p + j) := by
  rw [paddedRun]
  split
  · rename_i hge
    rw [replicate_eq_vec]
    refine vec_congr fun j hj => ?_
    rw [paddedRow, if_neg]
    omega
  · rename_i hlt
    obtain ⟨x, hx⟩ : ∃ x, x = (max (p : Int) start - p).toNat := ⟨_, rfl⟩
    obtain ⟨y, hy⟩ : ∃ y, y = (min ((p + length : Nat) : Int) (start + len) - max (p : Int) start).toNat := ⟨_, rfl⟩
    obtain ⟨z, hz⟩ : ∃ z, z = (p + length - min ((p + length : Nat) : Int) (start + len)).toNat := ⟨_, rfl⟩
    rw [← hx, ← hy, ← hz, show length = x + y + z by omega, vec_add, vec_add, replicate_eq_vec, replicate_eq_vec]
    congr 1
    · congr 1
      · refine vec_congr fun j hj => ?_
        rw [paddedRow, if_neg]
        omega
      · refine vec_congr fun j hj => ?_
        rw [paddedRow, if_pos (by omega)]
        congr 1
        omega
    · refine vec_congr fun j hj => ?_
      rw [paddedRow, if_neg]
      omega

theorem paddedLoop_eq {n idx L : Nat} (hn : 0 < n) (fuel o : Nat) (hfuel : L ≤ fuel + o) :
    paddedLoop data len pad start n idx L fuel o = vec (L - o) fun j =>
      paddedRow data len pad start ((idx + o + j) % n) := by
  induction fuel generalizing o with
  | zero =>
    rw [show L - o = 0 by omega]
    rfl
  | succ fuel ih =>
    rw [paddedLoop]
    split
    · rename_i ho
      dsimp only
      have hp : (idx + o) % n < n := mod_lt _ hn
      rw [ih _ (by omega), paddedRun_eq]
      conv_rhs =>
        rw [show L - o = min (L - o) (n - (idx + o) % n) + (L - (o + min (L - o) (n - (idx + o) % n))) by
          omega, vec_add]
      congr 1
      · refine vec_congr fun j hj => ?_
        rw [← mod_add_mod (idx + o) n j, mod_eq_of_lt (a := (idx + o) % n + j) (by omega)]
      · refine vec_congr fun j hj => ?_
        rw [← add_assoc, ← add_assoc]
    · rename_i ho
      rw [show L - o = 0 by omega]
      rfl

theorem paddedView_eq {n idx L : Nat} (hidx : idx < n) (hn : start + len ≤ n) :
    paddedView data len pad start n idx L = vec L fun o => paddedRow data len pad start ((idx + o) % n) := by
  rw [paddedView]
  split
  · refine vec_congr fun o ho => ?_
    rw [mod_eq_of_lt (by omega), paddedRow, if_pos (by omega)]
    congr 1
    omega
  · rw [paddedLoop_eq (by omega) L 0 (by omega)]
    rfl

end

/-! ### Batch inversion -/

section

def invLanes : Nat := 16

theorem flatMap_ofFn_eq_take (l : List K) (d : K) (q : Nat) (hq : q * invLanes ≤ l.length) :
    ((range q).map fun j (i : Fin invLanes) => l.getD (j * invLanes + i) d).flatMap ofFn = l.take (q * invLanes) := by
  induction q with
  | zero => rw [zero_mul, take_zero]; rfl
  | succ q ih =>
    have hle : q * invLanes + invLanes ≤ l.length := succ_mul q invLanes ▸ hq
    rw [range_succ, map_append, flatMap_append, ih (by omega), succ_mul, take_add]
    congr 1
    rw [map_singleton, flatMap_singleton]
    refine ext_getElem ?_ fun i h1 h2 => ?_
    · rw [List.length_ofFn, length_take, length_drop]
      omega
    · rw [List.getElem_ofFn, List.getElem_take, List.getElem_drop, List.getD_eq_getElem]

variable [Field K]

/-- The rows of `invLanes` elements. -/
def laneRows (nz : List K) : List (Fin invLanes → K) :=
  (range (nz.length / invLanes)).map fun j l => nz.getD (j * invLanes + l) 1

/-- The last loop of the chains: inverses of all chain products from one inversion. -/
def invertAll (accs : List K) : List K :=
  let fwd := forward 1 accs
  (backward fwd.2⁻¹ (accs.zip fwd.1)).1

/-- Elements that multiply with those of `l` to one are their inverses. -/
theorem eq_map_inv {ds l : List K} (h : List.Forall₂ (fun d x => d * x = 1) ds l) : ds = l.map (·⁻¹) := by
  induction h with
  | nil => rfl
  | cons hd _ ih => rw [map_cons, ih, eq_inv_of_mul_eq_one_left hd]

theorem invertAll_eq {accs : List K} (h : ∀ x ∈ accs, x ≠ 0) : invertAll accs = accs.map (·⁻¹) := by
  refine eq_map_inv (backward_spec ?_).2
  rw [forward_snd, one_mul]
  exact inv_mul_cancel₀ (prod_ne_zero fun hzero => h 0 hzero rfl)

theorem laneRows_flatMap (nz : List K) :
    (laneRows nz).flatMap ofFn ++ nz.drop (nz.length / invLanes * invLanes) = nz := by
  rw [laneRows, flatMap_ofFn_eq_take nz 1 _ (div_mul_le_self _ _), take_append_drop]

theorem prod_rows_ne_zero {rows : List (Fin invLanes → K)} (h : ∀ r ∈ rows, ∀ l, r l ≠ 0) (l : Fin invLanes) :
    rows.prod l ≠ 0 := by
  induction rows with
  | nil => exact one_ne_zero
  | cons r rows ih =>
    obtain ⟨hr, hrows⟩ := forall_mem_cons.1 h
    rw [prod_cons, Pi.mul_apply]
    exact mul_ne_zero (hr l) (ih hrows)

theorem eq_map_inv_rows {ds rows : List (Fin invLanes → K)} (h : List.Forall₂ (fun d x => d * x = 1) ds rows) :
    ds.flatMap ofFn = (rows.flatMap ofFn).map (·⁻¹) := by
  induction h with
  | nil => rfl
  | @cons d r ds rows hd _ ih =>
    have hinv : d = fun l => (r l)⁻¹ := funext fun l => eq_inv_of_mul_eq_one_left (congrFun hd l)
    rw [flatMap_cons, flatMap_cons, map_append, ih, hinv, map_ofFn]
    rfl

theorem invertAll_chains {acc : Fin invLanes → K} {last : K} (hacc : ∀ l, acc l ≠ 0) (hlast : last ≠ 0) :
    (fun l : Fin invLanes => (invertAll (ofFn acc ++ [last])).getD l 0) = (fun l => (acc l)⁻¹) ∧
      (invertAll (ofFn acc ++ [last])).getD invLanes 0 = last⁻¹ := by
  have hne : ∀ x ∈ ofFn acc ++ [last], x ≠ 0 := by
    intro x hx
    rcases mem_append.1 hx with hx | hx
    · obtain ⟨l, rfl⟩ := mem_ofFn.1 hx
      exact hacc l
    · rw [mem_singleton.1 hx]
      exact hlast
  rw [invertAll_eq hne, map_append, map_ofFn]
  refine ⟨funext fun l => ?_, ?_⟩
  · have hl : (l : Nat) < (ofFn ((·⁻¹) ∘ acc)).length := by
      rw [List.length_ofFn]
      exact l.2
    rw [List.getD_append _ _ _ _ hl, List.getD_eq_getElem _ _ hl, List.getElem_ofFn]
    rfl
  · rw [List.getD_append_right _ _ _ _ (by rw [List.length_ofFn]), List.length_ofFn, Nat.sub_self]
    rfl

variable [DecidableEq K]

def nonzero (x : K) : K := if x = 0 then 1 else x

/-- Zero where `x` is zero. -/
def restoreZero (x d : K) : K := if x = 0 then 0 else d

/-- The first loop of `batchInvertBase`. -/
def prefixProducts (acc : K) : List K → List K × K
  | [] => ([], acc)
  | x :: l =>
    let rest := prefixProducts (if x = 0 then acc else acc * x) l
    (acc :: rest.1, rest.2)

/-- Its second loop, from the last element to the first. -/
def suffixInverses (acc : K) : List (K × K) → List K × K
  | [] => ([], acc)
  | (x, before) :: l =>
    let rest := suffixInverses acc l
    if x = 0 then (0 :: rest.1, rest.2) else (rest.2 * before :: rest.1, rest.2 * x)

def batchInvertBase (a : List K) : List K :=
  let fwd := prefixProducts 1 a
  (suffixInverses fwd.2⁻¹ (a.zip fwd.1)).1

/-- `batchInvertExt`: interleaved chains, the elements after the last full row being one more chain. -/
def batchInvertExt (a : List K) : List K :=
  let nz := a.map nonzero
  let rows := laneRows nz
  let tail := nz.drop (nz.length / invLanes * invLanes)
  let fwd := forward 1 rows
  let fwdTail := forward 1 tail
  let accs := invertAll (ofFn fwd.2 ++ [fwdTail.2])
  let inv := backward (fun l : Fin invLanes => accs.getD l 0) (rows.zip fwd.1)
  let invTail := backward (accs.getD invLanes 0) (tail.zip fwdTail.1)
  zipWith restoreZero a (inv.1.flatMap ofFn ++ invTail.1)

theorem nonzero_ne_zero (x : K) : nonzero x ≠ 0 := by
  rw [nonzero]
  split
  · exact one_ne_zero
  · assumption

theorem restoreZero_inv_nonzero (x : K) : restoreZero x (nonzero x)⁻¹ = x⁻¹ := by
  rw [restoreZero, nonzero]
  split
  · rename_i h
    rw [h, inv_zero]
  · rfl

theorem zipWith_restoreZero (a : List K) : zipWith restoreZero a ((a.map nonzero).map (·⁻¹)) = a.map (·⁻¹) := by
  rw [map_map, zipWith_map_right, zipWith_self]
  exact map_congr_left fun x _ => restoreZero_inv_nonzero x

theorem prefixProducts_eq (acc : K) (a : List K) : prefixProducts acc a = forward acc (a.map nonzero) := by
  induction a generalizing acc with
  | nil => rfl
  | cons x a ih =>
    have hacc : (if x = 0 then acc else acc * x) = acc * nonzero x := by
      rw [nonzero]
      split
      · rw [mul_one]
      · rfl
    rw [prefixProducts, hacc, ih, map_cons, forward]

theorem suffixInverses_eq (acc : K) (a before : List K) :
    suffixInverses acc (a.zip before) =
      (zipWith restoreZero a (backward acc ((a.map nonzero).zip before)).1,
        (backward acc ((a.map nonzero).zip before)).2) := by
  induction a generalizing before with
  | nil => rfl
  | cons x a ih =>
    cases before with
    | nil => rfl
    | cons y before =>
      rw [zip_cons_cons, suffixInverses, ih, map_cons, zip_cons_cons, backward, zipWith_cons_cons,
        restoreZero, nonzero]
      dsimp only
      split
      · rw [mul_one]
      · rfl

theorem batchInvertBase_eq (a : List K) : batchInvertBase a = a.map (·⁻¹) := by
  rw [batchInvertBase, prefixProducts_eq, suffixInverses_eq]
  have hne : ∀ x ∈ a.map nonzero, x ≠ 0 := fun x hx => by
    obtain ⟨y, -, rfl⟩ := mem_map.1 hx
    exact nonzero_ne_zero y
  exact (congrArg (zipWith restoreZero a) (invertAll_eq hne)).trans (zipWith_restoreZero a)

theorem batchInvertExt_eq (a : List K) : batchInvertExt a = a.map (·⁻¹) := by
  rw [batchInvertExt]
  obtain ⟨nz, hnz⟩ : ∃ nz, nz = a.map nonzero := ⟨_, rfl⟩
  have hne : ∀ x ∈ nz, x ≠ 0 := fun x hx => by
    rw [hnz] at hx
    obtain ⟨y, -, rfl⟩ := mem_map.1 hx
    exact nonzero_ne_zero y
  rw [← hnz]
  have hsplit := laneRows_flatMap nz
  obtain ⟨rows, hrows⟩ : ∃ rows, rows = laneRows nz := ⟨_, rfl⟩
  obtain ⟨tail, htail⟩ : ∃ tail, tail = nz.drop (nz.length / invLanes * invLanes) := ⟨_, rfl⟩
  rw [← hrows, ← htail] at hsplit ⊢
  -- no chain has a zero
  have hlane : ∀ l, (forward 1 rows).2 l ≠ 0 := by
    rw [forward_snd, one_mul]
    refine prod_rows_ne_zero fun r hr l => hne _ ?_
    rw [← hsplit]
    exact mem_append_left _ (mem_flatMap.2 ⟨r, hr, mem_ofFn.2 ⟨l, rfl⟩⟩)
  have hlast : (forward 1 tail).2 ≠ 0 := by
    rw [forward_snd, one_mul]
    refine prod_ne_zero fun hzero => hne 0 ?_ rfl
    rw [← hsplit]
    exact mem_append_right _ hzero
  obtain ⟨hinv, hinvTail⟩ := invertAll_chains hlane hlast
  rw [hinv, hinvTail, eq_map_inv_rows (backward_spec (funext fun l => inv_mul_cancel₀ (hlane l))).2,
    eq_map_inv (backward_spec (inv_mul_cancel₀ hlast)).2, ← map_append, hsplit, hnz, zipWith_restoreZero]

end

end Lineth.Vecprog
