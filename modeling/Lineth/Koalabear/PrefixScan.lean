import Mathlib.Algebra.BigOperators.Intervals
import Lineth.Lib.Parallel

/-!
# Running sums in parallel

A vector is replaced by its running sums in two passes over chunks, which are shared out among workers. The first sums
each chunk from zero; the second adds to every chunk but the first the totals of the chunks before it. -/

namespace Lineth.Koalabear

open Parallel List Nat

variable {K : Type}

/-- What the workers touch: the vector, an accumulator each, and the totals of the chunks. -/
inductive ScanLoc where
  | z (i : Nat)
  | acc (worker : Nat)
  | offset (chunk : Nat)
deriving DecidableEq

def store (m : ScanLoc → K) (x : ScanLoc) (v : K) : ScanLoc → K := fun y => if y = x then v else m y

@[simp] theorem store_self (m : ScanLoc → K) (x : ScanLoc) (v : K) : store m x v x = v := if_pos rfl

theorem store_of_ne (m : ScanLoc → K) {x y : ScanLoc} (v : K) (h : y ≠ x) : store m x v y = m y := if_neg h

/-! ### The two passes -/

def prefixScanMinChunk : Nat := 4096

section

variable [AddCommMonoid K]

def chunk (n size c : Nat) : List Nat := range' (c * size) (min ((c + 1) * size) n - c * size)

def scanStep (w i : Nat) : List (Step ScanLoc K) :=
  [fun m => store m (.acc w) (m (.acc w) + m (.z i)), fun m => store m (.z i) (m (.acc w))]

def scanChunk (n size w c : Nat) : List (Step ScanLoc K) :=
  (fun m => store m (.acc w) 0) :: (chunk n size c).flatMap (scanStep w) ++ [fun m => store m (.offset c) (m (.acc w))]

def scanWork (n size w : Nat) (p : Nat × Nat) : List (Step ScanLoc K) := (Tiling.members p).flatMap (scanChunk n size w)

/-- `z[i]` of the vector after it was summed in one go. -/
def scan (v : Nat → K) : Nat → K
  | 0 => v 0
  | i + 1 => scan v i + v (i + 1)

/-- The totals of the chunks before each chunk: all but the last are summed, then moved up by one. -/
def combineOffsets (m : ScanLoc → K) : ScanLoc → K
  | .offset (c + 1) => scan (fun c => m (.offset c)) c
  | .offset 0 => m (.offset 0)
  | x => m x

def shiftStep (c i : Nat) : Step ScanLoc K := fun m => store m (.z i) (m (.z i) + m (.offset c))

def shiftWork (n size : Nat) (_w : Nat) (p : Nat × Nat) : List (Step ScanLoc K) :=
  (Tiling.members p).flatMap fun c => (chunk n size (c + 1)).map (shiftStep (c + 1))

/-- `VecPrefixSumExt` can replace the vector `v` of `n` elements by `v'`. -/
def VecPrefixSum (n workers : Nat) (v v' : Nat → K) : Prop :=
  let size := max prefixScanMinChunk ((n + workers - 1) / max 1 workers)
  let nbChunks := (n + size - 1) / size
  ∃ m₁ : ScanLoc → K,
    Executes nbChunks workers (scanWork n size) (fun | .z i => v i | _ => 0) m₁ ∧
      if nbChunks < 2 then v' = fun i => m₁ (.z i)
      else ∃ m₂, Executes (nbChunks - 1) workers (shiftWork n size) (combineOffsets m₁) m₂ ∧ v' = fun i => m₂ (.z i)

/-! ### What a worker does alone -/

theorem scan_eq_sum (v : Nat → K) (i : Nat) : scan v i = ∑ k ∈ Finset.range (i + 1), v k := by
  induction i with
  | zero => rw [Finset.sum_range_one]; rfl
  | succ i ih => rw [scan, ih, ← Finset.sum_range_succ]

theorem run_scanStep (w s len : Nat) (m : ScanLoc → K) (hacc : m (.acc w) = 0) :
    run ((range' s len).flatMap (scanStep w)) m (.acc w) = ∑ k ∈ Finset.Ico s (s + len), m (.z k) ∧
      (∀ i, s ≤ i → i < s + len →
        run ((range' s len).flatMap (scanStep w)) m (.z i) = ∑ k ∈ Finset.Ico s (i + 1), m (.z k)) ∧
      ∀ x, x ≠ .acc w → (∀ i, s ≤ i → i < s + len → x ≠ .z i) →
        run ((range' s len).flatMap (scanStep w)) m x = m x := by
  induction len with
  | zero =>
    refine ⟨?_, fun i h1 h2 => by omega, fun x _ _ => rfl⟩
    rw [add_zero, Finset.Ico_self, Finset.sum_empty]
    exact hacc
  | succ len ih =>
    obtain ⟨h1, h2, h3⟩ := ih
    rw [range'_1_concat, flatMap_append, run_append, flatMap_singleton, scanStep, run_cons, run_cons, run_nil]
    generalize run ((range' s len).flatMap (scanStep w)) m = m' at h1 h2 h3
    have hlast : m' (.acc w) + m' (.z (s + len)) = ∑ k ∈ Finset.Ico s (s + len + 1), m (.z k) := by
      rw [Finset.sum_Ico_succ_top (le_add_right s len), h1,
        h3 (.z (s + len)) (by simp) fun i _ hi heq => by cases heq; omega]
    refine ⟨?_, fun i hi hi' => ?_, fun x hx hx' => ?_⟩
    · rw [store_of_ne _ _ (by simp), store_self, hlast]
      rfl
    · by_cases hi' : i = s + len
      · subst hi'
        rw [store_self, store_self, hlast]
      · have hne : ScanLoc.z i ≠ .z (s + len) := fun heq => hi' (ScanLoc.z.inj heq)
        rw [store_of_ne _ _ hne, store_of_ne _ _ (by simp)]
        exact h2 i hi (by omega)
    · rw [store_of_ne _ _ (hx' (s + len) (le_add_right _ _) (by omega)), store_of_ne _ _ hx]
      exact h3 x hx fun i hi hi' => hx' i hi (by omega)

def chunkEnd (n size c : Nat) : Nat := min ((c + 1) * size) n

theorem chunk_bounds {n size c : Nat} (hc : c * size ≤ n) :
    c * size + (min ((c + 1) * size) n - c * size) = chunkEnd n size c := by
  have : c * size ≤ (c + 1) * size := mul_le_mul_right size (le_succ c)
  rw [chunkEnd]
  omega

theorem run_scanChunk {n size c : Nat} (hc : c * size ≤ n) (w : Nat) (m : ScanLoc → K) :
    run (scanChunk n size w c) m (.offset c) = ∑ k ∈ Finset.Ico (c * size) (chunkEnd n size c), m (.z k) ∧
      (∀ i, c * size ≤ i → i < chunkEnd n size c →
        run (scanChunk n size w c) m (.z i) = ∑ k ∈ Finset.Ico (c * size) (i + 1), m (.z k)) ∧
      ∀ x, x ≠ .acc w → x ≠ .offset c → (∀ i, c * size ≤ i → i < chunkEnd n size c → x ≠ .z i) →
        run (scanChunk n size w c) m x = m x := by
  have hz (i : Nat) : store m (.acc w) 0 (.z i) = m (.z i) := store_of_ne _ _ (by simp)
  obtain ⟨h1, h2, h3⟩ := run_scanStep w (c * size) (min ((c + 1) * size) n - c * size)
    (store m (.acc w) 0) (store_self _ _ _)
  rw [chunk_bounds hc] at h1 h2 h3
  simp only [hz] at h1 h2
  rw [scanChunk, cons_append, run_cons, run_append, run_cons, run_nil, chunk]
  refine ⟨?_, fun i hi hi' => ?_, fun x hx hx' hx'' => ?_⟩
  · rw [store_self, h1]
  · rw [store_of_ne _ _ (by simp), h2 i hi hi']
  · rw [store_of_ne _ _ hx', h3 x hx hx'', store_of_ne _ _ hx]

variable {p : Nat × Nat} {n size : Nat}

theorem run_scanWork (w : Nat) (hp : p.2 * size ≤ n + size) (m : ScanLoc → K) :
    (∀ c, p.1 ≤ c → c < p.2 →
        run (scanWork n size w p) m (.offset c) = ∑ k ∈ Finset.Ico (c * size) (chunkEnd n size c), m (.z k) ∧
        ∀ i, c * size ≤ i → i < chunkEnd n size c →
          run (scanWork n size w p) m (.z i) = ∑ k ∈ Finset.Ico (c * size) (i + 1), m (.z k)) := by
  suffices H : ∀ len, (p.1 + len) * size ≤ n + size →
      (∀ c, p.1 ≤ c → c < p.1 + len →
        run ((range' p.1 len).flatMap (scanChunk n size w)) m (.offset c) =
            ∑ k ∈ Finset.Ico (c * size) (chunkEnd n size c), m (.z k) ∧
          ∀ i, c * size ≤ i → i < chunkEnd n size c →
            run ((range' p.1 len).flatMap (scanChunk n size w)) m (.z i) =
              ∑ k ∈ Finset.Ico (c * size) (i + 1), m (.z k)) ∧
        ∀ i, (p.1 + len) * size ≤ i → run ((range' p.1 len).flatMap (scanChunk n size w)) m (.z i) = m (.z i) by
    intro c hc hc'
    have hlen : p.1 + (p.2 - p.1) = p.2 := by omega
    exact (H (p.2 - p.1) (by rw [hlen]; exact hp)).1 c hc (by omega)
  intro len
  induction len with
  | zero => exact fun _ => ⟨fun c h1 h2 => by omega, fun i _ => rfl⟩
  | succ len ih =>
    intro hlen
    have hsucc : (p.1 + (len + 1)) * size = (p.1 + len) * size + size := by rw [← add_assoc, succ_mul]
    obtain ⟨ihc, ihz⟩ := ih (by omega)
    have hc : (p.1 + len) * size ≤ n := by omega
    rw [range'_1_concat, flatMap_append, run_append, flatMap_singleton]
    generalize run ((range' p.1 len).flatMap (scanChunk n size w)) m = m' at ihc ihz
    obtain ⟨h1, h2, h3⟩ := run_scanChunk hc w m'
    -- the chunks before do not reach the elements of this one
    have hend (i : Nat) : ∑ k ∈ Finset.Ico ((p.1 + len) * size) i, m' (.z k) =
        ∑ k ∈ Finset.Ico ((p.1 + len) * size) i, m (.z k) :=
      Finset.sum_congr rfl fun k hk => ihz k (Finset.mem_Ico.1 hk).1
    simp only [hend] at h1 h2
    refine ⟨fun c hc1 hc2 => ?_, fun i hi => ?_⟩
    · by_cases hlast : c = p.1 + len
      · subst hlast
        exact ⟨h1, h2⟩
      · obtain ⟨hoff, hzs⟩ := ihc c hc1 (by omega)
        have hbefore : (c + 1) * size ≤ (p.1 + len) * size := mul_le_mul_right size (by omega)
        refine ⟨?_, fun i hi hi' => ?_⟩
        · rw [h3 _ (by simp) (fun heq => hlast (ScanLoc.offset.inj heq)) (by simp), hoff]
        · have hilt : i < (c + 1) * size := lt_of_lt_of_le hi' (min_le_left _ _)
          rw [h3 _ (by simp) (by simp) fun j hj _ heq => by cases heq; omega, hzs i hi hi']
    · have hle : chunkEnd n size (p.1 + len) ≤ (p.1 + len + 1) * size := min_le_left _ _
      rw [succ_mul] at hle
      rw [h3 _ (by simp) (by simp) fun j _ hj heq => by cases heq; omega, ihz i (by omega)]

theorem run_shiftStep (c s len : Nat) (m : ScanLoc → K) :
    (∀ i, s ≤ i → i < s + len → run ((range' s len).map (shiftStep c)) m (.z i) = m (.z i) + m (.offset c)) ∧
      ∀ x, (∀ i, s ≤ i → i < s + len → x ≠ .z i) → run ((range' s len).map (shiftStep c)) m x = m x := by
  induction len with
  | zero => exact ⟨fun i h1 h2 => by omega, fun x _ => rfl⟩
  | succ len ih =>
    obtain ⟨h1, h2⟩ := ih
    rw [range'_1_concat, map_append, run_append, map_singleton, run_cons, run_nil]
    generalize run ((range' s len).map (shiftStep c)) m = m' at h1 h2
    refine ⟨fun i hi hi' => ?_, fun x hx => ?_⟩
    · by_cases hlast : i = s + len
      · subst hlast
        rw [shiftStep, store_self, h2 _ (fun j _ hj heq => by cases heq; omega), h2 _ (by simp)]
      · rw [shiftStep, store_of_ne _ _ fun heq => hlast (ScanLoc.z.inj heq), h1 i hi (by omega)]
    · rw [shiftStep, store_of_ne _ _ (hx _ (le_add_right _ _) (by omega)), h2 x fun i hi hi' => hx i hi (by omega)]

theorem run_shiftWork (w : Nat) (hp : (p.2 + 1) * size ≤ n + size) (m : ScanLoc → K) :
    ∀ c, p.1 ≤ c → c < p.2 → ∀ i, (c + 1) * size ≤ i → i < chunkEnd n size (c + 1) →
      run (shiftWork n size w p) m (.z i) = m (.z i) + m (.offset (c + 1)) := by
  suffices H : ∀ len, (p.1 + len + 1) * size ≤ n + size →
      (∀ c, p.1 ≤ c → c < p.1 + len → ∀ i, (c + 1) * size ≤ i → i < chunkEnd n size (c + 1) →
        run ((range' p.1 len).flatMap fun c => (chunk n size (c + 1)).map (shiftStep (c + 1))) m (.z i) =
          m (.z i) + m (.offset (c + 1))) ∧
        ∀ x, (∀ i, i < (p.1 + len + 1) * size → x ≠ .z i) →
          run ((range' p.1 len).flatMap fun c => (chunk n size (c + 1)).map (shiftStep (c + 1))) m x = m x by
    intro c hc hc'
    have hlen : p.1 + (p.2 - p.1) = p.2 := by omega
    exact (H (p.2 - p.1) (by rw [hlen]; exact hp)).1 c hc (by omega)
  intro len
  induction len with
  | zero => exact fun _ => ⟨fun c h1 h2 => by omega, fun x _ => rfl⟩
  | succ len ih =>
    intro hlen
    have hsucc : (p.1 + (len + 1) + 1) * size = (p.1 + len + 1) * size + size := by
      rw [← succ_mul, show p.1 + (len + 1) + 1 = (p.1 + len + 1).succ by omega]
    obtain ⟨ihc, ihx⟩ := ih (by omega)
    have hc : (p.1 + len + 1) * size ≤ n := by omega
    rw [range'_1_concat, flatMap_append, run_append, flatMap_singleton]
    generalize run ((range' p.1 len).flatMap fun c => (chunk n size (c + 1)).map (shiftStep (c + 1))) m = m' at ihc ihx
    obtain ⟨h1, h2⟩ := run_shiftStep (p.1 + len + 1) ((p.1 + len + 1) * size)
      (min ((p.1 + len + 1 + 1) * size) n - (p.1 + len + 1) * size) m'
    rw [chunk_bounds hc] at h1 h2
    refine ⟨fun c hc1 hc2 i hi hi' => ?_, fun x hx => ?_⟩
    · by_cases hlast : c = p.1 + len
      · subst hlast
        rw [chunk, h1 i hi hi', ihx _ (fun j hj heq => by cases heq; omega), ihx _ (by simp)]
      · have hbefore : (c + 1 + 1) * size ≤ (p.1 + len + 1) * size := mul_le_mul_right size (by omega)
        have hilt : i < (c + 1 + 1) * size := lt_of_lt_of_le hi' (min_le_left _ _)
        rw [chunk, h2 _ (fun j hj _ heq => by cases heq; omega), ihc c hc1 (by omega) i hi hi']
    · have hle : chunkEnd n size (p.1 + len + 1) ≤ (p.1 + len + 1 + 1) * size := min_le_left _ _
      rw [succ_mul] at hle
      rw [chunk, h2 x fun i _ hi => hx i (by omega), ihx x fun i hi => hx i (by omega)]

/-! ### All workers -/

variable {x : ScanLoc}

omit [AddCommMonoid K] in
theorem local_store {own shared : Set ScanLoc} (hx : x ∈ own) {v : (ScanLoc → K) → K}
    (hv : ∀ m m', (∀ y, y ∈ own ∨ y ∈ shared → m y = m' y) → v m = v m') :
    Local own shared fun m => store m x (v m) where
  frame m y hy := store_of_ne _ _ fun heq => hy (heq ▸ hx)
  reads m m' h y hy := by
    by_cases heq : y = x
    · subst heq
      rw [store_self, store_self, hv m m' h]
    · rw [store_of_ne _ _ heq, store_of_ne _ _ heq, h y (.inl hy)]

def scanOwn (size w : Nat) (p : Nat × Nat) : Set ScanLoc := fun
  | .acc w' => w' = w
  | .offset c => p.1 ≤ c ∧ c < p.2
  | .z i => p.1 * size ≤ i ∧ i < p.2 * size

/-- What a worker of the second pass owns: the chunks one after those of its piece. -/
def shiftOwn (size : Nat) (p : Nat × Nat) : Set ScanLoc := fun
  | .z i => (p.1 + 1) * size ≤ i ∧ i < (p.2 + 1) * size
  | _ => False

theorem mem_chunk {n size c i : Nat} (h : i ∈ chunk n size c) : c * size ≤ i ∧ i < (c + 1) * size := by
  have := mem_range'_1.1 h
  omega

theorem scanWork_local {n size w : Nat} {f : Step ScanLoc K} (hf : f ∈ scanWork n size w p) :
    Local (scanOwn size w p) ∅ f := by
  obtain ⟨c, hc, hf⟩ := mem_flatMap.1 hf
  have hc := Tiling.mem_members.1 hc
  have hacc : .acc w ∈ scanOwn size w p := rfl
  rw [scanChunk, cons_append, mem_cons, mem_append, mem_singleton, mem_flatMap] at hf
  rcases hf with rfl | ⟨i, hi, hf⟩ | rfl
  · exact local_store hacc fun _ _ _ => rfl
  · obtain ⟨h1, h2⟩ := mem_chunk hi
    have hz : .z i ∈ scanOwn size w p :=
      ⟨(mul_le_mul_right size hc.1).trans h1, lt_of_lt_of_le h2 (mul_le_mul_right size hc.2)⟩
    rcases mem_pair.1 hf with rfl | rfl
    · exact local_store hacc fun m m' h => by rw [h _ (.inl hacc), h _ (.inl hz)]
    · exact local_store hz fun m m' h => h _ (.inl hacc)
  · exact local_store (show .offset c ∈ scanOwn size w p from hc) fun m m' h => h _ (.inl hacc)

theorem shiftWork_local {n size w : Nat} {f : Step ScanLoc K} (hf : f ∈ shiftWork n size w p) :
    Local (shiftOwn size p) (Set.range .offset) f := by
  obtain ⟨c, hc, hf⟩ := mem_flatMap.1 hf
  have hc := Tiling.mem_members.1 hc
  obtain ⟨i, hi, rfl⟩ := mem_map.1 hf
  obtain ⟨h1, h2⟩ := mem_chunk hi
  have hz : .z i ∈ shiftOwn size p :=
    ⟨(mul_le_mul_right size (succ_le_succ hc.1)).trans h1,
      lt_of_lt_of_le h2 (mul_le_mul_right size (succ_le_succ hc.2))⟩
  exact local_store hz fun m m' h => by rw [h _ (.inl hz), h _ (.inr ⟨c + 1, rfl⟩)]

theorem scanOwn_disjoint {size w w' : Nat} {p p' : Nat × Nat} (hw : w ≠ w') (hp : p.2 ≤ p'.1 ∨ p'.2 ≤ p.1)
    (hx : x ∈ scanOwn size w p) : x ∉ scanOwn size w' p' := by
  have hmul : p.2 * size ≤ p'.1 * size ∨ p'.2 * size ≤ p.1 * size :=
    hp.imp (mul_le_mul_right size) (mul_le_mul_right size)
  intro hx'
  cases x with
  | z i =>
    have h : p.1 * size ≤ i ∧ i < p.2 * size := hx
    have h' : p'.1 * size ≤ i ∧ i < p'.2 * size := hx'
    omega
  | acc v => exact hw (Eq.trans (Eq.symm hx) hx')
  | offset c =>
    have h : p.1 ≤ c ∧ c < p.2 := hx
    have h' : p'.1 ≤ c ∧ c < p'.2 := hx'
    omega

theorem shiftOwn_disjoint {size : Nat} {p p' : Nat × Nat} (hp : p.2 ≤ p'.1 ∨ p'.2 ≤ p.1)
    (hx : x ∈ shiftOwn size p) : x ∉ shiftOwn size p' := by
  have hmul : (p.2 + 1) * size ≤ (p'.1 + 1) * size ∨ (p'.2 + 1) * size ≤ (p.1 + 1) * size :=
    hp.imp (fun h => mul_le_mul_right size (succ_le_succ h)) fun h => mul_le_mul_right size (succ_le_succ h)
  intro hx'
  cases x with
  | z i =>
    have h : (p.1 + 1) * size ≤ i ∧ i < (p.2 + 1) * size := hx
    have h' : (p'.1 + 1) * size ≤ i ∧ i < (p'.2 + 1) * size := hx'
    omega
  | acc v => exact hx
  | offset c => exact hx

section

variable {n size workers : Nat} {m m' : ScanLoc → K}

theorem scanWork_spec (hsize : 0 < size) (h : Executes ((n + size - 1) / size) workers (scanWork n size) m m') :
    ∀ c < (n + size - 1) / size,
      m' (.offset c) = ∑ k ∈ Finset.Ico (c * size) (chunkEnd n size c), m (.z k) ∧
        ∀ i, c * size ≤ i → i < chunkEnd n size c → m' (.z i) = ∑ k ∈ Finset.Ico (c * size) (i + 1), m (.z k) := by
  intro c hc
  obtain ⟨w, p, h1, h2, h3, heq⟩ := (h.spec (scanOwn size) ∅ (fun w p _ _ f hf => scanWork_local hf)
    (fun w p w' p' hw hp x hx => scanOwn_disjoint hw hp hx) fun _ _ _ hx => by cases hx).1 c hc
  have hchunks : p.2 * size ≤ n + size := by
    have := (mul_le_mul_right size h3).trans (div_mul_le_self _ _)
    omega
  obtain ⟨hoffset, hz⟩ := run_scanWork w hchunks m c h1 h2
  refine ⟨by rw [heq (.offset c) ⟨h1, h2⟩, hoffset], fun i hi hi' => ?_⟩
  have hown : .z i ∈ scanOwn size w p :=
    ⟨(mul_le_mul_right size h1).trans hi,
      lt_of_lt_of_le (lt_of_lt_of_le hi' (min_le_left _ _)) (mul_le_mul_right size h2)⟩
  rw [heq _ hown, hz i hi hi']

theorem shiftWork_spec (hchunks : 2 ≤ (n + size - 1) / size)
    (h : Executes ((n + size - 1) / size - 1) workers (shiftWork n size) m m') :
    (∀ c, c + 1 < (n + size - 1) / size → ∀ i, (c + 1) * size ≤ i → i < chunkEnd n size (c + 1) →
      m' (.z i) = m (.z i) + m (.offset (c + 1))) ∧ ∀ i < size, m' (.z i) = m (.z i) := by
  obtain ⟨hwork, hframe⟩ := h.spec (fun _ => shiftOwn size) (Set.range .offset) (fun w p _ _ f hf => shiftWork_local hf)
    (fun w p w' p' _ hp x hx => shiftOwn_disjoint hp hx) (fun w p x hx hown => by obtain ⟨c, rfl⟩ := hx; exact hown)
  refine ⟨fun c hc i hi hi' => ?_, fun i hi => hframe _ fun w p hown => ?_⟩
  · obtain ⟨w, p, h1, h2, h3, heq⟩ := hwork c (by omega)
    have hle : (p.2 + 1) * size ≤ n + size := by
      have := (mul_le_mul_right size (show p.2 + 1 ≤ (n + size - 1) / size by omega)).trans (div_mul_le_self _ _)
      omega
    have hown : .z i ∈ shiftOwn size p :=
      ⟨(mul_le_mul_right size (succ_le_succ h1)).trans hi,
        lt_of_lt_of_le (lt_of_lt_of_le hi' (min_le_left _ _)) (mul_le_mul_right size (succ_le_succ h2))⟩
    rw [heq _ hown, run_shiftWork w hle m c h1 h2 i hi hi']
  · have hge : (p.1 + 1) * size ≤ i := hown.1
    rw [succ_mul] at hge
    omega

end

theorem sum_chunks (v : Nat → K) (c : Nat) (hc : c * size ≤ n) :
    ∑ c' ∈ Finset.range c, ∑ k ∈ Finset.Ico (c' * size) (chunkEnd n size c'), v k =
      ∑ k ∈ Finset.range (c * size), v k := by
  induction c with
  | zero => rw [zero_mul]; rfl
  | succ c ih =>
    have hsucc : (c + 1) * size = c * size + size := succ_mul c size
    have hend : chunkEnd n size c = (c + 1) * size := min_eq_left hc
    rw [Finset.sum_range_succ, ih (by omega), hend, Finset.range_eq_Ico,
      Finset.sum_Ico_consecutive _ (zero_le _) (by omega), Finset.range_eq_Ico]

/-- Whatever the number of workers and the order of their steps, the result is the vector of the running sums. -/
theorem VecPrefixSum.spec {n workers : Nat} {v v' : Nat → K} (h : VecPrefixSum n workers v v') :
    ∀ i < n, v' i = ∑ k ∈ Finset.range (i + 1), v k := by
  unfold VecPrefixSum at h
  generalize hsize : max prefixScanMinChunk ((n + workers - 1) / max 1 workers) = size at h
  have hpos : 0 < size := by
    have : prefixScanMinChunk ≤ size := hsize ▸ le_max_left _ _
    exact lt_of_lt_of_le (by decide) this
  obtain ⟨m₁, hscan, h⟩ := h
  have h1 := scanWork_spec hpos hscan
  intro i hi
  -- the chunk of the element
  have hc : i / size < (n + size - 1) / size := by
    rw [lt_iff_add_one_le, le_div_iff_mul_le hpos, succ_mul]
    have := div_mul_le_self i size
    omega
  have hle : i / size * size ≤ i := div_mul_le_self i size
  have hlt : i < chunkEnd n size (i / size) := Nat.lt_min.2 ⟨Nat.lt_mul_of_div_lt (Nat.lt_succ_self _) hpos, hi⟩
  obtain ⟨-, hz⟩ := h1 _ hc
  have hz := hz i hle hlt
  by_cases hfew : (n + size - 1) / size < 2
  · have hzero : i / size = 0 := lt_one_iff.1 (lt_of_lt_of_le hc (le_of_lt_succ hfew))
    rw [if_pos hfew] at h
    subst h
    change m₁ (.z i) = _
    rw [hz, hzero, zero_mul, Finset.range_eq_Ico]
  · rw [if_neg hfew] at h
    obtain ⟨m₂, hshift, rfl⟩ := h
    obtain ⟨hmore, hfirst⟩ := shiftWork_spec (Nat.le_of_not_lt hfew) hshift
    change m₂ (.z i) = _
    cases hchunk : i / size with
    | zero =>
      have : i < size := (div_eq_zero_iff_lt hpos).1 hchunk
      rw [hfirst i this]
      change m₁ (.z i) = _
      rw [hz, hchunk, zero_mul, Finset.range_eq_Ico]
    | succ c =>
      rw [hchunk] at hz hle hlt hc
      rw [hmore c hc i hle hlt]
      change m₁ (.z i) + scan (fun c => m₁ (.offset c)) c = _
      rw [hz, scan_eq_sum, Finset.sum_congr rfl fun c' hc' => (h1 c' (by have := Finset.mem_range.1 hc'; omega)).1,
        sum_chunks _ _ (by omega), add_comm, Finset.range_eq_Ico, Finset.range_eq_Ico,
        Finset.sum_Ico_consecutive _ (zero_le _) (by omega)]

theorem exists_vecPrefixSum (n workers : Nat) (v : Nat → K) : ∃ v', VecPrefixSum n workers v v' := by
  unfold VecPrefixSum
  dsimp only
  generalize max prefixScanMinChunk ((n + workers - 1) / max 1 workers) = size
  obtain ⟨m₁, h1⟩ := exists_executes ((n + size - 1) / size) workers (scanWork n size)
    (fun | .z i => v i | _ => (0 : K))
  by_cases hfew : (n + size - 1) / size < 2
  · exact ⟨_, m₁, h1, by rw [if_pos hfew]⟩
  · obtain ⟨m₂, h2⟩ := exists_executes ((n + size - 1) / size - 1) workers (shiftWork n size) (combineOffsets m₁)
    exact ⟨_, m₁, h1, by rw [if_neg hfew]; exact ⟨m₂, h2, rfl⟩⟩

end

end Lineth.Koalabear
