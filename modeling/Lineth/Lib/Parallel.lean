import Mathlib.Data.Set.Basic
import Lineth.Lib.Tiling

/-!
# Tasks that run in parallel

A task is a list of steps on a shared memory. Tasks that run in parallel take their steps in any order that keeps the
order of each task. If every task owns the locations that it writes and reads, apart from some that nobody writes,
each leaves in its locations what it would leave there alone. -/

namespace Parallel

open List

variable {ι V α : Type}

/-! ### Steps -/

abbrev Step (ι V : Type) := (ι → V) → ι → V

def run (steps : List (Step ι V)) (m : ι → V) : ι → V := steps.foldl (fun m f => f m) m

@[simp] theorem run_nil (m : ι → V) : run [] m = m := rfl

@[simp] theorem run_cons (f : Step ι V) (steps : List (Step ι V)) (m : ι → V) :
    run (f :: steps) m = run steps (f m) := rfl

@[simp] theorem run_append (steps steps' : List (Step ι V)) (m : ι → V) :
    run (steps ++ steps') m = run steps' (run steps m) :=
  foldl_append

/-- The step writes in `own` only, and reads there and in `shared`. -/
structure Local (own shared : Set ι) (f : Step ι V) : Prop where
  frame : ∀ m, ∀ x ∉ own, f m x = m x
  reads : ∀ m m', (∀ x, x ∈ own ∨ x ∈ shared → m x = m' x) → ∀ x ∈ own, f m x = f m' x

section

variable {own shared : Set ι} {steps : List (Step ι V)} (hlocal : ∀ f ∈ steps, Local own shared f)

include hlocal

theorem run_reads {m m' : ι → V} (h : ∀ x, x ∈ own ∨ x ∈ shared → m x = m' x) :
    ∀ x ∈ own, run steps m x = run steps m' x := by
  induction steps generalizing m m' with
  | nil => exact fun x hx => h x (.inl hx)
  | cons f steps ih =>
    obtain ⟨hf, hrest⟩ := forall_mem_cons.1 hlocal
    intro y hy
    rw [run_cons, run_cons]
    refine ih hrest (fun x hx => ?_) y hy
    by_cases hown : x ∈ own
    · exact hf.reads m m' h x hown
    · rw [hf.frame m x hown, hf.frame m' x hown]
      exact h x hx

end

/-! ### Interleavings -/

/-- The steps of all tasks, in an order that keeps that of each task. -/
inductive Interleaves : List (List α) → List α → Prop
  | done {ts : List (List α)} (h : ∀ t ∈ ts, t = []) : Interleaves ts []
  | step {before after : List (List α)} {a : α} {t l : List α} (h : Interleaves (before ++ t :: after) l) :
      Interleaves (before ++ (a :: t) :: after) (a :: l)

theorem interleaves_nil_cons {ts : List (List α)} {l : List α} (h : Interleaves ts l) : Interleaves ([] :: ts) l := by
  induction h with
  | done h => exact .done (forall_mem_cons.2 ⟨rfl, h⟩)
  | @step before after a t l _ ih =>
    rw [← cons_append]
    exact .step ih

theorem interleaves_flatten (ts : List (List α)) : Interleaves ts ts.flatten := by
  induction ts with
  | nil => exact .done fun t ht => by cases ht
  | cons t ts ih =>
    induction t with
    | nil => exact interleaves_nil_cons ih
    | cons a t iht => exact @Interleaves.step _ [] ts a t _ iht

section

variable {ts : List (List (Step ι V))} {l : List (Step ι V)} {own : Nat → Set ι} {shared : Set ι}

/-- Whatever the order, each task leaves in its own locations what it leaves there alone. -/
theorem Interleaves.run_eq (h : Interleaves ts l) (hlocal : ∀ w t, ts[w]? = some t → ∀ f ∈ t, Local (own w) shared f)
    (hdisjoint : ∀ w w', w < ts.length → w' < ts.length → w ≠ w' → ∀ x ∈ own w, x ∉ own w')
    (hshared : ∀ w < ts.length, ∀ x ∈ shared, x ∉ own w) (m : ι → V) :
    (∀ w t, ts[w]? = some t → ∀ x ∈ own w, run l m x = run t m x) ∧
      ∀ x, (∀ w < ts.length, x ∉ own w) → run l m x = m x := by
  induction h generalizing m with
  | done hnil =>
    refine ⟨fun w t ht x _ => ?_, fun x _ => rfl⟩
    rw [hnil t (mem_of_getElem? ht)]
  | @step before after a t l _ ih =>
    have hlength : (before ++ t :: after).length = (before ++ (a :: t) :: after).length := by
      simp only [length_append, length_cons]
    have hat : (before ++ (a :: t) :: after)[before.length]? = some (a :: t) := by
      rw [getElem?_append_right (Nat.le_refl _), Nat.sub_self]
      rfl
    have hother (w : Nat) (hw : w ≠ before.length) : (before ++ t :: after)[w]? =
      (before ++ (a :: t) :: after)[w]? := by
      by_cases hlt : w < before.length
      · rw [getElem?_append_left hlt, getElem?_append_left hlt]
      · rw [getElem?_append_right (Nat.le_of_not_lt hlt), getElem?_append_right (Nat.le_of_not_lt hlt)]
        obtain ⟨k, hk⟩ : ∃ k, w - before.length = k + 1 := ⟨w - before.length - 1, by omega⟩
        rw [hk, getElem?_cons_succ, getElem?_cons_succ]
    have hself : (before ++ t :: after)[before.length]? = some t := by
      rw [getElem?_append_right (Nat.le_refl _), Nat.sub_self]
      rfl
    have hbefore : before.length < (before ++ (a :: t) :: after).length := by
      simp only [length_append, length_cons]
      omega
    have ha : Local (own before.length) shared a := hlocal _ _ hat a mem_cons_self
    -- the task that takes the step has one step less to go, the others have not seen it
    have hlocal' : ∀ w t', (before ++ t :: after)[w]? = some t' → ∀ f ∈ t', Local (own w) shared f := by
      intro w t' ht' f hf
      by_cases hw : w = before.length
      · subst hw
        rw [hself] at ht'
        cases ht'
        exact hlocal _ _ hat f (mem_cons_of_mem a hf)
      · exact hlocal w t' (hother w hw ▸ ht') f hf
    obtain ⟨hrun, hframe⟩ := ih hlocal' (hlength ▸ hdisjoint) (hlength ▸ hshared) (a m)
    refine ⟨fun w t' ht' x hx => ?_, fun x hx => ?_⟩
    · by_cases hw : w = before.length
      · subst hw
        rw [hat] at ht'
        cases ht'
        exact hrun _ t hself x hx
      · have hlt : w < (before ++ (a :: t) :: after).length := (List.getElem?_eq_some_iff.1 ht').1
        rw [run_cons, hrun w t' (hother w hw ▸ ht') x hx]
        refine run_reads (hlocal w t' ht') (fun y hy => ha.frame m y ?_) x hx
        rcases hy with hy | hy
        · exact hdisjoint w _ hlt hbefore hw y hy
        · exact hshared _ hbefore y hy
    · rw [run_cons, hframe x (hlength ▸ hx), ha.frame m x (hx _ hbefore)]

end

/-! ### A range shared out among workers -/

/-- Some order of the steps of the workers that do `work` on their pieces of the range up to `n`. -/
def Executes (n workers : Nat) (work : Nat → Nat × Nat → List (Step ι V)) (m m' : ι → V) : Prop :=
  ∃ l, Interleaves ((Tiling.shareOut n workers).mapIdx work) l ∧ m' = run l m

theorem exists_executes (n workers : Nat) (work : Nat → Nat × Nat → List (Step ι V)) (m : ι → V) :
    ∃ m', Executes n workers work m m' := ⟨_, _, interleaves_flatten _, rfl⟩

/-- If the workers own what they touch, each member of the range is worked on as its worker alone would. -/
theorem Executes.spec {n workers : Nat} {work : Nat → Nat × Nat → List (Step ι V)} {m m' : ι → V}
    (h : Executes n workers work m m') (own : Nat → Nat × Nat → Set ι) (shared : Set ι)
    (hlocal : ∀ w p, p.1 ≤ p.2 → p.2 ≤ n → ∀ f ∈ work w p, Local (own w p) shared f)
    (hdisjoint : ∀ w p w' p', w ≠ w' → p.2 ≤ p'.1 ∨ p'.2 ≤ p.1 → ∀ x ∈ own w p, x ∉ own w' p')
    (hshared : ∀ w p, ∀ x ∈ shared, x ∉ own w p) :
    (∀ i < n, ∃ w p, p.1 ≤ i ∧ i < p.2 ∧ p.2 ≤ n ∧ ∀ x ∈ own w p, m' x = run (work w p) m x) ∧
      ∀ x, (∀ w p, x ∉ own w p) → m' x = m x := by
  obtain ⟨l, hl, rfl⟩ := h
  have htiles := Tiling.tiles_shareOut n workers
  generalize Tiling.shareOut n workers = ps at hl htiles
  have hget (w : Nat) (t : List (Step ι V)) (ht : (ps.mapIdx work)[w]? = some t) :
      ∃ p, ps[w]? = some p ∧ t = work w p ∧ p.1 ≤ p.2 ∧ p.2 ≤ n := by
    rw [getElem?_mapIdx] at ht
    obtain ⟨p, hp, rfl⟩ := Option.map_eq_some_iff.1 ht
    exact ⟨p, hp, rfl, (htiles.mem_bounds (mem_of_getElem? hp)).2⟩
  have hown (w : Nat) (hw : w < ps.length) : ∃ p, ps[w]? = some p := ⟨_, getElem?_eq_getElem hw⟩
  obtain ⟨hrun, hframe⟩ := @Interleaves.run_eq _ _ _ _ (fun w => own w (ps.getD w (0, 0))) shared hl
    (fun w t ht f hf => by
      obtain ⟨p, hp, rfl, hle, hn⟩ := hget w t ht
      rw [getD_eq_getElem?_getD, hp]
      exact hlocal w p hle hn f hf)
    (fun w w' hw hw' hne x hx => by
      rw [length_mapIdx] at hw hw'
      obtain ⟨p, hp⟩ := hown w hw
      obtain ⟨p', hp'⟩ := hown w' hw'
      rw [getD_eq_getElem?_getD, hp] at hx
      rw [getD_eq_getElem?_getD, hp']
      refine hdisjoint w p w' p' hne ?_ x hx
      have hpair := pairwise_iff_getElem.1 htiles.pairwise
      obtain ⟨hw, rfl⟩ := List.getElem?_eq_some_iff.1 hp
      obtain ⟨hw', rfl⟩ := List.getElem?_eq_some_iff.1 hp'
      rcases Nat.lt_or_gt_of_ne hne with hlt | hlt
      · exact .inl (hpair w w' hw hw' hlt)
      · exact .inr (hpair w' w hw' hw hlt))
    (fun w _ x hx => hshared _ _ x hx) m
  refine ⟨fun i hi => ?_, fun x hx => hframe x fun w _ => hx _ _⟩
  obtain ⟨p, hp, hpi, hip⟩ := htiles.exists_piece (Nat.zero_le i) hi
  obtain ⟨w, hw⟩ := getElem?_of_mem hp
  refine ⟨w, p, hpi, hip, (htiles.mem_bounds hp).2.2, fun x hx => ?_⟩
  refine hrun w (work w p) ?_ x ?_
  · rw [getElem?_mapIdx, hw]
    rfl
  · rwa [getD_eq_getElem?_getD, hw]

end Parallel
