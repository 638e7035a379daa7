import Mathlib.Data.List.Forall2

/-!
# Computations that may fail

The equations of `Except` as a monad, in the form proofs about `do` blocks use them: a bind after a success or a
failure, and the inversion of a successful bind. -/

namespace Except

open List

universe u v

variable {ε : Type u} {α β : Type v}

@[simp] theorem ok_bind (a : α) (f : α → Except ε β) : (Except.ok a >>= f) = f a := rfl

@[simp] theorem error_bind (e : ε) (f : α → Except ε β) : (Except.error e >>= f) = Except.error e := rfl

@[simp] theorem pure_eq_ok (a : α) : (pure a : Except ε α) = Except.ok a := rfl

@[simp] theorem throw_eq_error (e : ε) : (throw e : Except ε α) = Except.error e := rfl

variable {x : Except ε α} {b : β}

theorem bind_eq_ok {f : α → Except ε β} :
    (x >>= f) = Except.ok b ↔ ∃ a, x = Except.ok a ∧ f a = Except.ok b := by
  cases x <;> simp

variable {e : ε}

@[simp] theorem ite_error_eq_ok {p : Prop} [Decidable p] {a : α} :
    (if p then Except.error e else x) = Except.ok a ↔ ¬ p ∧ x = Except.ok a := by
  by_cases hp : p <;> simp [hp]

@[simp] theorem ite_else_error_eq_ok {p : Prop} [Decidable p] {a : α} :
    (if p then x else Except.error e) = Except.ok a ↔ p ∧ x = Except.ok a := by
  by_cases hp : p <;> simp [hp]

theorem mapM_eq_ok_iff {γ : Type v} {l : List γ} {f : γ → Except ε β} {bs : List β} :
    l.mapM f = .ok bs ↔ List.Forall₂ (fun a b => f a = .ok b) l bs := by
  induction l generalizing bs with
  | nil =>
    rw [mapM_nil, forall₂_nil_left_iff]
    exact ⟨fun h => (Except.ok.inj h).symm, fun h => h ▸ rfl⟩
  | cons a l ih =>
    simp only [mapM_cons, bind_eq_ok, ih, forall₂_cons_left_iff]
    constructor
    · rintro ⟨b, hb, bs', hbs, h⟩
      exact ⟨b, bs', hb, hbs, (Except.ok.inj h).symm⟩
    · rintro ⟨b, bs', hb, hbs, rfl⟩
      exact ⟨b, hb, bs', hbs, rfl⟩

theorem exists_of_mem_mapM {γ : Type v} {l : List γ} {f : γ → Except ε β} {bs : List β}
    (h : l.mapM f = .ok bs) (hb : b ∈ bs) :
    ∃ a ∈ l, f a = .ok b := by
  have hall := mapM_eq_ok_iff.1 h
  clear h
  induction hall with
  | nil => exact absurd hb not_mem_nil
  | cons ha _ ih =>
    rcases mem_cons.1 hb with rfl | hb
    · exact ⟨_, List.mem_cons_self, ha⟩
    · obtain ⟨a, hmem, hab⟩ := ih hb
      exact ⟨a, List.mem_cons_of_mem _ hmem, hab⟩

variable {γ : Type*}

/-- A loop that never fails, with an invariant on the elements already visited: each step succeeds and
extends the invariant by its element. -/
theorem foldlM_prefix {l : List γ} {f : β → γ → Except ε β} (I : List γ → β → Prop) (h0 : I [] b)
    (hstep : ∀ p x q, l = p ++ x :: q → ∀ s, I p s → ∃ s', f s x = .ok s' ∧ I (p ++ [x]) s') :
    ∃ s', l.foldlM f b = .ok s' ∧ I l s' := by
  suffices H : ∀ (r p : List γ) (s : β), p ++ r = l → I p s → ∃ s', r.foldlM f s = .ok s' ∧ I l s' from H l [] b rfl h0
  intro r
  induction r with
  | nil =>
    rintro p s rfl hs
    exact ⟨s, rfl, by rw [append_nil]; exact hs⟩
  | cons x r ih =>
    rintro p s rfl hs
    obtain ⟨s', hx, hs'⟩ := hstep p x r rfl s hs
    obtain ⟨s'', hr, hs''⟩ := ih (p ++ [x]) s' (by simp) hs'
    exact ⟨s'', by rw [foldlM_cons, hx, ok_bind, hr], hs''⟩

theorem foldlM_visited {l : List γ} {f : β → γ → Except ε β} (I : List γ → β → Prop) {b s : β} (h0 : I [] b)
    (hstep : ∀ p x s s', I p s → f s x = .ok s' → I (p ++ [x]) s') (h : l.foldlM f b = .ok s) : I l s := by
  suffices H : ∀ (r p : List γ) (b : β), I p b → r.foldlM f b = .ok s → I (p ++ r) s from H l [] b h0 h
  intro r
  induction r with
  | nil =>
    rintro p b hb h
    cases h
    rw [append_nil]
    exact hb
  | cons x r ih =>
    intro p b hb h
    rw [foldlM_cons, bind_eq_ok] at h
    obtain ⟨b', hx, hr⟩ := h
    rw [append_cons]
    exact ih (p ++ [x]) b' (hstep p x b b' hb hx) hr

theorem forM_eq_ok {l : List γ} {f : γ → Except ε PUnit.{v+1}} :
    l.forM f = .ok .unit ↔ ∀ x ∈ l, f x = .ok .unit := by
  induction l with
  | nil => exact ⟨fun _ x hx => absurd hx not_mem_nil, fun _ => rfl⟩
  | cons x l ih =>
    rw [List.forM, bind_eq_ok, List.forall_mem_cons, ← ih]
    exact ⟨fun ⟨_, hx, hl⟩ => ⟨hx, hl⟩, fun ⟨hx, hl⟩ => ⟨_, hx, hl⟩⟩

theorem foldlM_range' {f : β → Nat → Except ε β} (I : Nat → β → Prop) {a n : Nat} (h0 : I a b)
    (hstep : ∀ i, a ≤ i → i < a + n → ∀ s, I i s → ∃ s', f s i = .ok s' ∧ I (i + 1) s') :
    ∃ s', (range' a n).foldlM f b = .ok s' ∧ I (a + n) s' := by
  induction n generalizing a b with
  | zero => exact ⟨b, rfl, h0⟩
  | succ n ih =>
    obtain ⟨s, ha, hs⟩ := hstep a (Nat.le_refl a) (by omega) b h0
    obtain ⟨s', hr, hs'⟩ := ih hs fun i hi hlt => hstep i (by omega) (by omega)
    refine ⟨s', by rw [range'_succ, foldlM_cons, ha, ok_bind, hr], ?_⟩
    rw [show a + (n + 1) = a + 1 + n by omega]
    exact hs'

def failIf (c : Prop) [Decidable c] (e : ε) : Except ε Unit := if c then .error e else .ok ()

@[simp] theorem failIf_eq_ok {c : Prop} [Decidable c] {u : Unit} : failIf c e = .ok u ↔ ¬ c := by
  by_cases hc : c <;> simp [failIf, hc]

theorem failIf_of_not {c : Prop} [Decidable c] (hc : ¬ c) : failIf c e = .ok () := if_neg hc

theorem failIf_of {c : Prop} [Decidable c] (hc : c) : failIf c e = .error e := if_pos hc

def orThrow (x : Option α) (e : ε) : Except ε α :=
  match x with
  | some a => .ok a
  | none => .error e

@[simp] theorem orThrow_some (a : α) (e : ε) : orThrow (some a) e = .ok a := rfl

@[simp] theorem orThrow_none (e : ε) : orThrow (none : Option α) e = .error e := rfl

@[simp] theorem orThrow_eq_ok {x : Option α} {a : α} : orThrow x e = .ok a ↔ x = some a := by
  cases x <;> simp [orThrow]

theorem foldlM_flatMap {γ δ : Type*} (f : δ → List γ) (g : α → γ → Except ε α) (l : List δ) (a : α) :
    (l.flatMap f).foldlM g a = l.foldlM (fun a x => (f x).foldlM g a) a := by
  induction l generalizing a with
  | nil => rfl
  | cons x l ih =>
    rw [flatMap_cons, foldlM_append, foldlM_cons]
    exact congrArg _ (funext ih)

/-! ### The errors a computation may end in -/

section ErrorsIn

variable {P : ε → Prop}

/-- If the computation fails, then with an error in `P`. -/
def ErrorsIn (P : ε → Prop) (x : Except ε α) : Prop := ∀ e, x = .error e → P e

theorem errorsIn_ok (P : ε → Prop) (a : α) : ErrorsIn P (.ok a) := by
  intro e h
  cases h

theorem ErrorsIn.exists_ok {x : Except ε α} (h : ErrorsIn (fun _ => False) x) : ∃ a, x = .ok a := by
  cases x with
  | ok a => exact ⟨a, rfl⟩
  | error e => exact (h e rfl).elim

theorem errorsIn_error {e : ε} : ErrorsIn P (.error e : Except ε α) ↔ P e := by
  constructor
  · exact fun h => h e rfl
  · intro h e' he
    cases he
    exact h

theorem errorsIn_bind {x : Except ε α} {f : α → Except ε β} :
    ErrorsIn P (x >>= f) ↔ ErrorsIn P x ∧ ∀ a, x = .ok a → ErrorsIn P (f a) := by
  cases x with
  | ok a =>
    refine ⟨fun h => ⟨errorsIn_ok P a, fun b hb => ?_⟩, fun h => h.2 a rfl⟩
    cases hb
    exact h
  | error e => simp [errorsIn_error]

theorem ErrorsIn.bind {x : Except ε α} {f : α → Except ε β} (hx : ErrorsIn P x)
    (hf : ∀ a, x = .ok a → ErrorsIn P (f a)) :
    ErrorsIn P (x >>= f) := errorsIn_bind.2 ⟨hx, hf⟩

theorem ErrorsIn.ite {c : Prop} [Decidable c] {x y : Except ε α} (hx : c → ErrorsIn P x) (hy : ¬ c → ErrorsIn P y) :
    ErrorsIn P (if c then x else y) := by
  by_cases hc : c
  · rw [if_pos hc]
    exact hx hc
  · rw [if_neg hc]
    exact hy hc

theorem errorsIn_ite_error {c : Prop} [Decidable c] {e : ε} {x : Except ε α} :
    ErrorsIn P (if c then .error e else x) ↔ (c → P e) ∧ (¬ c → ErrorsIn P x) := by
  by_cases hc : c <;> simp [hc, errorsIn_error]

theorem errorsIn_failIf {c : Prop} [Decidable c] {e : ε} : ErrorsIn P (failIf c e) ↔ (c → P e) :=
  errorsIn_ite_error.trans (and_iff_left fun _ => errorsIn_ok P ())

/-- A loop comes to the element if it succeeds on those before. -/
def Reached {γ : Type*} (f : γ → Except ε PUnit.{v+1}) (l : List γ) (x : γ) : Prop :=
  ∃ p q, l = p ++ x :: q ∧ ∀ y ∈ p, f y = .ok .unit

theorem Reached.mem {γ : Type*} {f : γ → Except ε PUnit.{v+1}} {l : List γ} {x : γ} (h : Reached f l x) : x ∈ l := by
  obtain ⟨p, q, rfl, -⟩ := h
  exact mem_append_right p List.mem_cons_self

theorem reached_cons {γ : Type*} {f : γ → Except ε PUnit.{v+1}} {l : List γ} {x y : γ} :
    Reached f (y :: l) x ↔ x = y ∨ f y = .ok .unit ∧ Reached f l x := by
  constructor
  · rintro ⟨p, q, heq, hp⟩
    cases p with
    | nil => exact .inl (cons.inj heq).1.symm
    | cons z p =>
      obtain ⟨rfl, rfl⟩ := cons.inj heq
      exact .inr ⟨hp y List.mem_cons_self, p, q, rfl, fun z hz => hp z (List.mem_cons_of_mem y hz)⟩
  · rintro (rfl | ⟨hy, p, q, rfl, hp⟩)
    · exact ⟨[], l, rfl, fun z hz => absurd hz not_mem_nil⟩
    · exact ⟨y :: p, q, rfl, List.forall_mem_cons.2 ⟨hy, hp⟩⟩

theorem errorsIn_forM {γ : Type*} {l : List γ} {f : γ → Except ε PUnit.{v+1}} :
    ErrorsIn P (l.forM f) ↔ ∀ x, Reached f l x → ErrorsIn P (f x) := by
  induction l with
  | nil =>
    refine iff_of_true (errorsIn_ok P _) ?_
    rintro x ⟨p, q, heq, -⟩
    exact absurd heq.symm (append_ne_nil_of_right_ne_nil p (cons_ne_nil x q))
  | cons y l ih =>
    simp only [List.forM, errorsIn_bind, reached_cons, ih, or_imp, forall_and, forall_eq, and_imp]
    exact and_congr_right fun _ => ⟨fun h x hy hx => h _ hy x hx, fun h _ hy x hx => h x hy hx⟩

theorem ErrorsIn.mapM {γ : Type v} {l : List γ} {f : γ → Except ε β} (h : ∀ x ∈ l, ErrorsIn P (f x)) :
    ErrorsIn P (l.mapM f) := by
  induction l with
  | nil => exact errorsIn_ok P _
  | cons x l ih =>
    rw [mapM_cons]
    exact (h x List.mem_cons_self).bind fun _ _ =>
      (ih fun y hy => h y (List.mem_cons_of_mem x hy)).bind fun _ _ => errorsIn_ok P _

theorem ErrorsIn.foldlM {γ : Type*} {l : List γ} {f : β → γ → Except ε β}
    (h : ∀ x ∈ l, ∀ b, ErrorsIn P (f b x)) (b : β) :
    ErrorsIn P (l.foldlM f b) := by
  induction l generalizing b with
  | nil => exact errorsIn_ok P b
  | cons x l ih =>
    rw [foldlM_cons]
    exact (h x List.mem_cons_self b).bind fun b' _ => ih (fun y hy => h y (List.mem_cons_of_mem x hy)) b'

end ErrorsIn

end Except
