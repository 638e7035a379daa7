import Lineth.Lib.Exec

/-!
# Two runs in step

`lockstep x y Q E s s'`: `x` from `s` and `y` from `s'` both return the same result, in states related by `Q`, or both
throw the same exception, in states related by `E`. -/

namespace Exec

variable {ε σ ρ α β : Type}

def lockstep (x y : EStateM ε σ α) (Q : α → σ → σ → Prop) (E : σ → σ → Prop) (s s' : σ) : Prop :=
  match x s, y s' with
  | .ok a t, .ok a' t' => a' = a ∧ Q a t t'
  | .error e t, .error e' t' => e' = e ∧ E t t'
  | _, _ => False

variable {x y : EStateM ε σ α} {Q Q' : α → σ → σ → Prop} {E E' R : σ → σ → Prop} {s s' : σ}

theorem lockstep_mono (h : lockstep x y Q E s s') (hQ : ∀ a t t', Q a t t' → Q' a t t')
    (hE : ∀ t t', E t t' → E' t t' := by exact fun _ _ h => h) : lockstep x y Q' E' s s' := by
  unfold lockstep at h ⊢
  split at h
  · exact ⟨h.1, hQ _ _ _ h.2⟩
  · exact ⟨h.1, hE _ _ h.2⟩
  · exact h

theorem lockstep.cases (h : lockstep x y Q E s s') :
    (∃ a t t', x s = .ok a t ∧ y s' = .ok a t' ∧ Q a t t') ∨
    ∃ e t t', x s = .error e t ∧ y s' = .error e t' ∧ E t t' := by
  unfold lockstep at h
  split at h
  · next a t a' t' hx hy =>
    obtain ⟨rfl, h⟩ := h
    exact .inl ⟨_, t, t', hx, hy, h⟩
  · next e t e' t' hx hy =>
    obtain ⟨rfl, h⟩ := h
    exact .inr ⟨_, t, t', hx, hy, h⟩
  · exact h.elim

theorem lockstep_self (x : EStateM ε σ α) (s : σ) : lockstep x x (fun _ t t' => t' = t) (fun t t' => t' = t) s s := by
  unfold lockstep
  cases x s <;> exact ⟨rfl, rfl⟩

theorem lockstep_pure {a : α} (h : Q a s s') : lockstep (pure a : EStateM ε σ α) (pure a) Q E s s' :=
  ⟨rfl, h⟩

theorem lockstep_throw {e : ε} (h : E s s') : lockstep (throw e : EStateM ε σ α) (throw e) Q E s s' :=
  ⟨rfl, h⟩

theorem lockstep_modify {Q : PUnit → σ → σ → Prop} {f g : σ → σ} (h : Q ⟨⟩ (f s) (g s')) :
    lockstep (modify f : EStateM ε σ PUnit) (modify g) Q E s s' :=
  ⟨rfl, h⟩

theorem lockstep_get_bind {f g : σ → EStateM ε σ α} (h : lockstep (f s) (g s') Q E s s') :
    lockstep (get >>= f) (get >>= g) Q E s s' :=
  h

theorem lockstep_bind {f g : α → EStateM ε σ β} {Q : β → σ → σ → Prop}
    (h : lockstep x y (fun a => lockstep (f a) (g a) Q E) E s s') : lockstep (x >>= f) (y >>= g) Q E s s' := by
  show lockstep (EStateM.bind x f) (EStateM.bind y g) Q E s s'
  obtain ⟨a, t, t', hx, hy, h⟩ | ⟨e, t, t', hx, hy, h⟩ := h.cases
  · unfold lockstep EStateM.bind
    rw [hx, hy]
    exact h
  · unfold lockstep EStateM.bind
    rw [hx, hy]
    exact ⟨rfl, h⟩

/-- A program that does not look at the state, such as a check of its arguments. -/
def Stateless (x : EStateM ε σ α) : Prop := (∃ a, x = pure a) ∨ ∃ e, x = throw e

theorem Stateless.lockstep_bind {f g : α → EStateM ε σ β} {Q : β → σ → σ → Prop} (hx : Stateless x)
    (hf : ∀ a, x = pure a → lockstep (f a) (g a) Q E s s') (hE : E s s') : lockstep (x >>= f) (x >>= g) Q E s s' := by
  rcases hx with ⟨a, rfl⟩ | ⟨e, rfl⟩
  · exact Exec.lockstep_bind (lockstep_pure (hf a rfl))
  · exact Exec.lockstep_bind (lockstep_throw hE)

theorem lockstep_forM {f : β → EStateM ε σ PUnit} {l : List β}
    (hf : ∀ b t t', R t t' → lockstep (f b) (f b) (fun _ => R) E t t') (hs : R s s') :
    lockstep (l.forM f) (l.forM f) (fun _ => R) E s s' := by
  induction l generalizing s s' with
  | nil => exact lockstep_pure hs
  | cons b l ih => exact lockstep_bind (lockstep_mono (hf b s s' hs) (fun _ _ _ h => ih h))

theorem lockstep_mapNotNull {f : β → EStateM ε σ (Option α)} {l : List β}
    (hf : ∀ b t t', R t t' → lockstep (f b) (f b) (fun _ => R) E t t') (hs : R s s') :
    lockstep (mapNotNull f l) (mapNotNull f l) (fun _ => R) E s s' := by
  induction l generalizing s s' with
  | nil => exact lockstep_pure hs
  | cons b l ih =>
    refine lockstep_bind (lockstep_mono (hf b s s' hs) (fun _ _ _ h => ?_))
    exact lockstep_bind (lockstep_mono (ih h) (fun _ _ _ h => lockstep_pure h))

theorem lockstep_zoom {view : σ → ρ} {put : ρ → σ → σ} {x y : EStateM ε ρ α}
    (h : lockstep x y (fun a r r' => Q a (put r s) (put r' s')) (fun r r' =>
      E (put r s) (put r' s')) (view s) (view s')) :
    lockstep (zoom view put x) (zoom view put y) Q E s s' := by
  obtain ⟨a, r, r', hx, hy, h⟩ | ⟨e, r, r', hx, hy, h⟩ := h.cases
  · unfold lockstep zoom
    rw [hx, hy]
    exact ⟨rfl, h⟩
  · unfold lockstep zoom
    rw [hx, hy]
    exact ⟨rfl, h⟩

end Exec
