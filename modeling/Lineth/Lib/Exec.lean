import Mathlib.Data.List.Basic

/-!
# Stateful code with exceptions

Methods of objects are `EStateM` programs over the state of the objects they reach: an exception keeps what was
written before it, as on the JVM. `wp x Q E s`: started in `s`, the program returns in a state with `Q` or throws in a
state with `E`. -/

namespace Exec

variable {ε σ ρ α β : Type}

def wp (x : EStateM ε σ α) (Q : α → σ → Prop) (E : ε → σ → Prop) (s : σ) : Prop :=
  match x s with
  | .ok a s' => Q a s'
  | .error e s' => E e s'

variable {x : EStateM ε σ α} {Q Q' : α → σ → Prop} {E E' : ε → σ → Prop} {s s' : σ}

theorem wp_mono (h : wp x Q E s) (hQ : ∀ a s', Q a s' → Q' a s')
    (hE : ∀ e s', E e s' → E' e s' := by exact fun _ _ h => h) :
    wp x Q' E' s := by
  unfold wp at h ⊢
  split at h
  · exact hQ _ _ h
  · exact hE _ _ h

theorem wp.ok {a : α} (h : wp x Q E s) (hx : x s = .ok a s') : Q a s' := by
  unfold wp at h
  rwa [hx] at h

theorem wp.error {e : ε} (h : wp x Q E s) (hx : x s = .error e s') : E e s' := by
  unfold wp at h
  rwa [hx] at h

theorem wp_intro (hQ : ∀ a s', x s = .ok a s' → Q a s') (hE : ∀ e s', x s = .error e s' → E e s') :
    wp x Q E s := by
  unfold wp
  split
  · exact hQ _ _ ‹_›
  · exact hE _ _ ‹_›

theorem wp_and (h : wp x Q E s) (h' : wp x Q' E' s) :
    wp x (fun a s' => Q a s' ∧ Q' a s') (fun e s' => E e s' ∧ E' e s') s :=
  wp_intro (fun _ _ hx => ⟨h.ok hx, h'.ok hx⟩) (fun _ _ hx => ⟨h.error hx, h'.error hx⟩)

/-! ### Basic programs -/

@[simp]
theorem wp_pure (a : α) : wp (pure a) Q E s ↔ Q a s := Iff.rfl

@[simp]
theorem wp_throw (e : ε) : wp (throw e) Q E s ↔ E e s := Iff.rfl

@[simp]
theorem wp_get {Q : σ → σ → Prop} : wp get Q E s ↔ Q s s := Iff.rfl

theorem get_bind_run (f : σ → EStateM ε σ α) (s : σ) : (get >>= f) s = f s s := rfl

@[simp]
theorem wp_set {Q : PUnit → σ → Prop} : wp (set s') Q E s ↔ Q ⟨⟩ s' := Iff.rfl

@[simp]
theorem wp_modify {Q : PUnit → σ → Prop} (f : σ → σ) : wp (modify f) Q E s ↔ Q ⟨⟩ (f s) := Iff.rfl

@[simp]
theorem wp_bind {Q : β → σ → Prop} (f : α → EStateM ε σ β) :
    wp (x >>= f) Q E s ↔ wp x (fun a => wp (f a) Q E) E s := by
  show (match EStateM.bind x f s with | .ok a s' => Q a s' | .error e s' => E e s') ↔ _
  unfold EStateM.bind wp
  cases x s <;> rfl

theorem wp_ite {c : Prop} [Decidable c] {y : EStateM ε σ α} (hx : c → wp x Q E s) (hy : ¬c → wp y Q E s) :
    wp (if c then x else y) Q E s := by
  split
  · exact hx ‹_›
  · exact hy ‹_›

/-! ### Loops -/

variable {l : List β}

theorem wp_forM_done {f : β → EStateM ε σ PUnit} {I : List β → σ → Prop}
    (hf : ∀ done b rest, l = done ++ b :: rest → ∀ s, I done s → wp (f b) (fun _ => I (done ++ [b])) E s)
    (hs : I [] s) : wp (l.forM f) (fun _ => I l) E s := by
  suffices h : ∀ done rest, l = done ++ rest → ∀ s, I done s → wp (rest.forM f) (fun _ => I l) E s from
    h [] l rfl s hs
  intro done rest
  induction rest generalizing done with
  | nil =>
    intro hl s hs
    rw [hl, List.append_nil]
    exact hs
  | cons b rest ih =>
    intro hl s hs
    show wp (f b >>= fun _ => rest.forM f) _ _ s
    rw [wp_bind]
    refine wp_mono (hf done b rest hl s hs) (fun _ s' hs' => ?_)
    exact ih (done ++ [b]) (by simp [hl]) s' hs'

variable {I : σ → Prop}

theorem wp_forM {f : β → EStateM ε σ PUnit}
    (hf : ∀ b ∈ l, ∀ s, I s → wp (f b) (fun _ => I) E s) (hs : I s) : wp (l.forM f) (fun _ => I) E s :=
  wp_forM_done (fun _ b _ hl => hf b (by simp [hl])) hs

/-- The results of `f` over a list, in order, those that are there. -/
def mapNotNull (f : β → EStateM ε σ (Option α)) : List β → EStateM ε σ (List α)
  | [] => pure []
  | b :: bs => do
    let r ← f b
    let rs ← mapNotNull f bs
    pure (r.toList ++ rs)

theorem mapNotNull_map {γ : Type} (f : β → EStateM ε σ (Option α)) (g : γ → β) (l : List γ) :
    mapNotNull f (l.map g) = mapNotNull (fun c => f (g c)) l := by
  induction l with
  | nil => rfl
  | cons c l ih => simp only [List.map_cons, mapNotNull, ih]

/-- Each element has a result with `P`, provided that `P` of an element survives the elements after it; the first result
that is there comes after elements without one. -/
theorem wp_mapNotNull_post {f : β → EStateM ε σ (Option α)} {P : β → Option α → σ → Prop}
    (hf : ∀ b ∈ l, ∀ s, I s →
      wp (f b) (fun r s' => I s' ∧ P b r s' ∧ ∀ b' r', P b' r' s → P b' r' s') E s) (hs : I s) :
    wp (mapNotNull f l) (fun rs s' => I s' ∧ (∀ b ∈ l, ∃ r, P b r s' ∧ (rs = [] → r = none)) ∧
      (∀ a as, rs = a :: as → ∃ pre b post, l = pre ++ b :: post ∧ (∀ b' ∈ pre, P b' none s') ∧ P b (some a) s') ∧
      ∀ b' r', P b' r' s → P b' r' s') E s := by
  induction l generalizing s with
  | nil => exact ⟨hs, by simp, by simp, fun _ _ h => h⟩
  | cons b l ih =>
    unfold mapNotNull
    rw [wp_bind]
    refine wp_mono (hf b (by simp) s hs) ?_
    rintro r s₁ ⟨hI₁, hP₁, hkeep₁⟩
    rw [wp_bind]
    refine wp_mono (ih (fun b hb => hf b (by simp [hb])) hI₁) ?_
    rintro rs s₂ ⟨hI₂, hP₂, hhead₂, hkeep₂⟩
    rw [wp_pure]
    refine ⟨hI₂, fun b' hb' => ?_, fun a as ha => ?_, fun b' r' h => hkeep₂ b' r' (hkeep₁ b' r' h)⟩
    · rcases List.mem_cons.mp hb' with rfl | hb'
      · exact ⟨r, hkeep₂ _ _ hP₁, by cases r <;> simp⟩
      · obtain ⟨r', hr', hnil⟩ := hP₂ b' hb'
        exact ⟨r', hr', fun h => hnil (List.append_eq_nil_iff.mp h).2⟩
    · cases r with
      | some a' =>
        obtain ⟨rfl, -⟩ := List.cons.inj ha
        exact ⟨[], b, l, rfl, by simp, hkeep₂ _ _ hP₁⟩
      | none =>
        obtain ⟨pre, b', post, rfl, hpre, hb'⟩ := hhead₂ a as ha
        exact ⟨b :: pre, b', post, rfl, List.forall_mem_cons.mpr ⟨hkeep₂ _ _ hP₁, hpre⟩, hb'⟩

theorem wp_mapNotNull {f : β → EStateM ε σ (Option α)}
    (hf : ∀ b ∈ l, ∀ s, I s → wp (f b) (fun _ => I) E s) (hs : I s) :
    wp (mapNotNull f l) (fun _ => I) E s := by
  have hpost := wp_mapNotNull_post (P := fun _ _ _ => True) (E := E)
    (fun b hb s hs => wp_mono (hf b hb s hs) (fun _ _ h => ⟨h, trivial, fun _ _ h => h⟩)) hs
  exact wp_mono hpost (fun _ _ h => h.1)

/-! ### Programs on a part of the state -/

def zoom (view : σ → ρ) (put : ρ → σ → σ) (x : EStateM ε ρ α) : EStateM ε σ α := fun s =>
  match x (view s) with
  | .ok a r => .ok a (put r s)
  | .error e r => .error e (put r s)

@[simp]
theorem wp_zoom {view : σ → ρ} {put : ρ → σ → σ} {x : EStateM ε ρ α} :
    wp (zoom view put x) Q E s ↔ wp x (fun a r => Q a (put r s)) (fun e r => E e (put r s)) (view s) := by
  unfold wp zoom
  cases x (view s) <;> rfl

end Exec
