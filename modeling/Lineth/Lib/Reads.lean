import Lineth.Lib.Except

/-!
# What a reader takes from its input

`Reads x ts a`: in front of the tokens `ts` the reader `x` takes these, and returns `a`, whatever follows. Readers
that run one after the other take one string after the other, and what a reader takes is determined by what it returns
it for. -/

universe u

variable {τ ε α β : Type u}

/-- On an input that begins with `ts` the reader takes `ts` and returns `a`. -/
def Reads (x : StateT (List τ) (Except ε) α) (ts : List τ) (a : α) : Prop := ∀ rest, x (ts ++ rest) = .ok (a, rest)

namespace Reads

variable {x : StateT (List τ) (Except ε) α} {f : α → StateT (List τ) (Except ε) β} {ts ts' : List τ} {a a' : α} {b : β}

theorem pure (a : α) : Reads (Pure.pure a : StateT (List τ) (Except ε) α) [] a := fun _ => rfl

section

variable (hx : Reads x ts a)

include hx

theorem bind (hf : Reads (f a) ts' b) : Reads (x >>= f) (ts ++ ts') b := by
  intro rest
  have hstep : (x >>= f) (ts ++ ts' ++ rest) = (x (ts ++ ts' ++ rest)).bind fun p => f p.1 p.2 := rfl
  rw [hstep, List.append_assoc, hx]
  exact hf rest

theorem bind_eq_pure (hf : f a = Pure.pure b) : Reads (x >>= f) ts b := by
  have h := hx.bind (hf ▸ pure b)
  rw [List.append_nil] at h
  exact h

theorem mapError {ε' : Type u} (g : ε → ε') :
    Reads (fun r => (x r).mapError g : StateT (List τ) (Except ε') α) ts a := by
  intro rest
  show (x (ts ++ rest)).mapError g = _
  rw [hx rest]
  rfl

theorem run_nil : x ts = .ok (a, []) := by
  have h := hx []
  rw [List.append_nil] at h
  exact h

theorem append_inj (hx' : Reads x ts' a') {rest rest' : List τ} (h : ts ++ rest = ts' ++ rest') :
    a = a' ∧ rest = rest' := by
  have heq := hx rest
  rw [h, hx' rest'] at heq
  cases heq
  exact ⟨rfl, rfl⟩

theorem unique (hx' : Reads x ts a') : a = a' := (hx.append_inj hx' (@rfl _ (ts ++ []))).1

end

end Reads
