import Mathlib.Data.List.Basic

/-!
# Contract code that calls other contracts

The code of a contract function is a `Prog`: it returns a new state and logs, it reverts, or it hands control to
another contract and is resumed with whether that call succeeded. While another contract has control it may call back,
so a run is a tree: each call comes with what happens at each of its hand-overs (`Replies`). A call that reverts
leaves no trace.

Two rules prove facts about every run. `Calls.exec_rel` takes a relation between the state before, the trace and the
state after, with one obligation per function. `Calls.exec_steps` shows that a run is a sequence of the steps that the
segments between two hand-overs are. -/

namespace Contract

open List

universe u

variable {S A L E : Type u}

/-- Code of a contract function over the contract's state `S`. -/
inductive Prog (S L E : Type u) where
  | ret (s : S) (logs : List L)
  | revert (e : E)
  | call (s : S) (logs : List L) (resume : Bool → S → Prog S L E)

/-- Run code that cannot call out, then go on. -/
def Prog.attempt {α : Type*} (x : Except E α) (k : α → Prog S L E) : Prog S L E :=
  match x with
  | .ok a => k a
  | .error e => .revert e

def Prog.atomic (x : Except E (S × List L)) : Prog S L E :=
  Prog.attempt x fun r => .ret r.1 r.2

mutual

/-- A call of a function, or code of another contract that makes calls and may itself revert. -/
inductive Call (A : Type u) where
  | mk (a : A) (replies : Replies A)
  | sub (calls : Calls A) (commits : Bool)

inductive Calls (A : Type u) where
  | nil
  | cons (c : Call A) (cs : Calls A)

/-- For each hand-over, the calls made meanwhile and whether the other contract succeeded. -/
inductive Replies (A : Type u) where
  | nil
  | cons (calls : Calls A) (success : Bool) (rs : Replies A)

end

/-- What a run leaves behind: emitted logs, and the calls that returned. -/
inductive Entry (A L : Type u) where
  | event (l : L)
  | returned (a : A)
  deriving DecidableEq

mutual

def Call.exec (code : A → S → Prog S L E) : Call A → S → S × List (Entry A L)
  | .mk a rs, s =>
    match rs.exec code (code a s) with
    | some (s', t) => (s', t ++ [.returned a])
    | none => (s, [])
  | .sub cs commits, s => if commits then cs.exec code s else (s, [])

def Calls.exec (code : A → S → Prog S L E) : Calls A → S → S × List (Entry A L)
  | .nil, s => (s, [])
  | .cons c cs, s => ((cs.exec code (c.exec code s).1).1, (c.exec code s).2 ++ (cs.exec code (c.exec code s).1).2)

def Replies.exec (code : A → S → Prog S L E) : Replies A → Prog S L E → Option (S × List (Entry A L))
  | _, .ret s l => some (s, l.map .event)
  | _, .revert _ => none
  | .nil, .call _ _ _ => none
  | .cons cs success rs, .call s l k =>
    -- a failed call is undone, so the code resumes in the state it left
    let r := if success then cs.exec code s else (s, [])
    (rs.exec code (k success r.1)).map fun q => (q.1, l.map .event ++ r.2 ++ q.2)

end

/-! ### The relational rule -/

/-- `R` holds of every return of the code of `a` called in `s₀`, if at each hand-over the other
contracts change the state as `R` allows; `t` is the trace so far. -/
def Prog.Sat (R : S → List (Entry A L) → S → Prop) (a : A) (s₀ : S) : List (Entry A L) → Prog S L E → Prop
  | t, .ret s l => R s₀ (t ++ l.map .event ++ [.returned a]) s
  | _, .revert _ => True
  | t, .call s l k =>
    (∀ u s', R s u s' → (k true s').Sat R a s₀ (t ++ l.map .event ++ u)) ∧
      (k false s).Sat R a s₀ (t ++ l.map .event)

/-- Relations that hold of doing nothing and of one run after another. -/
structure Compositional (R : S → List (Entry A L) → S → Prop) : Prop where
  refl : ∀ s, R s [] s
  trans : ∀ {s t s' u s''}, R s t s' → R s' u s'' → R s (t ++ u) s''

variable {code : A → S → Prog S L E} {R : S → List (Entry A L) → S → Prop}

mutual

theorem Call.exec_rel (hR : Compositional R) (hcode : ∀ a s, (code a s).Sat R a s []) :
    ∀ (c : Call A) (s : S), R s (c.exec code s).2 (c.exec code s).1
  | .mk a rs, s => by
    rw [Call.exec]
    split
    · exact rs.exec_rel hR hcode (hcode a s) ‹_›
    · exact hR.refl s
  | .sub cs commits, s => by
    rw [Call.exec]
    split
    · exact cs.exec_rel hR hcode s
    · exact hR.refl s

theorem Calls.exec_rel (hR : Compositional R) (hcode : ∀ a s, (code a s).Sat R a s []) :
    ∀ (cs : Calls A) (s : S), R s (cs.exec code s).2 (cs.exec code s).1
  | .nil, s => hR.refl s
  | .cons c cs, s => hR.trans (c.exec_rel hR hcode s) (cs.exec_rel hR hcode _)

theorem Replies.exec_rel (hR : Compositional R) (hcode : ∀ a s, (code a s).Sat R a s []) :
    ∀ (rs : Replies A) {p : Prog S L E} {a : A} {s₀ : S} {t : List (Entry A L)}, p.Sat R a s₀ t →
      ∀ {s' : S} {u : List (Entry A L)}, rs.exec code p = some (s', u) → R s₀ (t ++ (u ++ [.returned a])) s'
  | .nil, .ret s l, _, _, _, hp, _, _, h => by
    simp only [Replies.exec, Option.some.injEq, Prod.mk.injEq] at h
    obtain ⟨rfl, rfl⟩ := h
    rw [← append_assoc]; exact hp
  | .cons _ _ _, .ret s l, _, _, _, hp, _, _, h => by
    simp only [Replies.exec, Option.some.injEq, Prod.mk.injEq] at h
    obtain ⟨rfl, rfl⟩ := h
    rw [← append_assoc]; exact hp
  | .nil, .revert _, _, _, _, _, _, _, h => by simp [Replies.exec] at h
  | .cons _ _ _, .revert _, _, _, _, _, _, _, h => by simp [Replies.exec] at h
  | .nil, .call _ _ _, _, _, _, _, _, _, h => by simp [Replies.exec] at h
  | .cons cs success rs, .call s l k, a, s₀, t, hp, _, _, h => by
    simp only [Replies.exec, Option.map_eq_some_iff, Prod.exists, Prod.mk.injEq] at h
    obtain ⟨s', u, hrs, rfl, rfl⟩ := h
    cases success with
    | true =>
      have := rs.exec_rel hR hcode (hp.1 _ _ (cs.exec_rel hR hcode s)) hrs
      simpa [append_assoc] using this
    | false =>
      have := rs.exec_rel hR hcode hp.2 hrs
      simpa [append_assoc] using this

end

/-! ### The segment rule -/

def events (t : List (Entry A L)) : List L :=
  t.filterMap fun e => match e with
    | .event l => some l
    | .returned _ => none

@[simp] theorem events_nil : events ([] : List (Entry A L)) = [] := rfl

@[simp] theorem events_append (t u : List (Entry A L)) : events (t ++ u) = events t ++ events u :=
  filterMap_append

@[simp] theorem events_map (l : List L) : events (l.map (Entry.event (A := A))) = l := by
  simp [events, filterMap_map]

@[simp] theorem events_returned (a : A) : events ([.returned a] : List (Entry A L)) = [] := rfl

/-- Every segment of the code is a `Step`, from whatever state it starts in. -/
def Prog.Segments (Step : S → List L → S → Prop) : S → Prog S L E → Prop
  | s₀, .ret s l => Step s₀ l s
  | _, .revert _ => True
  | s₀, .call s l k => Step s₀ l s ∧ ∀ b s', (k b s').Segments Step s'

theorem Prog.Segments.mono {Step Step' : S → List L → S → Prop} (h : ∀ {s l s'}, Step s l s' → Step' s l s') :
    ∀ {p : Prog S L E} {s : S}, p.Segments Step s → p.Segments Step' s
  | .ret _ _, _, hp => h hp
  | .revert _, _, _ => trivial
  | .call _ _ _, _, hp => ⟨h hp.1, fun b s' => (hp.2 b s').mono h⟩

/-- Sequences of steps with the logs they emit. -/
inductive Steps (Step : S → List L → S → Prop) : S → List L → S → Prop where
  | refl (s : S) : Steps Step s [] s
  | tail {s l s' l' s''} : Steps Step s l s' → Step s' l' s'' → Steps Step s (l ++ l') s''

variable {Step : S → List L → S → Prop}

theorem Steps.single {s s' : S} {l : List L} (h : Step s l s') : Steps Step s l s' := .tail (.refl s) h

theorem Steps.trans {s s' s'' : S} {l l' : List L} (h : Steps Step s l s') (h' : Steps Step s' l' s'') :
    Steps Step s (l ++ l') s'' := by
  induction h' with
  | refl => rwa [append_nil]
  | tail _ hs ih => rw [← append_assoc]; exact ih.tail hs

theorem Steps.invariant {Inv : S → List L → Prop}
    (hstep : ∀ {s t s' l}, Inv s t → Step s l s' → Inv s' (t ++ l)) {s s' : S} {t l : List L} (h : Steps Step s l s')
    (hs : Inv s t) : Inv s' (t ++ l) := by
  induction h with
  | refl => rwa [append_nil]
  | tail _ hs' ih => rw [← append_assoc]; exact hstep ih hs'

theorem Prog.Segments.sat (hR : Compositional R) (hstep : ∀ {s l s'}, Step s l s' → R s (l.map .event) s') {a : A}
    (hret : ∀ s, R s [.returned a] s) : ∀ {p : Prog S L E} {s₀ s : S} {t : List (Entry A L)}, p.Segments Step s →
      R s₀ t s → p.Sat R a s₀ t
  | .ret _ _, _, _, _, hp, hs => hR.trans (hR.trans hs (hstep hp)) (hret _)
  | .revert _, _, _, _, _, _ => trivial
  | .call _ _ _, _, _, _, hp, hs =>
    have hs' := hR.trans hs (hstep hp.1)
    ⟨fun _ s' hu => (hp.2 true s').sat hR hstep hret (hR.trans hs' hu), (hp.2 false _).sat hR hstep hret hs'⟩

theorem steps_compositional :
    Compositional fun (s : S) (t : List (Entry A L)) s' => Steps Step s (events t) s' where
  refl := .refl
  trans h h' := by rw [events_append]; exact h.trans h'

/-- A run is a sequence of the steps that its segments are. -/
theorem Calls.exec_steps (hcode : ∀ a s, (code a s).Segments Step s) (cs : Calls A) (s : S) :
    Steps Step s (events (cs.exec code s).2) (cs.exec code s).1 :=
  cs.exec_rel steps_compositional (fun a s => (hcode a s).sat steps_compositional
    (fun h => by rw [events_map]; exact .single h) (fun s => .refl s) (.refl s)) s

variable {α : Type*}

theorem Prog.attempt_segments {x : Except E α} {k : α → Prog S L E} {s : S}
    (h : ∀ a, x = .ok a → (k a).Segments Step s) : (Prog.attempt x k).Segments Step s := by
  cases x with
  | ok a => exact h a rfl
  | error e => trivial

theorem Prog.atomic_segments {x : Except E (S × List L)} {s : S} (h : ∀ s' l, x = .ok (s', l) → Step s l s') :
    (Prog.atomic x).Segments Step s :=
  Prog.attempt_segments fun r hr => h r.1 r.2 hr

theorem Prog.ite_segments {c : Prop} [Decidable c] {p q : Prog S L E} {s : S} (hp : c → p.Segments Step s)
    (hq : ¬ c → q.Segments Step s) : (if c then p else q).Segments Step s := by
  split
  · exact hp ‹_›
  · exact hq ‹_›

theorem Prog.attempt_sat {a : A} {x : Except E α} {k : α → Prog S L E} {s₀ : S} {t : List (Entry A L)}
    (h : ∀ r, x = .ok r → (k r).Sat R a s₀ t) : (Prog.attempt x k).Sat R a s₀ t := by
  cases x with
  | ok r => exact h r rfl
  | error e => trivial

theorem Replies.exec_attempt {rs : Replies A} {x : Except E α} {k : α → Prog S L E}
    {r : S × List (Entry A L)} (h : rs.exec code (.attempt x k) = some r) :
    ∃ v, x = .ok v ∧ rs.exec code (k v) = some r := by
  cases x with
  | ok v => exact ⟨v, rfl, h⟩
  | error e => cases rs <;> simp [Prog.attempt, Replies.exec] at h

end Contract
