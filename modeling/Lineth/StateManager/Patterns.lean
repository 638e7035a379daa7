import Lineth.StateManager.StorageTie

/-!
# The documented patterns of a segment

`Follows` writes out the regular expressions of the documentation, up to the kinds of the storage traces, and
`Documented` asks for the kinds and the order as well. `inspectPattern` asks for less: an error about a kind is only
recorded over an earlier one, and `checkStorageTraceOrder` does not compare the last two traces of a run; and two
traces that are out of order in their keys make it panic. -/

namespace Lineth.StateManager

open Accumulator Except List
open DecodedTrace (st ws)

variable {H : Type}

/-- A run of storage traces, and the kinds that its pattern allows in it. -/
structure StorageRun (H : Type) where
  allowed : Kind → Bool
  run : List (StorageAccess H)

/-- The patterns, with their runs of storage traces in order. -/
inductive Follows : List (DecodedTrace H) → List (StorageRun H) → Prop
  | missing {t : AccountTrace H} (ht : kind t = .readZero) : Follows [.ws t] []
  | creation {run : List (StorageAccess H)} {t : AccountTrace H} (ht : kind t = .insertion) :
      Follows (run.map .st ++ [.ws t]) [⟨isFresh, run⟩]
  | deletion {run : List (StorageAccess H)} {t : AccountTrace H} (ht : kind t = .deletion) :
      Follows (run.map .st ++ [.ws t]) [⟨isRead, run⟩]
  | update {run : List (StorageAccess H)} {t : AccountTrace H} (ht : kind t = .update) :
      Follows (run.map .st ++ [.ws t]) [⟨fun _ => true, run⟩]
  | readLast {run : List (StorageAccess H)} {t : AccountTrace H} (ht : kind t = .readNonZero) :
      Follows (run.map .st ++ [.ws t]) [⟨isRead, run⟩]
  | readFirst {run : List (StorageAccess H)} {t : AccountTrace H} (ht : kind t = .readNonZero) :
      Follows (.ws t :: run.map .st) [⟨isRead, run⟩]
  | redeployment {run run' : List (StorageAccess H)} {t t' : AccountTrace H} (ht : kind t = .deletion)
      (ht' : kind t' = .insertion) :
      Follows (run.map .st ++ .ws t :: (run'.map .st ++ [.ws t'])) [⟨isRead, run⟩, ⟨isFresh, run'⟩]

section Order

variable [LinearOrder H] (hs : StateHashes H)

/-- The order of the storage traces of a run: reads before writes, and by the keys among each. -/
def Precedes (a b : StorageAccess H) : Prop :=
  rwInt a.trace < rwInt b.trace ∨ rwInt a.trace = rwInt b.trace ∧ hKey hs.storage a.trace < hKey hs.storage b.trace

def Documented (traces : List (DecodedTrace H)) : Prop :=
  ∃ runs, Follows traces runs ∧ ∀ r ∈ runs, (∀ a ∈ r.run, r.allowed (kind a.trace) = true) ∧
    r.run.Pairwise (Precedes hs)

/-- Two neighbours of the same kind, read or write, have increasing keys. -/
def Increasing (a b : StorageAccess H) : Prop :=
  rwInt a.trace = rwInt b.trace → hKey hs.storage a.trace < hKey hs.storage b.trace

def ReadFirst (a b : StorageAccess H) : Prop := rwInt a.trace ≤ rwInt b.trace

/-- The last two traces of a run, which the code does not compare. -/
def LastInOrder (run : List (StorageAccess H)) : Prop := ∀ before a b, run = before ++ [a, b] → Precedes hs a b

variable {hs}

theorem precedes_iff {a b : StorageAccess H} : Precedes hs a b ↔ ReadFirst a b ∧ Increasing hs a b := by
  rw [Precedes, ReadFirst, Increasing]
  constructor
  · rintro (h | ⟨h, hkey⟩)
    · exact ⟨h.le, fun heq => absurd heq h.ne⟩
    · exact ⟨h.le, fun _ => hkey⟩
  · rintro ⟨hle, hkey⟩
    rcases hle.lt_or_eq with h | h
    · exact .inl h
    · exact .inr ⟨h, hkey h⟩

theorem Precedes.trans {a b c : StorageAccess H} (h : Precedes hs a b) (h' : Precedes hs b c) : Precedes hs a c := by
  rcases h with h | ⟨h, hkey⟩
  · rcases h' with h' | ⟨h', -⟩
    · exact .inl (h.trans h')
    · exact .inl (h' ▸ h)
  · rcases h' with h' | ⟨h', hkey'⟩
    · exact .inl (h ▸ h')
    · exact .inr ⟨h.trans h', hkey.trans hkey'⟩

instance : IsTrans (StorageAccess H) (Precedes hs) := ⟨fun _ _ _ => Precedes.trans⟩

omit [LinearOrder H] in
theorem isChain_and {R S : StorageAccess H → StorageAccess H → Prop} {l : List (StorageAccess H)} :
    l.IsChain (fun a b => R a b ∧ S a b) ↔ l.IsChain R ∧ l.IsChain S := by
  induction l using twoStepInduction with
  | nil => simp
  | singleton a => simp
  | cons_cons a b l _ ih =>
    rw [isChain_cons_cons, isChain_cons_cons, isChain_cons_cons, ih b]
    tauto

/-- A run is in order if its neighbours are, the last two of them apart. -/
theorem pairwise_precedes_iff {run : List (StorageAccess H)} :
    run.Pairwise (Precedes hs) ↔ (run.dropLast.IsChain ReadFirst ∧ run.dropLast.IsChain (Increasing hs)) ∧
    LastInOrder hs run := by
  have hchain (l : List (StorageAccess H)) : l.IsChain (Precedes hs) ↔ l.IsChain ReadFirst ∧
    l.IsChain (Increasing hs) := by
    rw [← isChain_and]
    exact ⟨fun h => h.imp fun _ _ => precedes_iff.1, fun h => h.imp fun _ _ => precedes_iff.2⟩
  rw [← isChain_iff_pairwise, ← hchain]
  rcases eq_nil_or_concat' run with rfl | ⟨l, b, rfl⟩
  · exact iff_of_true isChain_nil ⟨isChain_nil, fun before a b h => absurd h (by simp)⟩
  rcases eq_nil_or_concat' l with rfl | ⟨l, a, rfl⟩
  · refine iff_of_true (isChain_singleton b) ⟨isChain_nil, fun before a c h => absurd (congrArg length h) ?_⟩
    simp
  · rw [append_assoc, singleton_append, isChain_split, isChain_pair]
    have hdrop : (l ++ [a, b]).dropLast = l ++ [a] := by simp
    rw [hdrop]
    refine and_congr_right fun _ => ⟨fun h before a' b' heq => ?_, fun h => h l a b rfl⟩
    obtain ⟨-, heq⟩ := append_inj' heq rfl
    cases heq
    exact h

theorem checkStorageTraceOrder_run (hs : StateHashes H) (run : List (StorageAccess H)) (i : Nat) :
    (¬ run.dropLast.IsChain (Increasing hs) ∧ checkStorageTraceOrder hs i (run.map .st) = .error .boom) ∨
    (run.dropLast.IsChain (Increasing hs) ∧ ∃ errs, checkStorageTraceOrder hs i (run.map .st) = .ok errs ∧
      (errs = [] ↔ run.dropLast.IsChain ReadFirst)) := by
  induction run generalizing i with
  | nil => exact .inr ⟨isChain_nil, [], rfl, iff_of_true rfl isChain_nil⟩
  | cons a run ih =>
    rcases run with _ | ⟨b, _ | ⟨c, run⟩⟩
    · exact .inr ⟨isChain_nil, [], rfl, iff_of_true rfl isChain_nil⟩
    · exact .inr ⟨isChain_singleton a, [], rfl, iff_of_true rfl (isChain_singleton a)⟩
    · have hdrop : (a :: b :: c :: run).dropLast = a :: b :: (c :: run).dropLast := rfl
      have hdrop' : (b :: c :: run).dropLast = b :: (c :: run).dropLast := rfl
      rw [hdrop, isChain_cons_cons, isChain_cons_cons, ← hdrop']
      have hstep : checkStorageTraceOrder hs i ((a :: b :: c :: run).map .st) = (do
          failIf (rwInt a.trace = rwInt b.trace ∧ hKey hs.storage b.trace ≤ hKey hs.storage a.trace) .boom
          let errs ← checkStorageTraceOrder hs (i + 1) ((b :: c :: run).map .st)
          return if rwInt b.trace < rwInt a.trace then ⟨i⟩ :: errs else errs) := rfl
      by_cases hboom : rwInt a.trace = rwInt b.trace ∧ hKey hs.storage b.trace ≤ hKey hs.storage a.trace
      · refine .inl ⟨fun h => absurd (h.1 hboom.1) hboom.2.not_gt, ?_⟩
        rw [hstep, failIf_of hboom, error_bind]
      · have hinc : Increasing hs a b := fun heq => lt_of_not_ge fun hle => hboom ⟨heq, hle⟩
        rw [hstep, failIf_of_not hboom, ok_bind]
        rcases ih (i + 1) with ⟨hnot, herr⟩ | ⟨hchain, errs, hok, hread⟩
        · refine .inl ⟨fun h => hnot h.2, ?_⟩
          rw [herr, error_bind]
        · refine .inr ⟨⟨hinc, hchain⟩, _, by rw [hok, ok_bind, pure_eq_ok], ?_⟩
          rw [← hread, ReadFirst, ← not_lt]
          by_cases hlt : rwInt b.trace < rwInt a.trace
          · simp [hlt]
          · simp [hlt]

/-- What the comparisons in the runs of a pattern lead to: a panic, an error about the order, or the value `a`. -/
inductive Outcome {α : Type} (hs : StateHashes H) (runs : List (StorageRun H)) (a : α) : Except (Error H) α → Prop
  | boom (h : ∃ r ∈ runs, ¬ r.run.dropLast.IsChain (Increasing hs)) : Outcome hs runs a (.error .boom)
  | order (pattern : Pattern) (errs : List OrderError) (hinc : ∀ r ∈ runs, r.run.dropLast.IsChain (Increasing hs))
      (h : ∃ r ∈ runs, ¬ r.run.dropLast.IsChain ReadFirst) : Outcome hs runs a (.error (.order pattern errs))
  | ok (hinc : ∀ r ∈ runs, r.run.dropLast.IsChain (Increasing hs)) (h : ∀ r ∈ runs, r.run.dropLast.IsChain ReadFirst) :
      Outcome hs runs a (.ok a)

variable {runs : List (StorageRun H)}

theorem Outcome.bind_ok {α β : Type} {a : α} {b : β} {x : Except (Error H) α} {f : α → Except (Error H) β}
    (h : Outcome hs runs a x) (hf : f a = .ok b) : Outcome hs runs b (x >>= f) := by
  cases h with
  | boom h => exact .boom h
  | order pattern errs hinc h => exact .order pattern errs hinc h
  | ok hinc h =>
    rw [ok_bind, hf]
    exact .ok hinc h

theorem checkOrder_run (pattern : Pattern) (allowed : Kind → Bool) (run : List (StorageAccess H)) :
    Outcome hs [⟨allowed, run⟩] () (checkOrder hs pattern (run.map .st)) := by
  rw [checkOrder]
  rcases checkStorageTraceOrder_run hs run 0 with ⟨hinc, h⟩ | ⟨hinc, errs, h, hread⟩
  · rw [h, error_bind]
    exact .boom ⟨_, mem_singleton_self _, hinc⟩
  · rw [h, ok_bind]
    by_cases herrs : errs = []
    · rw [failIf_of_not (not_not_intro herrs)]
      exact .ok (forall_mem_singleton.2 hinc) (forall_mem_singleton.2 (hread.1 herrs))
    · rw [failIf_of herrs]
      exact .order pattern errs (forall_mem_singleton.2 hinc) ⟨_, mem_singleton_self _, mt hread.2 herrs⟩

omit [LinearOrder H] in
/-- The errors about kinds are never recorded. -/
theorem scanStorage_run (allowed : Kind → Bool) (run : List (StorageAccess H)) :
    scanStorage allowed [] (run.map .st) = .inr [] := by
  induction run with
  | nil => rfl
  | cons a run ih =>
    rw [map_cons, scanStorage]
    have hrecord : (if allowed (kind a.trace) = true then [] else record [] (kind a.trace)) = [] := by
      split <;> rfl
    rw [hrecord, ih]

omit [LinearOrder H] in
theorem scanStorage_ws (allowed : Kind → Bool) (run : List (StorageAccess H)) (t : AccountTrace H)
    (rest : List (DecodedTrace H)) :
    ∀ err, scanStorage allowed err (run.map .st ++ .ws t :: rest) = .inl (kind t) := by
  induction run with
  | nil => exact fun _ => rfl
  | cons a run ih =>
    intro err
    rw [map_cons, cons_append, scanStorage]
    exact ih _

theorem checkStoragePart_run (pattern : Pattern) (allowed : Kind → Bool) (run : List (StorageAccess H)) :
    Outcome hs [⟨allowed, run⟩] () (checkStoragePart hs pattern allowed (run.map .st)) := by
  rw [checkStoragePart, scanStorage_run]
  exact checkOrder_run pattern allowed run

/-! ### The recognisers on the patterns -/

variable {run : List (StorageAccess H)} {t : AccountTrace H} {traces : List (DecodedTrace H)}

section Recognise

omit [LinearOrder H]

theorem isMissingAccRead_eq_false (hne : traces ≠ []) (h : ∀ t, .ws t ∈ traces → kind t ≠ .readZero) :
    isMissingAccRead traces = .ok false := by
  have hnone : ∀ x ∈ traces, wsKind (some x) ≠ some .readZero := by
    intro x hx hk
    cases x with
    | st a => cases hk
    | ws t => exact h t hx (Option.some.inj hk)
  have hhead : wsKind traces.head? ≠ some .readZero := by
    rw [head?_eq_some_head hne]
    exact hnone _ (head_mem hne)
  rw [isMissingAccRead, failIf_of_not hne, ok_bind, if_neg fun hc => hhead hc.1, failIf_of_not,
    ok_bind, pure_eq_ok]
  rw [any_eq_true]
  rintro ⟨x, hx, hk⟩
  exact hnone x hx (of_decide_eq_true hk)

theorem wsKind_getLast (l : List (DecodedTrace H)) (t : AccountTrace H) :
    wsKind (l ++ [ws t]).getLast? = some (kind t) := by
  rw [getLast?_concat]
  rfl

theorem wsKind_getLast_run (l : List (DecodedTrace H)) (hrun : run ≠ []) :
    wsKind (l ++ run.map st).getLast? = none := by
  obtain ⟨run, a, rfl⟩ := eq_nil_or_concat' run |>.resolve_left hrun
  rw [map_append, ← append_assoc, map_singleton, getLast?_concat]
  rfl

theorem wsKind_getLast_ne {l : List (DecodedTrace H)} {k k' : Kind} (ht : kind t = k) (hk : k ≠ k') :
    wsKind (l ++ [ws t]).getLast? ≠ some k' := by
  rw [wsKind_getLast, ht]
  exact fun h => hk (Option.some.inj h)

theorem wsKind_head_run {rest : List (DecodedTrace H)} {k k' : Kind} (ht : kind t = k) (hk : k ≠ k') :
    wsKind (run.map st ++ ws t :: rest).head? ≠ some k' := by
  cases run with
  | nil => exact fun h => hk (ht.symm.trans (Option.some.inj h))
  | cons a run => exact fun h => (by cases h)

theorem length_run_ne_one (hrun : run ≠ []) (t : AccountTrace H) :
    (run.map .st ++ [.ws t] : List (DecodedTrace H)).length ≠ 1 := by
  have := length_pos_iff.2 hrun
  rw [length_append, length_map, length_singleton]
  omega

theorem isMissingAccRead_run {k : Kind} (ht : kind t = k) (hk : k ≠ .readZero) :
    isMissingAccRead (run.map .st ++ [.ws t]) = .ok false :=
  isMissingAccRead_eq_false (by simp) (by simp [ht, hk])

end Recognise

/-- The account trace alone is not compared with anything. -/
theorem Outcome.unless_lone {α : Type} {allowed : Kind → Bool} {a : α} {x : Except (Error H) α}
    (h : run ≠ [] → Outcome hs [⟨allowed, run⟩] a x) :
    Outcome hs [⟨allowed, run⟩] a
      (if (run.map .st ++ [.ws t] : List (DecodedTrace H)).length = 1 then .ok a else x) := by
  by_cases hrun : run = []
  · subst hrun
    exact .ok (forall_mem_singleton.2 isChain_nil) (forall_mem_singleton.2 isChain_nil)
  · rw [if_neg (length_run_ne_one hrun t)]
    exact h hrun

theorem isAccCreation_run (ht : kind t = .insertion) :
    Outcome hs [⟨isFresh, run⟩] true (isAccCreation hs (run.map .st ++ [.ws t])) := by
  rw [isAccCreation, failIf_of_not (by simp), ok_bind, wsKind_getLast, ht, if_neg (not_not_intro rfl),
    dropLast_concat, scanStorage_run]
  exact .unless_lone fun _ => (checkOrder_run .accountCreation isFresh run).bind_ok rfl

theorem isAccDeletion_run (ht : kind t = .deletion) :
    Outcome hs [⟨isRead, run⟩] true (isAccDeletion hs (run.map .st ++ [.ws t])) := by
  rw [isAccDeletion, failIf_of_not (by simp), ok_bind, wsKind_getLast, ht, if_neg (not_not_intro rfl),
    dropLast_concat]
  exact .unless_lone fun _ => (checkStoragePart_run .accountDeletion isRead run).bind_ok rfl

theorem isAccUpdate_run (ht : kind t = .update) :
    Outcome hs [⟨fun _ => true, run⟩] true (isAccUpdate hs (run.map .st ++ [.ws t])) := by
  rw [isAccUpdate, failIf_of_not (by simp), ok_bind, wsKind_getLast, ht, if_neg (not_not_intro rfl),
    dropLast_concat]
  exact .unless_lone fun _ => (checkStoragePart_run .accountUpdate (fun _ => true) run).bind_ok rfl

theorem isAccRead_run_last (ht : kind t = .readNonZero) :
    Outcome hs [⟨isRead, run⟩] (some (run.map .st ++ [.ws t])) (isAccRead hs (run.map .st ++ [.ws t])) := by
  have hhead (hrun : run ≠ []) : wsKind (run.map st ++ [ws t]).head? ≠ some .readNonZero := by
    obtain ⟨a, run, rfl⟩ := exists_cons_of_ne_nil hrun
    exact fun h => (by cases h)
  rw [isAccRead, failIf_of_not (by simp), ok_bind]
  dsimp only
  rw [wsKind_getLast, ht, if_neg fun h => h.2 rfl, failIf_of_not fun h => hhead (by rintro rfl; simp at h) h.1, ok_bind]
  refine .unless_lone fun hrun => ?_
  rw [if_neg (hhead hrun), dropLast_concat]
  exact (checkStoragePart_run .accountRead isRead run).bind_ok rfl

theorem isAccRead_run_first (hrun : run ≠ []) (ht : kind t = .readNonZero) :
    Outcome hs [⟨isRead, run⟩] (some (run.map .st ++ [.ws t])) (isAccRead hs (.ws t :: run.map .st)) := by
  have hhead : wsKind (ws t :: run.map st).head? = some .readNonZero := congrArg some ht
  have hlast : wsKind (ws t :: run.map st).getLast? = none := wsKind_getLast_run [.ws t] hrun
  rw [isAccRead, failIf_of_not (cons_ne_nil _ _), ok_bind]
  dsimp only
  rw [if_neg fun h => h.1 hhead, failIf_of_not (by simp [hlast]), ok_bind, if_neg (by simp [hrun]), if_pos hhead,
    tail_cons, take_one, head?_cons, Option.toList_some, dropLast_concat]
  exact (checkStoragePart_run .accountRead isRead run).bind_ok rfl

omit [LinearOrder H] in
theorem scanRedeploy_run (run : List (StorageAccess H)) (i : Nat) (pos : Option Nat) (rest : List (DecodedTrace H)) :
    scanRedeploy i pos [] (run.map .st ++ rest) = scanRedeploy (i + run.length) pos [] rest := by
  induction run generalizing i with
  | nil => rfl
  | cons a run ih =>
    have hrecord (c : Bool) (k : Kind) : (if c = true then [] else record [] k) = [] := by
      split <;> rfl
    rw [map_cons, cons_append, scanRedeploy, hrecord, ih, length_cons, Nat.add_right_comm, Nat.add_assoc]

theorem isAccRedeploy_run {run' : List (StorageAccess H)} {t' : AccountTrace H} (ht : kind t = .deletion)
    (ht' : kind t' = .insertion) :
    Outcome hs [⟨isRead, run⟩, ⟨isFresh, run'⟩] true
      (isAccRedeploy hs (run.map .st ++ .ws t :: run'.map .st ++ [.ws t'])) := by
  have hscan : scanRedeploy 0 none [] (run.map st ++ .ws t :: run'.map .st) = .ok (some run.length, []) := by
    cases t with
    | deletion d =>
      rw [scanRedeploy_run, scanRedeploy, if_neg (by simp), Nat.zero_add, ← append_nil (run'.map st), scanRedeploy_run]
      rfl
    | _ => cases ht
  have htake : (run.map st ++ ws t :: run'.map .st ++ [ws t']).take run.length = run.map .st := by
    rw [append_assoc, take_left' (length_map _)]
  have hdrop : (run.map st ++ ws t :: run'.map st).drop (run.length + 1) = run'.map .st := by
    rw [← drop_drop, drop_left' (length_map _), drop_one, tail_cons]
  rw [isAccRedeploy, failIf_of_not (by simp), ok_bind, wsKind_getLast, ht', if_neg (not_not_intro rfl),
    if_neg (by simp; omega), dropLast_concat, hscan, ok_bind]
  dsimp only
  rw [failIf_of_not (not_not_intro rfl), ok_bind, Option.getD_some, htake, hdrop]
  -- either check may panic, and their errors are joined
  rcases checkStorageTraceOrder_run hs run 0 with ⟨hinc, h⟩ | ⟨hinc, errs, h, hread⟩
  · rw [h, error_bind]
    exact .boom ⟨_, mem_cons_self, hinc⟩
  rw [h, ok_bind]
  rcases checkStorageTraceOrder_run hs run' 0 with ⟨hinc', h'⟩ | ⟨hinc', errs', h', hread'⟩
  · rw [h', error_bind]
    exact .boom ⟨_, mem_cons_of_mem _ (mem_singleton_self _), hinc'⟩
  rw [h', ok_bind]
  have hall : ∀ r ∈ [(⟨isRead, run⟩ : StorageRun H), ⟨isFresh, run'⟩], r.run.dropLast.IsChain (Increasing hs) :=
    forall_mem_cons.2 ⟨hinc, forall_mem_singleton.2 hinc'⟩
  by_cases herrs : errs ++ errs' = []
  · rw [failIf_of_not (not_not_intro herrs), ok_bind]
    obtain ⟨he, he'⟩ := append_eq_nil_iff.1 herrs
    exact .ok hall (forall_mem_cons.2 ⟨hread.1 he, forall_mem_singleton.2 (hread'.1 he')⟩)
  · rw [failIf_of herrs, error_bind]
    refine .order _ _ hall ?_
    by_cases he : errs = []
    · have he' : errs' ≠ [] := fun he' => herrs (by rw [he, he', append_nil])
      exact ⟨_, mem_cons_of_mem _ (mem_singleton_self _), mt hread'.2 he'⟩
    · exact ⟨_, mem_cons_self, mt hread.2 he⟩

/-! ### Segments whose last trace is another one -/

section

variable (hne : traces ≠ [])

include hne

theorem isAccCreation_eq_false (h : wsKind traces.getLast? ≠ some .insertion) :
    isAccCreation hs traces = .ok false := by
  rw [isAccCreation, failIf_of_not hne, ok_bind, if_pos h, pure_eq_ok]

theorem isAccDeletion_eq_false (h : wsKind traces.getLast? ≠ some .deletion) : isAccDeletion hs traces = .ok false := by
  rw [isAccDeletion, failIf_of_not hne, ok_bind, if_pos h, pure_eq_ok]

theorem isAccUpdate_eq_false (h : wsKind traces.getLast? ≠ some .update) : isAccUpdate hs traces = .ok false := by
  rw [isAccUpdate, failIf_of_not hne, ok_bind, if_pos h, pure_eq_ok]

theorem isAccRedeploy_eq_false (h : wsKind traces.getLast? ≠ some .insertion) :
    isAccRedeploy hs traces = .ok false := by
  rw [isAccRedeploy, failIf_of_not hne, ok_bind, if_pos h, pure_eq_ok]

theorem isAccRead_eq_none (hfirst : wsKind traces.head? ≠ some .readNonZero)
    (hlast : wsKind traces.getLast? ≠ some .readNonZero) : isAccRead hs traces = .ok none := by
  rw [isAccRead, failIf_of_not hne, ok_bind]
  dsimp only
  rw [if_pos ⟨hfirst, hlast⟩, pure_eq_ok]

end

/-! ### The recognisers in a row -/

theorem Outcome.skip {α : Type} {a : α} {x : Except (Error H) Bool} {y z : Except (Error H) α}
    (hx : x = .ok false) (h : Outcome hs runs a z) : Outcome hs runs a (x >>= fun b => if b = true then y else z) := by
  rwa [hx, ok_bind, if_neg Bool.false_ne_true]

theorem outcome_readLast (ht : kind t = .readNonZero) :
    ∃ moved, Outcome hs [⟨isRead, run⟩] moved (inspectPattern hs (run.map .st ++ [.ws t])) := by
  refine ⟨_, .skip (isMissingAccRead_run ht (by decide)) (.skip ?_ (.skip ?_ ((isAccRead_run_last ht).bind_ok rfl)))⟩
  · exact isAccCreation_eq_false (by simp) (wsKind_getLast_ne ht (by decide))
  · exact isAccDeletion_eq_false (by simp) (wsKind_getLast_ne ht (by decide))

theorem Follows.outcome (h : Follows traces runs) :
    ∃ moved, Outcome hs runs moved (inspectPattern hs traces) := by
  have hne (l : List (DecodedTrace H)) (t : DecodedTrace H) : l ++ [t] ≠ [] :=
    append_ne_nil_of_right_ne_nil _ (cons_ne_nil _ _)
  unfold inspectPattern
  cases h with
  | @missing t ht =>
    have hmissing : isMissingAccRead [ws t] = .ok true := by
      rw [isMissingAccRead, failIf_of_not (cons_ne_nil _ _), ok_bind, if_pos ⟨congrArg some ht, rfl⟩, pure_eq_ok]
    refine ⟨[.ws t], ?_⟩
    rw [hmissing]
    exact .ok (fun _ hr => absurd hr not_mem_nil) fun _ hr => absurd hr not_mem_nil
  | creation ht => exact ⟨_, .skip (isMissingAccRead_run ht (by decide)) ((isAccCreation_run ht).bind_ok rfl)⟩
  | deletion ht =>
    refine ⟨_, .skip (isMissingAccRead_run ht (by decide)) (.skip ?_ ((isAccDeletion_run ht).bind_ok rfl))⟩
    exact isAccCreation_eq_false (hne _ _) (wsKind_getLast_ne ht (by decide))
  | readLast ht => exact outcome_readLast ht
  | @update run t ht =>
    have hread : isAccRead hs (run.map .st ++ [.ws t]) = .ok none :=
      isAccRead_eq_none (hne _ _) (wsKind_head_run ht (by decide)) (wsKind_getLast_ne ht (by decide))
    rw [hread]
    refine ⟨_, .skip (isMissingAccRead_run ht (by decide)) (.skip ?_ (.skip ?_ ((isAccUpdate_run ht).bind_ok rfl)))⟩
    · exact isAccCreation_eq_false (hne _ _) (wsKind_getLast_ne ht (by decide))
    · exact isAccDeletion_eq_false (hne _ _) (wsKind_getLast_ne ht (by decide))
  | @readFirst run t ht =>
    by_cases hrun : run = []
    · subst hrun
      exact @outcome_readLast _ _ _ [] t ht
    · have hnone : wsKind (ws t :: run.map st).getLast? = none := wsKind_getLast_run [.ws t] hrun
      have hlast (k : Kind) : wsKind (ws t :: run.map st).getLast? ≠ some k := by
        rw [hnone]
        exact fun h => (by cases h)
      have hmissing := isMissingAccRead_eq_false (cons_ne_nil (ws t) (run.map .st)) (by simp [ht])
      exact ⟨_, .skip hmissing (.skip (isAccCreation_eq_false (cons_ne_nil _ _) (hlast _))
        (.skip (isAccDeletion_eq_false (cons_ne_nil _ _) (hlast _)) ((isAccRead_run_first hrun ht).bind_ok rfl)))⟩
  | @redeployment run run' t t' ht ht' =>
    have hsplit : run.map st ++ .ws t :: (run'.map .st ++ [.ws t']) = run.map .st ++ .ws t ::
      run'.map .st ++ [.ws t'] := by
      rw [append_assoc, cons_append]
    have hread : isAccRead hs (run.map .st ++ .ws t :: run'.map .st ++ [.ws t']) = .ok none := by
      refine isAccRead_eq_none (hne _ _) ?_ (wsKind_getLast_ne ht' (by decide))
      rw [← hsplit]
      exact wsKind_head_run ht (by decide)
    rw [hsplit, hread]
    refine ⟨_, .skip (isMissingAccRead_eq_false (by simp) (by simp [ht, ht'])) (.skip ?_ (.skip ?_ (.skip ?_
      ((isAccRedeploy_run ht ht').bind_ok rfl))))⟩
    · -- the deletion is found before the end
      rw [isAccCreation, failIf_of_not (hne _ _), ok_bind, wsKind_getLast, ht', if_neg (not_not_intro rfl),
        if_neg (by simp; omega), dropLast_concat, scanStorage_ws]
      rfl
    · exact isAccDeletion_eq_false (hne _ _) (wsKind_getLast_ne ht' (by decide))
    · exact isAccUpdate_eq_false (hne _ _) (wsKind_getLast_ne ht' (by decide))

end Order

end Lineth.StateManager
