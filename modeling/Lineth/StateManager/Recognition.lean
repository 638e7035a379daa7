import Lineth.StateManager.Patterns

/-!
# What `inspectPattern` recognises

A segment follows at most one pattern with at most one choice of runs, and one that follows none is rejected with an
error. What is left of the documentation are the comparisons within the runs. -/

namespace Lineth.StateManager

open Accumulator Except List

variable {H : Type}

/-! ### The runs of a segment -/

def wsKinds (traces : List (DecodedTrace H)) : List Kind := traces.filterMap fun t => wsKind (some t)

def DecodedTrace.access : DecodedTrace H → Option (StorageAccess H)
  | .ws _ => none
  | .st a => some a

def storageTraces (traces : List (DecodedTrace H)) : List (StorageAccess H) := traces.filterMap DecodedTrace.access

/-- The runs of storage traces that the traces of the world state ask for. -/
def storageRuns (traces : List (DecodedTrace H)) : List (StorageRun H) :=
  match wsKinds traces with
  | [.insertion] => [⟨isFresh, storageTraces traces⟩]
  | [.deletion] => [⟨isRead, storageTraces traces⟩]
  | [.readNonZero] => [⟨isRead, storageTraces traces⟩]
  | [.update] => [⟨fun _ => true, storageTraces traces⟩]
  | [.deletion, .insertion] =>
    [⟨isRead, storageTraces (traces.takeWhile fun t => !t.isWorldState)⟩,
      ⟨isFresh, storageTraces (traces.dropWhile fun t => !t.isWorldState)⟩]
  | _ => []

theorem wsKinds_cons_ws (t : AccountTrace H) (l : List (DecodedTrace H)) :
    wsKinds (.ws t :: l) = kind t :: wsKinds l := rfl

@[simp]
theorem wsKinds_append (l l' : List (DecodedTrace H)) : wsKinds (l ++ l') = wsKinds l ++ wsKinds l' := filterMap_append

@[simp]
theorem wsKinds_map_st (run : List (StorageAccess H)) : wsKinds (run.map .st) = [] := by
  rw [wsKinds, filterMap_eq_nil_iff]
  intro x hx
  obtain ⟨a, -, rfl⟩ := mem_map.1 hx
  rfl

theorem storageTraces_cons_ws (t : AccountTrace H) (l : List (DecodedTrace H)) :
    storageTraces (.ws t :: l) = storageTraces l := rfl

@[simp]
theorem storageTraces_append (l l' : List (DecodedTrace H)) :
    storageTraces (l ++ l') = storageTraces l ++ storageTraces l' :=
  filterMap_append

@[simp]
theorem storageTraces_map_st (run : List (StorageAccess H)) : storageTraces (run.map .st) = run := by
  rw [storageTraces, filterMap_map]
  exact filterMap_some

variable {traces : List (DecodedTrace H)}

theorem Follows.runs_eq {runs : List (StorageRun H)} (h : Follows traces runs) :
    runs = storageRuns traces := by
  have hnil : wsKinds ([] : List (DecodedTrace H)) = [] := rfl
  have hnil' : storageTraces ([] : List (DecodedTrace H)) = [] := rfl
  cases h with
  | missing ht => simp [storageRuns, wsKinds_cons_ws, ht, hnil]
  | creation ht => simp [storageRuns, wsKinds_cons_ws, storageTraces_cons_ws, ht, hnil, hnil']
  | deletion ht => simp [storageRuns, wsKinds_cons_ws, storageTraces_cons_ws, ht, hnil, hnil']
  | update ht => simp [storageRuns, wsKinds_cons_ws, storageTraces_cons_ws, ht, hnil, hnil']
  | readLast ht => simp [storageRuns, wsKinds_cons_ws, storageTraces_cons_ws, ht, hnil, hnil']
  | readFirst ht => simp [storageRuns, wsKinds_cons_ws, storageTraces_cons_ws, ht]
  | @redeployment run run' t t' ht ht' =>
    have hst : ∀ x ∈ run.map DecodedTrace.st, (!x.isWorldState) = true := by
      intro x hx
      obtain ⟨a, -, rfl⟩ := mem_map.1 hx
      rfl
    rw [storageRuns, takeWhile_append_of_pos hst, dropWhile_append_of_pos hst]
    simp [wsKinds_cons_ws, storageTraces_cons_ws, ht, ht', hnil, hnil', DecodedTrace.isWorldState]

/-! ### Segments that follow no pattern -/

theorem storage_or_split (l : List (DecodedTrace H)) :
    (∃ run : List (StorageAccess H), l = run.map .st) ∨
      ∃ (run : List (StorageAccess H)) (t : AccountTrace H) (rest : List (DecodedTrace H)),
        l = run.map .st ++ .ws t :: rest := by
  induction l with
  | nil => exact .inl ⟨[], rfl⟩
  | cons x l ih =>
    cases x with
    | ws t => exact .inr ⟨[], t, l, rfl⟩
    | st a =>
      rcases ih with ⟨run, rfl⟩ | ⟨run, t, rest, rfl⟩
      · exact .inl ⟨a :: run, rfl⟩
      · exact .inr ⟨a :: run, t, rest, rfl⟩

def Fails {α : Type} (x : Except (Error H) α) : Prop := ∃ e, x = .error e ∧ ¬ e.isPanic

/-- A recogniser that does not recognise: it returns `a` or fails. -/
def Rejects {α : Type} (a : α) (x : Except (Error H) α) : Prop := x = .ok a ∨ Fails x

theorem Rejects.bind {α β : Type} {a : α} {x : Except (Error H) α} {f : α → Except (Error H) β}
    (h : Rejects a x) (hf : Fails (f a)) :
    Fails (x >>= f) := by
  rcases h with rfl | ⟨e, rfl, he⟩
  · exact hf
  · exact ⟨e, rfl, he⟩

theorem Fails.bind {α β : Type} {x : Except (Error H) α} {f : α → Except (Error H) β}
    (h : Fails x) : Fails (x >>= f) := by
  obtain ⟨e, rfl, he⟩ := h
  exact ⟨e, rfl, he⟩

/-- A segment that ends with a trace of the world state has only storage traces before it, or another such trace. -/
theorem run_or_split_of_wsKind {k : Kind} (h : wsKind traces.getLast? = some k) :
    ∃ t, kind t = k ∧ ((∃ run : List (StorageAccess H), traces = run.map .st ++ [.ws t]) ∨
      ∃ (run : List (StorageAccess H)) (t' : AccountTrace H) (rest : List (DecodedTrace H)),
        traces = run.map .st ++ .ws t' :: rest ++ [.ws t]) := by
  rcases eq_nil_or_concat' traces with rfl | ⟨l, x, rfl⟩
  · cases h
  · rw [getLast?_concat] at h
    cases x with
    | ws t =>
      refine ⟨t, Option.some.inj h, (storage_or_split l).imp ?_ ?_⟩
      · rintro ⟨run, rfl⟩
        exact ⟨run, rfl⟩
      · rintro ⟨run, t', rest, rfl⟩
        exact ⟨run, t', rest, rfl⟩
    | st a => cases h

theorem exists_cons_of_wsKind {k : Kind} (h : wsKind traces.head? = some k) :
    ∃ t l, traces = .ws t :: l ∧ kind t = k := by
  rcases traces with _ | ⟨_ | _, l⟩
  · cases h
  · exact ⟨_, l, rfl, Option.some.inj h⟩
  · cases h

section Reject

variable [LinearOrder H] {hs : StateHashes H} {traces : List (DecodedTrace H)} (hne : traces ≠ [])
  (h : ∀ runs, ¬ Follows traces runs)

include hne h

omit [LinearOrder H] in
theorem isMissingAccRead_rejects : Rejects false (isMissingAccRead traces) := by
  rw [isMissingAccRead, failIf_of_not hne, ok_bind]
  split
  · next hone =>
    obtain ⟨t, l, rfl, ht⟩ := exists_cons_of_wsKind hone.1
    have hl : l = [] := length_eq_zero_iff.1 (Nat.succ.inj hone.2)
    subst hl
    exact absurd (Follows.missing ht) (h _)
  · rw [failIf]
    split
    · exact .inr ⟨_, rfl, by simp [Error.isPanic]⟩
    · exact .inl rfl

theorem isAccCreation_rejects : Rejects false (isAccCreation hs traces) := by
  by_cases hlast : wsKind traces.getLast? = some .insertion
  · obtain ⟨t, ht, ⟨run, rfl⟩ | ⟨run, t', rest, rfl⟩⟩ := run_or_split_of_wsKind hlast
    · exact absurd (Follows.creation ht) (h _)
    · refine .inl ?_
      rw [isAccCreation, failIf_of_not hne, ok_bind, if_neg (not_not_intro hlast), if_neg (by simp; omega),
        dropLast_concat, scanStorage_ws]
      rfl
  · exact .inl (isAccCreation_eq_false hne hlast)

omit hne h in
theorem checkStoragePart_fails (pattern : Pattern) (allowed : Kind → Bool)
    (run : List (StorageAccess H)) (t : AccountTrace H)
    (rest : List (DecodedTrace H)) : Fails (checkStoragePart hs pattern allowed (run.map .st ++ .ws t :: rest)) := by
  rw [checkStoragePart, scanStorage_ws]
  exact ⟨_, rfl, by simp [Error.isPanic]⟩

theorem isAccDeletion_rejects : Rejects false (isAccDeletion hs traces) := by
  by_cases hlast : wsKind traces.getLast? = some .deletion
  · obtain ⟨t, ht, ⟨run, rfl⟩ | ⟨run, t', rest, rfl⟩⟩ := run_or_split_of_wsKind hlast
    · exact absurd (Follows.deletion ht) (h _)
    · refine .inr ?_
      rw [isAccDeletion, failIf_of_not hne, ok_bind, if_neg (not_not_intro hlast), if_neg (by simp; omega),
        dropLast_concat]
      exact (checkStoragePart_fails _ _ _ _ _).bind
  · exact .inl (isAccDeletion_eq_false hne hlast)

theorem isAccUpdate_rejects : Rejects false (isAccUpdate hs traces) := by
  by_cases hlast : wsKind traces.getLast? = some .update
  · obtain ⟨t, ht, ⟨run, rfl⟩ | ⟨run, t', rest, rfl⟩⟩ := run_or_split_of_wsKind hlast
    · exact absurd (Follows.update ht) (h _)
    · refine .inr ?_
      rw [isAccUpdate, failIf_of_not hne, ok_bind, if_neg (not_not_intro hlast), if_neg (by simp; omega),
        dropLast_concat]
      exact (checkStoragePart_fails _ _ _ _ _).bind
  · exact .inl (isAccUpdate_eq_false hne hlast)

theorem isAccRead_rejects : Rejects none (isAccRead hs traces) := by
  by_cases hnone : wsKind traces.head? ≠ some .readNonZero ∧ wsKind traces.getLast? ≠ some .readNonZero
  · exact .inl (isAccRead_eq_none hne hnone.1 hnone.2)
  refine .inr ?_
  rw [isAccRead, failIf_of_not hne, ok_bind]
  dsimp only
  rw [if_neg hnone, failIf]
  split
  · exact ⟨_, rfl, by simp [Error.isPanic]⟩
  next hboth =>
  rw [ok_bind]
  by_cases hfirst : wsKind traces.head? = some .readNonZero
  · obtain ⟨t, l, rfl, ht⟩ := exists_cons_of_wsKind hfirst
    rcases storage_or_split l with ⟨run, rfl⟩ | ⟨run, t', rest, rfl⟩
    · exact absurd (Follows.readFirst ht) (h _)
    · rw [if_neg (by simp), if_pos hfirst, tail_cons, take_one, head?_cons, Option.toList_some, dropLast_concat]
      exact (checkStoragePart_fails _ _ _ _ _).bind
  · obtain ⟨t, ht, ⟨run, rfl⟩ | ⟨run, t', rest, rfl⟩⟩ :=
      run_or_split_of_wsKind (not_not.1 fun hlast => hnone ⟨hfirst, hlast⟩)
    · exact absurd (Follows.readLast ht) (h _)
    · rw [if_neg (by simp; omega), if_neg hfirst, dropLast_concat]
      exact (checkStoragePart_fails _ _ _ _ _).bind

omit hne h [LinearOrder H] in
theorem scanRedeploy_fails {i : Nat} {pos : Option Nat} {t : AccountTrace H} {rest : List (DecodedTrace H)}
    (ht : kind t = .deletion → pos.isSome) : Fails (scanRedeploy i pos [] (.ws t :: rest)) := by
  cases t with
  | deletion d =>
    rw [scanRedeploy, if_pos (ht rfl)]
    exact ⟨_, rfl, by simp [Error.isPanic]⟩
  | _ => exact ⟨_, rfl, by simp [Error.isPanic]⟩

theorem isAccRedeploy_rejects : Rejects false (isAccRedeploy hs traces) := by
  by_cases hlast : wsKind traces.getLast? = some .insertion
  · obtain ⟨t', ht', ⟨run, rfl⟩ | ⟨run, t, rest, rfl⟩⟩ := run_or_split_of_wsKind hlast
    · exact absurd (Follows.creation ht') (h _)
    refine .inr ?_
    rw [isAccRedeploy, failIf_of_not hne, ok_bind, if_neg (not_not_intro hlast), if_neg (by simp; omega),
      dropLast_concat, scanRedeploy_run]
    refine Fails.bind ?_
    by_cases ht : kind t = .deletion
    · rcases storage_or_split rest with ⟨run', rfl⟩ | ⟨run', t'', rest, rfl⟩
      · rw [append_assoc, cons_append] at h
        exact absurd (Follows.redeployment ht ht') (h _)
      · cases t with
        | deletion d =>
          rw [scanRedeploy, if_neg (by simp), scanRedeploy_run]
          exact scanRedeploy_fails fun _ => rfl
        | _ => cases ht
    · exact scanRedeploy_fails fun hk => absurd hk ht
  · exact .inl (isAccRedeploy_eq_false hne hlast)

/-- A segment that follows no pattern is rejected, and not with a panic. -/
theorem inspectPattern_fails : Fails (inspectPattern hs traces) := by
  rw [inspectPattern]
  refine (isMissingAccRead_rejects hne h).bind ?_
  refine (isAccCreation_rejects hne h).bind ?_
  refine (isAccDeletion_rejects hne h).bind ?_
  refine (isAccRead_rejects hne h).bind ?_
  refine (isAccUpdate_rejects hne h).bind ?_
  refine (isAccRedeploy_rejects hne h).bind ?_
  exact ⟨_, rfl, by simp [Error.isPanic]⟩

end Reject

/-! ### The documented segments -/

section Exact

variable [LinearOrder H] {hs : StateHashes H} {traces : List (DecodedTrace H)} {runs : List (StorageRun H)}

theorem documented_iff (h : Follows traces runs) :
    Documented hs traces ↔ ∀ r ∈ runs, (∀ a ∈ r.run, r.allowed (kind a.trace) = true) ∧
    r.run.Pairwise (Precedes hs) := by
  constructor
  · rintro ⟨runs', h', hall⟩
    rw [h.runs_eq, ← h'.runs_eq]
    exact hall
  · exact fun hall => ⟨runs, h, hall⟩

/-- `inspectPattern` accepts the documented segments only, and rejects the others without a panic. -/
def Recognised (hs : StateHashes H) (traces : List (DecodedTrace H)) : Prop :=
  ((∃ moved, inspectPattern hs traces = .ok moved) ↔ Documented hs traces) ∧
    (¬ Documented hs traces → ∃ e, inspectPattern hs traces = .error e ∧ ¬ e.isPanic)

/-- The keys increase between neighbours of one kind, the last two traces of a run apart; and unless a write comes
before a read among these traces, every storage trace has a kind of the pattern and the last two traces of each run
are in order. -/
def Compared (hs : StateHashes H) (traces : List (DecodedTrace H)) : Prop :=
  ∀ runs, Follows traces runs → (∀ r ∈ runs, r.run.dropLast.IsChain (Increasing hs)) ∧
    ((∃ r ∈ runs, ¬ r.run.dropLast.IsChain ReadFirst) ∨
      ∀ r ∈ runs, (∀ a ∈ r.run, r.allowed (kind a.trace) = true) ∧ LastInOrder hs r.run)

theorem compared_iff (h : Follows traces runs) :
    Compared hs traces ↔ (∀ r ∈ runs, r.run.dropLast.IsChain (Increasing hs)) ∧
      ((∃ r ∈ runs, ¬ r.run.dropLast.IsChain ReadFirst) ∨
        ∀ r ∈ runs, (∀ a ∈ r.run, r.allowed (kind a.trace) = true) ∧ LastInOrder hs r.run) := by
  constructor
  · exact fun hall => hall runs h
  · intro hall runs' h'
    rw [h'.runs_eq, ← h.runs_eq]
    exact hall

theorem Outcome.recognised_iff {moved : List (DecodedTrace H)} (h : Follows traces runs)
    (hout : Outcome hs runs moved (inspectPattern hs traces)) : Recognised hs traces ↔ Compared hs traces := by
  rw [Recognised, documented_iff h, compared_iff h]
  generalize inspectPattern hs traces = x at hout
  cases hout with
  | boom hnot =>
    -- a panic where the documentation asks for an error
    obtain ⟨r, hr, hinc⟩ := hnot
    refine iff_of_false (fun hrec => ?_) fun hcompared => hinc (hcompared.1 r hr)
    obtain ⟨e, he, hpanic⟩ := hrec.2 fun hall => hinc (pairwise_precedes_iff.1 (hall r hr).2).1.2
    cases he
    exact hpanic rfl
  | order pattern errs hinc hnot =>
    obtain ⟨r, hr, hread⟩ := hnot
    have hdoc : ¬ ∀ r ∈ runs, (∀ a ∈ r.run, r.allowed (kind a.trace) = true) ∧ r.run.Pairwise (Precedes hs) :=
      fun hall => hread (pairwise_precedes_iff.1 (hall r hr).2).1.1
    refine iff_of_true ⟨iff_of_false ?_ hdoc, fun _ => ⟨_, rfl, by simp [Error.isPanic]⟩⟩ ⟨hinc, .inl ⟨r, hr, hread⟩⟩
    rintro ⟨moved, hok⟩
    cases hok
  | ok hinc hread =>
    have hdoc : (∀ r ∈ runs, (∀ a ∈ r.run, r.allowed (kind a.trace) = true) ∧ r.run.Pairwise (Precedes hs)) ↔
        ∀ r ∈ runs, (∀ a ∈ r.run, r.allowed (kind a.trace) = true) ∧ LastInOrder hs r.run := by
      refine forall₂_congr fun r hr => and_congr_right fun _ => ?_
      rw [pairwise_precedes_iff, and_iff_right ⟨hread r hr, hinc r hr⟩]
    rw [hdoc]
    constructor
    · exact fun hrec => ⟨hinc, .inr (hrec.1.1 ⟨moved, rfl⟩)⟩
    · rintro ⟨-, ⟨r, hr, hnot⟩ | hall⟩
      · exact absurd (hread r hr) hnot
      · exact ⟨iff_of_true ⟨moved, rfl⟩ hall, fun hnot => absurd hall hnot⟩

theorem recognised_iff_compared (hs : StateHashes H) (traces : List (DecodedTrace H)) (hne : traces ≠ []) :
    Recognised hs traces ↔ Compared hs traces := by
  by_cases hfollows : ∃ runs, Follows traces runs
  · obtain ⟨runs, h⟩ := hfollows
    obtain ⟨moved, hout⟩ := @Follows.outcome _ _ hs _ _ h
    exact hout.recognised_iff h
  · obtain ⟨e, he, hpanic⟩ := @inspectPattern_fails _ _ hs _ hne fun runs h => hfollows ⟨runs, h⟩
    refine iff_of_true ⟨iff_of_false ?_ ?_, fun _ => ⟨e, he, hpanic⟩⟩ fun runs h => absurd ⟨runs, h⟩ hfollows
    · rintro ⟨moved, hok⟩
      rw [he] at hok
      cases hok
    · rintro ⟨runs, h, -⟩
      exact hfollows ⟨runs, h⟩

theorem Follows.inspectPattern_boom (h : Follows traces runs)
    (hnot : ∃ r ∈ runs, ¬ r.run.dropLast.IsChain (Increasing hs)) : inspectPattern hs traces = .error .boom := by
  obtain ⟨r, hr, hinc⟩ := hnot
  obtain ⟨moved, hout⟩ := @Follows.outcome _ _ hs _ _ h
  generalize inspectPattern hs traces = x at hout
  cases hout with
  | boom _ => rfl
  | order _ _ hall _ => exact absurd (hall r hr) hinc
  | ok hall _ => exact absurd (hall r hr) hinc

end Exact

/-! ### Segments of the zero address -/

section ZeroAddress

variable [LinearOrder H] [BoundedOrder H] [Nontrivial H] (hs : StateHashes H)

/-- A read of an empty slot in the empty storage. -/
def emptySlotRead (slot : FullBytes32) : StorageAccess H :=
  { slotRead hs with trace := .readZero (readZeroTrace hs.storage zeroLocation 2
    Contents.empty.cell 0 1 .head .tail slot) }

def slotInsert (slot value : FullBytes32) : StorageAccess H :=
  { slotRead hs with trace := .insertion (insertionTrace hs.storage zeroLocation 2 Contents.empty.cell 0 1
    .head .tail slot value) }

def readAccount (a : Account H) : AccountTrace H :=
  .readNonZero (readNonZeroTrace hs.account wsLocation 3 (onlyAccount hs a) 2 (onlyLeaf hs a) 0 a)

def writeInRead : List (DecodedTrace H) := [.st (slotInsert hs 5 7), .ws (readAccount hs (accountAt (emptyRoot hs)))]

def lastReadsSwapped : List (DecodedTrace H) :=
  [.st (emptySlotRead hs 5), .st (emptySlotRead hs 4), .ws (readAccount hs (accountAt (emptyRoot hs)))]

def firstReadsSwapped : List (DecodedTrace H) :=
  [.st (emptySlotRead hs 5), .st (emptySlotRead hs 4), .st (emptySlotRead hs 6),
    .ws (readAccount hs (accountAt (emptyRoot hs)))]

def readsThenWrite : List (DecodedTrace H) :=
  [.st (emptySlotRead hs 4), .st (emptySlotRead hs 6), .st (slotInsert hs 5 7),
    .ws (insertAccount hs (accountAt (emptyRoot hs)))]

end ZeroAddress

theorem natStateHashes_key_lt {a b : FullBytes32} :
    natStateHashes.storage.key a < natStateHashes.storage.key b ↔ a.toNat < b.toNat := by
  have hcoe : natStateHashes.storage.key a < natStateHashes.storage.key b ↔
    a.toNat + 1 < b.toNat + 1 := WithTop.coe_lt_coe
  rw [hcoe, Nat.add_lt_add_iff_right]

/-- A write in the segment of an account read and two swapped reads at the end of a run are accepted; two swapped
reads elsewhere are a panic. -/
theorem inspectPattern_undocumented :
    ((∃ moved, inspectPattern natStateHashes (writeInRead natStateHashes) = .ok moved) ∧
      ¬ Documented natStateHashes (writeInRead natStateHashes)) ∧
    ((∃ moved, inspectPattern natStateHashes (lastReadsSwapped natStateHashes) = .ok moved) ∧
      ¬ Documented natStateHashes (lastReadsSwapped natStateHashes)) ∧
    inspectPattern natStateHashes (firstReadsSwapped natStateHashes) = .error .boom := by
  refine ⟨⟨⟨_, rfl⟩, fun hdoc => ?_⟩, ⟨⟨_, rfl⟩, fun hdoc => ?_⟩, ?_⟩
  · have hfollows : Follows (writeInRead natStateHashes) [⟨isRead, [slotInsert natStateHashes 5 7]⟩] :=
      @Follows.readLast _ [slotInsert natStateHashes 5 7] _ rfl
    have hall := ((documented_iff hfollows).1 hdoc _ (mem_singleton_self _)).1 _ (mem_singleton_self _)
    exact absurd hall (by decide)
  · have hfollows : Follows (lastReadsSwapped natStateHashes)
        [⟨isRead, [emptySlotRead natStateHashes 5, emptySlotRead natStateHashes 4]⟩] :=
      @Follows.readLast _ [emptySlotRead natStateHashes 5, emptySlotRead natStateHashes 4] _ rfl
    have hall := ((documented_iff hfollows).1 hdoc _ (mem_singleton_self _)).2
    have hprec := (pairwise_cons.1 hall).1 _ (mem_singleton_self _)
    have hkey := (precedes_iff.1 hprec).2 rfl
    exact absurd (natStateHashes_key_lt.1 hkey) (by decide)
  · have hfollows : Follows (firstReadsSwapped natStateHashes)
        [⟨isRead, [emptySlotRead natStateHashes 5, emptySlotRead natStateHashes 4, emptySlotRead natStateHashes 6]⟩] :=
      @Follows.readLast _ [emptySlotRead natStateHashes 5, emptySlotRead natStateHashes 4,
        emptySlotRead natStateHashes 6] _ rfl
    refine hfollows.inspectPattern_boom ⟨_, mem_singleton_self _, fun hchain => ?_⟩
    have hkey := (isChain_pair.1 hchain) rfl
    exact absurd (natStateHashes_key_lt.1 hkey) (by decide)

theorem recognised_readsThenWrite : Recognised natStateHashes (readsThenWrite natStateHashes) := by
  have hfollows : Follows (readsThenWrite natStateHashes)
      [⟨isFresh, [emptySlotRead natStateHashes 4, emptySlotRead natStateHashes 6, slotInsert natStateHashes 5 7]⟩] :=
    @Follows.creation _ [emptySlotRead natStateHashes 4, emptySlotRead natStateHashes 6,
      slotInsert natStateHashes 5 7] _ rfl
  refine (recognised_iff_compared natStateHashes _ (cons_ne_nil _ _)).2 ((compared_iff hfollows).2 ⟨?_, .inr ?_⟩)
  · refine forall_mem_singleton.2 (isChain_pair.2 fun _ => ?_)
    exact natStateHashes_key_lt.2 (by decide)
  · refine forall_mem_singleton.2 ⟨?_, fun before a b h => ?_⟩
    · exact forall_mem_cons.2 ⟨rfl, forall_mem_cons.2 ⟨rfl, forall_mem_singleton.2 rfl⟩⟩
    · obtain ⟨-, hlast⟩ := @append_inj' _ [emptySlotRead natStateHashes 4] _ before _ h rfl
      cases hlast
      exact .inl (by decide)

end Lineth.StateManager
