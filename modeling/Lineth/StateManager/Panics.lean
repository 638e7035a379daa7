import Lineth.Accumulator.Panics
import Lineth.StateManager.Recognition

/-!
# The panics of `CheckTraces`

`checkProofsForAccount` panics where it relies on the inspection of the patterns. That a segment ends with a trace of
the world state and that a missing account has no storage traces is indeed enforced; that the storage traces before
the read or the deletion of an account keep the root is not. The other panics are those of the Merkle verifier. On
accepted traces there is a panic exactly if one of the two is reached. -/

namespace Lineth.StateManager

open Accumulator List VerifierState
open Except

variable {H : Type}

/-! ### The splices of an accepted segment -/

/-- The storage traces that no trace of the world state follows. -/
def unfinished : List (StorageAccess H) → List (DecodedTrace H) → List (StorageAccess H)
  | curr, [] => curr
  | curr, .st a :: rest => unfinished (curr ++ [a]) rest
  | _, .ws _ :: rest => unfinished [] rest

variable (curr run : List (StorageAccess H))

theorem scan_run (rest : List (DecodedTrace H)) :
    unfinished curr (run.map .st ++ rest) = unfinished (curr ++ run) rest ∧
      splices curr (run.map .st ++ rest) = splices (curr ++ run) rest := by
  induction run generalizing curr with
  | nil => rw [append_nil]; exact ⟨rfl, rfl⟩
  | cons a run ih =>
    rw [append_cons curr]
    exact ih (curr ++ [a])

variable {traces : List (DecodedTrace H)} {run : List (StorageAccess H)} {t : AccountTrace H}

theorem readLast_run {rest : List (DecodedTrace H)}
    (h : kind t = .readNonZero → rest = []) :
    readLast (run.map .st ++ .ws t :: rest) = run.map .st ++ .ws t :: rest := by
  refine readLast_eq_self fun hfirst => ?_
  cases run with
  | nil =>
    rw [h (Option.some.inj hfirst)]
    rfl
  | cons a run => cases hfirst

/-- What the inspection of the patterns has enforced: the segment ends with a trace of the world state, and a missing
account has no storage traces. -/
theorem spliced_of_follows {runs : List (StorageRun H)} (h : Follows traces runs) :
    unfinished [] (readLast traces) = [] ∧ ∀ q ∈ splices [] (readLast traces), kind q.2 = .readZero → q.1 = [] := by
  have hrun (run : List (StorageAccess H)) (t : AccountTrace H) (hne : kind t = .readZero → run = []) :
      unfinished [] (run.map .st ++ [.ws t]) = [] ∧ ∀ q ∈ splices [] (run.map .st ++ [.ws t]),
        kind q.2 = .readZero → q.1 = [] := by
    rw [(scan_run _ _ _).1, (scan_run _ _ _).2]
    exact ⟨rfl, forall_mem_singleton.2 hne⟩
  have hmissing {t : AccountTrace H} {k : Kind} (ht : kind t = k) (hk : k ≠ .readZero) (run : List (StorageAccess H)) :
      kind t = .readZero → run = [] := fun h => absurd (ht.symm.trans h) hk
  cases h with
  | @missing t ht =>
    rw [readLast_singleton]
    exact hrun [] t fun _ => rfl
  | @creation run t ht | @deletion run t ht | @update run t ht | @readLast run t ht =>
    rw [readLast_run fun _ => rfl]
    exact hrun run t (hmissing ht (by decide) run)
  | @readFirst run t ht =>
    have hfirst : wsKind (DecodedTrace.ws t :: run.map DecodedTrace.st).head? = some .readNonZero := congrArg some ht
    rw [readLast_move hfirst, tail_cons, take_one, head?_cons, Option.toList_some]
    exact hrun run t (hmissing ht (by decide) run)
  | @redeployment run run' t t' ht ht' =>
    rw [readLast_run fun h => absurd (ht.symm.trans h) (by decide), (scan_run _ _ _).1, (scan_run _ _ _).2]
    have hrest := hrun run' t' (hmissing ht' (by decide) run')
    exact ⟨hrest.1, forall_mem_cons.2 ⟨hmissing ht (by decide) _, hrest.2⟩⟩

theorem Follows.exists_ws {runs : List (StorageRun H)} (h : Follows traces runs) :
    ∃ t, DecodedTrace.ws t ∈ traces := by
  cases h with
  | missing ht => exact ⟨_, mem_singleton_self _⟩
  | creation ht | deletion ht | update ht | readLast ht => exact ⟨_, mem_append_right _ (mem_singleton_self _)⟩
  | readFirst ht => exact ⟨_, mem_cons_self⟩
  | redeployment ht ht' => exact ⟨_, mem_append_right _ mem_cons_self⟩

/-! ### What is reached -/

def Error.isRootPanic : Error H → Bool
  | .readUpdated | .deletionUpdated => true
  | _ => false

def Error.isMerklePanic : Error H → Bool
  | .storage (.panic _) | .accountPanic _ => true
  | _ => false

def Error.isExplained (e : Error H) : Bool := !e.isPanic || e.isRootPanic || e.isMerklePanic

section

variable [LinearOrder H] [BoundedOrder H] (hs : StateHashes H)

/-- What `checkProofsForAccount` does with a splice. -/
def checkSplice (q : List (StorageAccess H) × AccountTrace H) : Except (Error H) Unit := do
  if q.1 ≠ [] then
    let (old, new) ← checkSpliceST hs q.1
    checkRoots hs old new q.2

/-- `CheckTraces` comes to the splice: the segments before it and the splices before it in its segment pass. -/
def ReachesSplice (traces : List (DecodedTrace H)) (q : List (StorageAccess H) × AccountTrace H) : Prop :=
  ∃ d l, traces.foldlM dispatch Dispatch.init = .ok d ∧ Reached (checkSegment hs) d.traceByAccount l ∧
    Reached (checkSplice hs) (splices [] (readLast l)) q

/-- `CheckTraces` comes to the world state: all segments pass. -/
def ReachesWorldState (traces : List (DecodedTrace H)) : Prop :=
  ∃ d, traces.foldlM dispatch Dispatch.init = .ok d ∧ d.traceByAccount.forM (checkSegment hs) = .ok ()

/-- The storage traces before the read or the deletion of an account keep the root. -/
def RootKept (q : List (StorageAccess H) × AccountTrace H) : Prop :=
  kind q.2 = .readNonZero ∨ kind q.2 = .deletion → ∀ old new, checkSpliceST hs q.1 = .ok (old, new) → old = new

def SpliceFits (q : List (StorageAccess H) × AccountTrace H) : Prop :=
  ∀ first ∈ q.1.head?, (bootstrapVerifierStateFromST first).AllPathsFit hs.storage (q.1.map StorageAccess.trace)

/-- The verifications of the world state go on after one that fails. -/
def WorldStateFits : VerifierState H → List (AccountTrace H) → Prop
  | _, [] => True
  | vs, t :: ts => vs.PathsFit hs.account t ∧ WorldStateFits (vs.verify hs.account t).2 ts

def RootsKept (traces : List (DecodedTrace H)) : Prop := ∀ q, ReachesSplice hs traces q → RootKept hs q

/-- Every Merkle proof that is reached has a path that fits its siblings. -/
def PathsFit (traces : List (DecodedTrace H)) : Prop :=
  (∀ q, ReachesSplice hs traces q → SpliceFits hs q) ∧ (ReachesWorldState hs traces →
    ∀ first ∈ (worldTraces traces).head?, WorldStateFits hs (bootstrapVerifierStateFromWS first) (worldTraces traces))

/-- Every segment is accepted by the inspection of its pattern. -/
def Accepted (traces : List (DecodedTrace H)) : Prop :=
  ∀ a, segment a traces ≠ [] → ∃ moved, inspectPattern hs (segment a traces) = .ok moved

end

/-! ### Segments of one account -/

variable {a : Address}

theorem segment_eq_self (h : ∀ t ∈ traces, t.getRelatedAccount = .ok a) : segment a traces = traces := by
  refine filter_eq_self.2 fun t ht => ?_
  rw [h t ht]
  exact decide_eq_true rfl

theorem segment_eq_nil {a b : Address} (h : ∀ t ∈ traces, t.getRelatedAccount = .ok a) (hab : b ≠ a) :
    segment b traces = [] := by
  refine filter_eq_nil_iff.2 fun t ht heq => hab ?_
  rw [h t ht] at heq
  exact (Option.some.inj (of_decide_eq_true heq)).symm

theorem account_pair {s : StorageAccess H} (haddress : addressFromHex s.location = some a)
    (hkey : traceKey t = a) : ∀ x ∈ [DecodedTrace.st s, DecodedTrace.ws t], x.getRelatedAccount = .ok a := by
  refine forall_mem_cons.2 ⟨?_, forall_mem_singleton.2 (congrArg Except.ok hkey)⟩
  rw [DecodedTrace.getRelatedAccount, haddress, orThrow_some]

/-! ### The panics that are left -/

variable [LinearOrder H] [BoundedOrder H] {hs : StateHashes H}

def NoPanic {α : Type} (x : Except (Error H) α) : Prop := ErrorsIn (fun e => e.isPanic = false) x

omit [LinearOrder H] [BoundedOrder H] in
theorem noPanic_failIf {c : Prop} [Decidable c] {e : Error H} (he : e.isPanic = false) : NoPanic (failIf c e) :=
  errorsIn_failIf.2 fun _ => he

omit [BoundedOrder H] in
theorem noPanic_changed {old new : H} {e e' : Error H} (he : e.isPanic = true) (he' : e'.isPanic = false) {c : Prop}
    [Decidable c] : NoPanic (do failIf (old ≠ new) e; failIf c e') ↔ old = new := by
  refine errorsIn_bind.trans ⟨fun h => ?_, fun h => ⟨errorsIn_failIf.2 fun hne => absurd h hne,
    fun _ _ => noPanic_failIf he'⟩⟩
  by_contra hne
  exact absurd (he.symm.trans (h.1 e (failIf_of hne))) (by decide)

theorem checkSpliceST_noPanic {first : StorageAccess H} {rest : List (StorageAccess H)} :
    NoPanic (checkSpliceST hs (first :: rest)) ↔
      (bootstrapVerifierStateFromST first).AllPathsFit hs.storage ((first :: rest).map StorageAccess.trace) := by
  rw [checkSpliceST, ← verifyAll_returns]
  split
  · next heq =>
    rw [heq]
    exact iff_of_true (errorsIn_ok _ _) (returns_ok _)
  · next e v heq =>
    rw [heq, returns_error]
    refine errorsIn_error.trans ?_
    cases e <;> exact Iff.rfl

section

variable (hempty : ∃ empty, emptyStorageTrieHash hs = .ok empty)

include hempty

theorem checkRoots_noPanic (old new : H) {t : AccountTrace H} (hmissing : kind t ≠ .readZero) :
    NoPanic (checkRoots hs old new t) ↔ (kind t = .readNonZero ∨ kind t = .deletion → old = new) := by
  cases t with
  | readZero t => exact absurd rfl hmissing
  | readNonZero t => exact (noPanic_changed rfl rfl).trans ⟨fun h _ => h, fun h => h (.inl rfl)⟩
  | deletion t => exact (noPanic_changed rfl rfl).trans ⟨fun h _ => h, fun h => h (.inr rfl)⟩
  | insertion t =>
    obtain ⟨empty, hempty⟩ := hempty
    rw [checkRoots, hempty, ok_bind]
    exact iff_of_true (ErrorsIn.bind (noPanic_failIf rfl) fun _ _ => noPanic_failIf rfl) (by rintro (⟨⟨⟩⟩ | ⟨⟨⟩⟩))
  | update t => exact iff_of_true (noPanic_failIf rfl) (by rintro (⟨⟨⟩⟩ | ⟨⟨⟩⟩))

theorem checkSplice_noPanic {q : List (StorageAccess H) × AccountTrace H} (hmissing : kind q.2 = .readZero → q.1 = []) :
    NoPanic (checkSplice hs q) ↔ RootKept hs q ∧ SpliceFits hs q := by
  obtain ⟨run, t⟩ := q
  cases run with
  | nil =>
    refine iff_of_true (errorsIn_ok _ _) ⟨fun _ _ _ h => ?_, fun _ h => ?_⟩ <;> cases h
  | cons first rest =>
    have hroots (old new : H) := checkRoots_noPanic hempty old new fun hk => cons_ne_nil _ _ (hmissing hk)
    rw [checkSplice, if_pos (cons_ne_nil _ _)]
    refine errorsIn_bind.trans (and_comm.trans (and_congr ?_ ?_))
    · exact ⟨fun h hk old new hok => (hroots _ _).1 (h (old, new) hok) hk,
        fun h p hok => (hroots _ _).2 fun hk => h hk _ _ hok⟩
    · refine checkSpliceST_noPanic.trans ⟨fun h x hx => ?_, fun h => h first rfl⟩
      cases hx
      exact h

end

/-! ### The world state -/

theorem checkWorldStateFrom_noPanic {ts : List (AccountTrace H)} (i : Nat) (vs : VerifierState H)
    (err : List (WorldStateError H)) : NoPanic (checkWorldStateFrom hs i ts vs err) ↔ WorldStateFits hs vs ts := by
  induction ts generalizing i vs err with
  | nil => exact iff_of_true (errorsIn_ok _ _) trivial
  | cons t ts ih =>
    rw [checkWorldStateFrom, WorldStateFits, ← verify_returns, checkWorldStateAt]
    rcases heq : vs.verify hs.account t with ⟨e | _, vs'⟩
    · cases e with
      | panic p => exact iff_of_false (fun h => by cases h _ rfl) fun h => by cases h.1 _ rfl
      | _ => exact (ih _ _ _).trans (and_iff_right (returns_error.2 rfl)).symm
    · exact (ih _ _ _).trans (and_iff_right (returns_ok _)).symm

theorem checkProofsWorldState_noPanic {ts : List (AccountTrace H)} (hne : ts ≠ []) :
    NoPanic (checkProofsWorldState hs ts) ↔
      ∀ first ∈ ts.head?, WorldStateFits hs (bootstrapVerifierStateFromWS first) ts := by
  obtain ⟨first, rest, rfl⟩ := exists_cons_of_ne_nil hne
  rw [checkProofsWorldState]
  refine errorsIn_bind.trans ((and_iff_left fun r _ => ?_).trans ((checkWorldStateFrom_noPanic _ _ _).trans ?_))
  · exact ErrorsIn.bind (noPanic_failIf rfl) fun _ _ => errorsIn_ok _ _
  · refine ⟨fun h x hx => ?_, fun h => h first rfl⟩
    cases hx
    exact h

/-! ### The segments -/

theorem checkProofsForAccount_eq {curr : List (StorageAccess H)} {moved : List (DecodedTrace H)}
    (hend : unfinished curr moved = []) :
    checkProofsForAccount hs curr moved = (splices curr moved).forM (checkSplice hs) := by
  induction moved generalizing curr with
  | nil =>
    cases hend
    rfl
  | cons x rest ih =>
    cases x with
    | st a => exact ih hend
    | ws t =>
      rw [checkProofsForAccount, splices, List.forM, checkSplice, ih hend]
      by_cases hne : curr ≠ []
      · simp only [if_pos hne, bind_assoc]
      · simp only [if_neg hne, pure_eq_ok, ok_bind]

omit [BoundedOrder H] in
theorem follows_of_accepted (hne : traces ≠ []) (h : ∃ moved, inspectPattern hs traces = .ok moved) :
    ∃ runs, Follows traces runs := by
  by_contra hnot
  obtain ⟨e, he, -⟩ := @inspectPattern_fails _ _ hs _ hne fun runs hruns => hnot ⟨runs, hruns⟩
  obtain ⟨moved, hok⟩ := h
  rw [he] at hok
  cases hok

omit [BoundedOrder H] in
theorem Accepted.segment {d : Dispatch H} (haccepted : Accepted hs traces)
    (hd : traces.foldlM dispatch Dispatch.init = .ok d) {l : List (DecodedTrace H)} (hl : l ∈ d.traceByAccount) :
    l ≠ [] ∧ ∃ moved, inspectPattern hs l = .ok moved := by
  obtain ⟨accounts, -, hd⟩ := segmented_of_foldlM hd
  rw [hd.segments] at hl
  obtain ⟨a, ha, rfl⟩ := mem_map.1 hl
  have hne := (hd.nonempty a).1 ha
  exact ⟨hne, haccepted a hne⟩

theorem checkSegment_eq (hne : traces ≠ []) (h : ∃ moved, inspectPattern hs traces = .ok moved) :
    checkSegment hs traces = (splices [] (readLast traces)).forM (checkSplice hs) ∧
      ∀ q ∈ splices [] (readLast traces), kind q.2 = .readZero → q.1 = [] := by
  obtain ⟨runs, hfollows⟩ := follows_of_accepted hne h
  obtain ⟨hend, hmissing⟩ := spliced_of_follows hfollows
  obtain ⟨moved, hmoved⟩ := h
  rw [checkSegment, hmoved, ok_bind, inspectPattern_eq_ok hmoved]
  exact ⟨checkProofsForAccount_eq hend, hmissing⟩

omit [LinearOrder H] [BoundedOrder H] in
theorem getRelatedAccount_errorsIn {P : Error H → Prop} (hP : ∀ e, e.isPanic = false → P e) (t : DecodedTrace H) :
    ErrorsIn P t.getRelatedAccount := by
  cases t with
  | ws t => exact errorsIn_ok _ _
  | st a =>
    rw [DecodedTrace.getRelatedAccount]
    cases addressFromHex a.location with
    | none => exact errorsIn_error.2 (hP _ rfl)
    | some b => exact errorsIn_ok _ _

/-- What may go wrong on accepted traces goes wrong in a splice or in the world state, or is no panic. -/
theorem checkTraces_errorsIn {P : Error H → Prop} (hP : ∀ e, e.isPanic = false → P e) (hne : traces ≠ [])
    (haccepted : Accepted hs traces) : ErrorsIn P (checkTraces hs traces) ↔
      (∀ q, ReachesSplice hs traces q → ErrorsIn P (checkSplice hs q)) ∧
      (ReachesWorldState hs traces → ErrorsIn P (checkProofsWorldState hs (worldTraces traces))) := by
  have hdispatch : ErrorsIn P (traces.foldlM dispatch Dispatch.init) := by
    refine ErrorsIn.foldlM (fun t _ d => (getRelatedAccount_errorsIn hP t).bind fun a _ => ?_) _
    exact (errorsIn_failIf.2 fun _ => hP _ rfl).bind fun _ _ => errorsIn_ok _ _
  have hsegments {d : Dispatch H} (hd : traces.foldlM dispatch Dispatch.init = .ok d) :
      ErrorsIn P (d.traceByAccount.forM (checkSegment hs)) ↔ ∀ l, Reached (checkSegment hs) d.traceByAccount l →
        ∀ q, Reached (checkSplice hs) (splices [] (readLast l)) q → ErrorsIn P (checkSplice hs q) := by
    rw [errorsIn_forM]
    refine forall_congr' fun l => imp_congr_right fun hl => ?_
    obtain ⟨hne, hok⟩ := haccepted.segment hd hl.mem
    rw [(checkSegment_eq hne hok).1, errorsIn_forM]
  have hworld {d : Dispatch H} (hd : traces.foldlM dispatch Dispatch.init = .ok d) :
    d.traceWs = worldTraces traces := by
    obtain ⟨accounts, -, hd⟩ := segmented_of_foldlM hd
    exact hd.worldState
  rw [checkTraces, failIf_of_not hne, ok_bind, errorsIn_bind, and_iff_right hdispatch]
  constructor
  · refine fun h => ⟨?_, ?_⟩
    · rintro q ⟨d, l, hd, hl, hq⟩
      exact (hsegments hd).1 (errorsIn_bind.1 (h d hd)).1 l hl q hq
    · rintro ⟨d, hd, hok⟩
      exact hworld hd ▸ (errorsIn_bind.1 (h d hd)).2 () hok
  · rintro ⟨hsplices, hstate⟩ d hd
    refine errorsIn_bind.2 ⟨(hsegments hd).2 fun l hl q hq => hsplices q ⟨d, l, hd, hl, hq⟩, fun _ hok => ?_⟩
    exact hworld hd ▸ hstate ⟨d, hd, hok⟩

theorem ReachesSplice.missing (haccepted : Accepted hs traces) {q : List (StorageAccess H) × AccountTrace H}
    (h : ReachesSplice hs traces q) : kind q.2 = .readZero → q.1 = [] := by
  obtain ⟨d, l, hd, hl, hq⟩ := h
  obtain ⟨hne, hok⟩ := haccepted.segment hd hl.mem
  exact (checkSegment_eq hne hok).2 q hq.mem

omit [BoundedOrder H] in
theorem Accepted.worldTraces_ne (haccepted : Accepted hs traces) (hne : traces ≠ []) {d : Dispatch H}
    (hd : traces.foldlM dispatch Dispatch.init = .ok d) : worldTraces traces ≠ [] := by
  obtain ⟨accounts, hsome, hd⟩ := segmented_of_foldlM hd
  obtain ⟨a, ha⟩ := exists_mem_of_ne_nil _ (hsome hne)
  have hnonempty := (hd.nonempty a).1 ha
  obtain ⟨runs, hfollows⟩ := follows_of_accepted hnonempty (haccepted a hnonempty)
  obtain ⟨t, ht⟩ := hfollows.exists_ws
  exact ne_nil_of_mem (mem_worldTraces.2 (mem_filter.1 ht).1)

/-! ### All panics -/

theorem checkSplice_explained (hempty : ∃ empty, emptyStorageTrieHash hs = .ok empty)
    {q : List (StorageAccess H) × AccountTrace H} (hmissing : kind q.2 = .readZero → q.1 = []) :
    ErrorsIn (fun e => e.isExplained = true) (checkSplice hs q) := by
  obtain ⟨run, t⟩ := q
  cases run with
  | nil => exact errorsIn_ok _ _
  | cons first rest =>
    rw [checkSplice, if_pos (cons_ne_nil _ _)]
    refine ErrorsIn.bind ?_ fun p _ => ?_
    · rw [checkSpliceST]
      split
      · exact errorsIn_ok _ _
      · next e v heq => cases e <;> exact errorsIn_error.2 rfl
    · cases t with
      | readZero t => exact absurd (hmissing rfl) (cons_ne_nil _ _)
      | insertion t =>
        obtain ⟨empty, hempty⟩ := hempty
        obtain ⟨old, new⟩ := p
        dsimp only
        rw [checkRoots, hempty, ok_bind]
        exact ErrorsIn.bind (errorsIn_failIf.2 fun _ => rfl) fun _ _ => errorsIn_failIf.2 fun _ => rfl
      | update t => exact errorsIn_failIf.2 fun _ => rfl
      | _ => exact ErrorsIn.bind (errorsIn_failIf.2 fun _ => rfl) fun _ _ => errorsIn_failIf.2 fun _ => rfl

theorem checkProofsWorldState_explained {ts : List (AccountTrace H)} (hne : ts ≠ []) :
    ErrorsIn (fun e => e.isExplained = true) (checkProofsWorldState hs ts) := by
  have hfrom (i : Nat) (ts : List (AccountTrace H)) (vs : VerifierState H) (err : List (WorldStateError H)) :
      ErrorsIn (fun e => e.isExplained = true) (checkWorldStateFrom hs i ts vs err) := by
    induction ts generalizing i vs err with
    | nil => exact errorsIn_ok _ _
    | cons t ts ih =>
      refine ErrorsIn.bind ?_ fun r _ => ih _ _ _
      rw [checkWorldStateAt]
      split
      · exact errorsIn_ok _ _
      · exact errorsIn_error.2 rfl
      · exact errorsIn_ok _ _
  obtain ⟨first, rest, rfl⟩ := exists_cons_of_ne_nil hne
  rw [checkProofsWorldState]
  exact (hfrom _ _ _ _).bind fun r _ => ErrorsIn.bind (errorsIn_failIf.2 fun _ => rfl) fun _ _ => errorsIn_ok _ _

/-- The panics on accepted traces are those on a changed storage root and those of the Merkle verifier, and there is
none exactly if, in what is reached, the storage traces before the read or the deletion of an account keep the root and
the paths fit. -/
theorem checkTraces_panics (hs : StateHashes H) (hempty : ∃ empty, emptyStorageTrieHash hs = .ok empty)
    (traces : List (DecodedTrace H)) (hne : traces ≠ []) (haccepted : Accepted hs traces) :
    (∀ e, checkTraces hs traces = .error e → e.isPanic = true → e.isRootPanic = true ∨ e.isMerklePanic = true) ∧
    ((∀ e, checkTraces hs traces = .error e → e.isPanic = false) ↔ RootsKept hs traces ∧ PathsFit hs traces) := by
  have hworld : ReachesWorldState hs traces → worldTraces traces ≠ [] := by
    rintro ⟨d, hd, -⟩
    exact haccepted.worldTraces_ne hne hd
  constructor
  · intro e he hpanic
    have hexplained := (checkTraces_errorsIn (P := fun e => e.isExplained = true)
      (fun e he => by simp [Error.isExplained, he])
      hne haccepted).2 ⟨fun q hq => checkSplice_explained hempty (hq.missing haccepted),
        fun h => checkProofsWorldState_explained (hworld h)⟩ e he
    simpa [Error.isExplained, hpanic] using hexplained
  · refine (checkTraces_errorsIn (fun _ => id) hne haccepted).trans ?_
    rw [PathsFit, ← and_assoc]
    refine and_congr ?_ (imp_congr_right fun h => checkProofsWorldState_noPanic (hworld h))
    rw [RootsKept, ← forall_and]
    refine forall_congr' fun q => ?_
    rw [← imp_and]
    exact imp_congr_right fun hq => checkSplice_noPanic hempty (hq.missing haccepted)

/-! ### Segments of the zero address -/

omit [BoundedOrder H] in
theorem accepted_of_account {moved : List (DecodedTrace H)} (h : ∀ t ∈ traces, t.getRelatedAccount = .ok a)
    (hok : inspectPattern hs traces = .ok moved) : Accepted hs traces := by
  intro b hb
  by_cases hab : b = a
  · rw [hab, segment_eq_self h]
    exact ⟨moved, hok⟩
  · exact absurd (segment_eq_nil h hab) hb

section ZeroAddress

variable [Nontrivial H]

theorem checkSpliceST_slotInsert (hh : hs.storage.Honest) (slot value : FullBytes32) :
    ∃ root, checkSpliceST hs [slotInsert hs slot value] = .ok (emptyRoot hs, hs.top 3 root) := by
  have hnext : (bootstrapVerifierStateFromST (slotInsert hs slot value)).nextFreeNode = 2 := by
    show addInt64 (addInt64 2 1) (-1) = 2
    decide
  have hins : (bootstrapVerifierStateFromST (slotInsert hs slot value)).verifyInsertion hs.storage
      (insertionTrace hs.storage zeroLocation 2 Contents.empty.cell 0 1 .head .tail slot value) = (.ok (), _) :=
    verifyInsertion_insertionTrace rfl hnext rfl rfl rfl (inTree_of_le (by omega)) (inTree_of_le (by omega))
      (inTree_of_le (by omega)) (by omega) rfl rfl (bot_lt_iff_ne_bot.2 (hh.key_ne_bot slot))
      (lt_top_iff_ne_top.2 (hh.key_ne_top slot))
  have hverify : (bootstrapVerifierStateFromST (slotInsert hs slot value)).verify hs.storage
    (slotInsert hs slot value).trace =
      (.ok (), _) := hins
  have hsplice := checkSpliceST_singleton hverify
  have hold : topRoot hs (bootstrapVerifierStateFromST (slotInsert hs slot value)) = emptyRoot hs := by
    rw [topRoot, hnext]
    rfl
  have hthree : addInt64 2 1 = 3 := by decide
  rw [hold, topRoot, hthree] at hsplice
  exact ⟨_, hsplice⟩

def writeInDeletion (hs : StateHashes H) : List (DecodedTrace H) :=
  [.st (slotInsert hs 5 7), .ws (deleteAccount hs (accountAt (emptyRoot hs)))]

theorem checkTraces_changed (hh : hs.storage.Honest) (htop : ∀ root root', hs.top 2 root ≠ hs.top 3 root') :
    checkTraces hs (writeInRead hs) = .error .readUpdated ∧
    checkTraces hs (writeInDeletion hs) = .error .deletionUpdated := by
  obtain ⟨root, hsplice⟩ := checkSpliceST_slotInsert hh 5 7
  have hne : emptyRoot hs ≠ hs.top 3 root := htop _ _
  constructor
  · refine checkTraces_pair addressFromHex_zeroLocation rfl hsplice ?_
    rw [readAccount, checkRoots, failIf_of hne, error_bind, error_bind]
  · refine checkTraces_pair addressFromHex_zeroLocation rfl hsplice ?_
    rw [deleteAccount, checkRoots, failIf_of hne, error_bind, error_bind]

end ZeroAddress

/-- A read of an account with a path and no siblings. -/
def longPathTrace (hs : StateHashes H) : ReadNonZeroTrace Address (Account H) H :=
  { readNonZeroTrace hs.account wsLocation 3 (onlyAccount hs Account.zero) 2
    (onlyLeaf hs Account.zero) 0 Account.zero with
    proof := ⟨1, []⟩ }

theorem readNonZeroVerify_longPath (hs : StateHashes H) :
    (bootstrapVerifierStateFromWS (.readNonZero (longPathTrace hs))).readNonZeroVerify hs.account (longPathTrace hs) =
      .error (.panic .idxNotZero) := by
  have hheader : (bootstrapVerifierStateFromWS (.readNonZero (longPathTrace hs))).checkHeader
    (longPathTrace hs).location
      (longPathTrace hs).subRoot = (.ok () : Except (Failure Address H) Unit) := checkHeader_eq_ok.2 ⟨rfl, rfl⟩
  have hleaf : KVOpeningTuple.checkAndLeaf hs.account
      ⟨(longPathTrace hs).leafOpening, (longPathTrace hs).key, (longPathTrace hs).value⟩ = .ok
        (hs.account.leaf (longPathTrace hs).leafOpening) :=
    KVOpeningTuple.checkAndLeaf_eq_ok.2 ⟨fun _ => ⟨rfl, rfl⟩, rfl⟩
  have hproof (leaf root : H) : checkProof hs.account .merkleProof (longPathTrace hs).proof leaf root = .error
    (.panic .idxNotZero) := rfl
  rw [readNonZeroVerify, auditOpening, hheader, ok_bind, hleaf]
  dsimp only
  rw [hproof, error_bind, error_bind]

theorem checkTraces_longPath (hs : StateHashes H) :
    checkTraces hs [.ws (.readNonZero (longPathTrace hs))] = .error (.accountPanic .idxNotZero) := by
  have hd : [DecodedTrace.ws (.readNonZero (longPathTrace hs))].foldlM dispatch Dispatch.init =
      .ok ⟨[[.ws (.readNonZero (longPathTrace hs))]], [.readNonZero (longPathTrace hs)], [0], some 0⟩ := rfl
  have hsegment : checkSegment hs [.ws (.readNonZero (longPathTrace hs))] = .ok () := rfl
  have hverify : (bootstrapVerifierStateFromWS (.readNonZero (longPathTrace hs))).verify hs.account
    (.readNonZero (longPathTrace hs)) =
      (.error (.panic .idxNotZero), bootstrapVerifierStateFromWS (.readNonZero (longPathTrace hs))) :=
    Prod.ext (readNonZeroVerify_longPath hs) rfl
  rw [checkTraces, failIf_of_not (cons_ne_nil _ _), ok_bind, hd, ok_bind]
  simp only [List.forM, hsegment, ok_bind, pure_eq_ok, checkProofsWorldState, checkWorldStateFrom,
    checkWorldStateAt, hverify,
    throw_eq_error, error_bind]

theorem natStateHashes_top_ne (root root' : WithTop Nat) : natStateHashes.top 2 root ≠ natStateHashes.top 3 root' := by
  intro h
  have hcode : topCode 2 root + 1 = topCode 3 root' + 1 := WithTop.coe_injective h
  have hpair := Encodable.encode_injective (Nat.succ.inj hcode)
  exact absurd (congrArg Prod.fst hpair) (show (2 : Int) ≠ 3 by decide)

/-- Storage writes before the read and before the deletion of an account pass the inspection of the patterns, and so
does a Merkle proof with a path that is too long; each is a panic. -/
theorem checkTraces_panics_unmet :
    (Accepted natStateHashes (writeInRead natStateHashes) ∧
      checkTraces natStateHashes (writeInRead natStateHashes) = .error .readUpdated) ∧
    (Accepted natStateHashes (writeInDeletion natStateHashes) ∧
      checkTraces natStateHashes (writeInDeletion natStateHashes) = .error .deletionUpdated) ∧
    Accepted natStateHashes [.ws (.readNonZero (longPathTrace natStateHashes))] ∧
      checkTraces natStateHashes [.ws (.readNonZero (longPathTrace natStateHashes))] =
        .error (.accountPanic .idxNotZero) := by
  have hchanged := checkTraces_changed (bitVecHashes_honest 256 _) natStateHashes_top_ne
  refine ⟨⟨accepted_of_account (account_pair addressFromHex_zeroLocation rfl) rfl, hchanged.1⟩,
    ⟨accepted_of_account (account_pair addressFromHex_zeroLocation rfl) rfl, hchanged.2⟩, ?_,
    checkTraces_longPath natStateHashes⟩
  exact accepted_of_account (forall_mem_singleton.2 rfl) rfl

/-- The creation of an account after the read of an empty slot returns. -/
theorem checkTraces_panics_creation :
    Accepted natStateHashes (creation natStateHashes) ∧ RootsKept natStateHashes (creation natStateHashes) ∧
      PathsFit natStateHashes (creation natStateHashes) := by
  have hst : natStateHashes.storage.Honest := bitVecHashes_honest 256 _
  obtain ⟨roots, hok⟩ := checkTraces_creation natStateHashes hst (bitVecHashes_honest 160 _)
  have haccepted : Accepted natStateHashes (creation natStateHashes) :=
    accepted_of_account (account_pair addressFromHex_zeroLocation rfl) rfl
  have hpanics := checkTraces_panics natStateHashes ⟨_, emptyStorageTrieHash_eq hst⟩ _ (cons_ne_nil _ _) haccepted
  refine ⟨haccepted, hpanics.2.1 fun e he => ?_⟩
  cases hok.symm.trans he

end Lineth.StateManager
