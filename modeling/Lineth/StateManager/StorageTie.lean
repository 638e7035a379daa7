import Lineth.Accumulator.Run
import Lineth.StateManager.ProofChecks

/-!
# How the storage roots of the accounts are tied to the world state

`segment` and `splices` say which storage traces belong to a trace of the world state, `Replays` what replaying them
means, and `Tied` what one expects of the storage roots of an account. `CheckTraces` asks for less (`TiedByDesign`): a
trace of the world state without storage traces is not looked at, nor is the root of a deleted account that the trace
leaves out. -/

namespace Lineth.StateManager

open Accumulator Except List

variable {H : Type}

/-! ### What is expected -/

def segment (a : Address) (traces : List (DecodedTrace H)) : List (DecodedTrace H) :=
  traces.filter fun t => t.getRelatedAccount.toOption = some a

/-- Shomei may place the read of an account before its storage traces. -/
def readLast : List (DecodedTrace H) → List (DecodedTrace H)
  | .ws (.readNonZero t) :: rest => rest ++ [.ws (.readNonZero t)]
  | traces => traces

/-- Every trace of the world state, with the storage traces since the previous one. -/
def splices : List (StorageAccess H) → List (DecodedTrace H) → List (List (StorageAccess H) × AccountTrace H)
  | _, [] => []
  | curr, .st a :: rest => splices (curr ++ [a]) rest
  | curr, .ws t :: rest => (curr, t) :: splices [] rest

/-! ### The segments -/

theorem segment_append (a : Address) (p : List (DecodedTrace H)) {t : DecodedTrace H} {b : Address}
    (hb : t.getRelatedAccount = .ok b) :
    segment a (p ++ [t]) = if b = a then segment a p ++ [t] else segment a p := by
  have hopt : t.getRelatedAccount.toOption = some b := by rw [hb]; rfl
  by_cases hba : b = a
  · rw [if_pos hba, segment, filter_append, filter_cons_of_pos (by simp [hopt, hba]), filter_nil, segment]
  · rw [if_neg hba, segment, filter_append, filter_cons_of_neg (by simp [hopt, hba]), filter_nil,
      append_nil, segment]

theorem pushLast_append (before : List (List (DecodedTrace H))) (l : List (DecodedTrace H)) (t : DecodedTrace H) :
    pushLast (before ++ [l]) t = before ++ [l ++ [t]] := by
  simp [pushLast]

def worldTraces (traces : List (DecodedTrace H)) : List (AccountTrace H) :=
  traces.filterMap fun
    | .ws t => some t
    | .st _ => none

variable {traces : List (DecodedTrace H)} {t : AccountTrace H}

theorem mem_worldTraces : t ∈ worldTraces traces ↔ .ws t ∈ traces := by
  rw [worldTraces, mem_filterMap]
  constructor
  · rintro ⟨x, hx, hxt⟩
    cases x with
    | ws t' =>
      cases hxt
      exact hx
    | st a => cases hxt
  · exact fun h => ⟨_, h, rfl⟩

theorem dispatch_traceWs {d d' : Dispatch H} {t : DecodedTrace H} (hd : dispatch d t = .ok d') :
    d'.traceWs = d.traceWs ++ worldTraces [t] := by
  simp only [dispatch, bind_eq_ok, failIf_eq_ok, pure_eq_ok, ok.injEq, exists_const] at hd
  obtain ⟨b, -, -, rfl⟩ := hd
  cases t with
  | ws t => rfl
  | st a => exact (append_nil _).symm

/-- The dispatch after the traces `p`, with the accounts in the order of their segments. -/
structure Segmented (p : List (DecodedTrace H)) (d : Dispatch H) (accounts : List Address) : Prop where
  nodup : accounts.Nodup
  segments : d.traceByAccount = accounts.map (segment · p)
  prev : d.prevAddress = accounts.getLast?
  found : ∀ a, a ∈ d.alreadyFoundAcc ↔ a ∈ accounts
  nonempty : ∀ a, a ∈ accounts ↔ segment a p ≠ []
  worldState : d.traceWs = worldTraces p

theorem Segmented.step {p : List (DecodedTrace H)} {d d' : Dispatch H} {accounts : List Address} {t : DecodedTrace H}
    (h : Segmented p d accounts) (hd : dispatch d t = .ok d') : ∃ accounts', accounts' ≠ [] ∧
      Segmented (p ++ [t]) d' accounts' := by
  have hws : d'.traceWs = worldTraces (p ++ [t]) := by
    rw [dispatch_traceWs hd, h.worldState]
    exact filterMap_append.symm
  simp only [dispatch, bind_eq_ok, failIf_eq_ok, pure_eq_ok, ok.injEq, exists_const] at hd
  obtain ⟨b, hb, hseg, rfl⟩ := hd
  have hother {a : Address} (hab : a ≠ b) : segment a (p ++ [t]) = segment a p := by
    rw [segment_append a p hb, if_neg (Ne.symm hab)]
  have hb' : segment b (p ++ [t]) = segment b p ++ [t] := by rw [segment_append b p hb, if_pos rfl]
  by_cases hprev : d.prevAddress = some b
  · -- the trace continues the last segment
    obtain ⟨before, hbefore⟩ := getLast?_eq_some_iff.1 (h.prev.symm.trans hprev)
    have hnot : b ∉ before := by
      have hnodup := h.nodup
      rw [hbefore] at hnodup
      exact fun hmem => (nodup_append.1 hnodup).2.2 b hmem b (mem_singleton_self b) rfl
    have hmem : b ∈ accounts := by
      rw [hbefore]
      exact mem_append_right _ (mem_singleton_self b)
    refine ⟨accounts, ne_nil_of_mem hmem, h.nodup, ?_, ?_, fun a => ?_, fun a => ?_, hws⟩
    · rw [if_neg (not_not_intro hprev), h.segments, hbefore, map_append, map_append, map_singleton, map_singleton,
        pushLast_append, ← hb']
      exact congrArg (· ++ _) (map_congr_left fun a ha => (hother fun hab => hnot (hab ▸ ha)).symm)
    · exact hprev.symm.trans h.prev
    · rw [mem_cons, h.found]
      exact ⟨fun ha => ha.elim (fun hab => hab ▸ hmem) id, .inr⟩
    · by_cases hab : a = b
      · rw [hab, hb']
        exact iff_of_true hmem (by simp)
      · rw [hother hab, h.nonempty]
  · -- a new account: it has no trace so far
    have hnot : b ∉ accounts := fun hmem => hseg ⟨(h.found b).2 hmem, hprev⟩
    have hempty : segment b p = [] := not_not.1 fun hne => hnot ((h.nonempty b).2 hne)
    refine ⟨accounts ++ [b], by simp, ?_, ?_, ?_, fun a => ?_, fun a => ?_, hws⟩
    · exact nodup_append.2 ⟨h.nodup, nodup_singleton b, fun a ha c hc hac => hnot (mem_singleton.1 hc ▸ hac ▸ ha)⟩
    · rw [if_pos hprev, pushLast_append, h.segments, map_append, map_singleton, hb', hempty]
      exact congrArg (· ++ _) (map_congr_left fun a ha => (hother fun hab => hnot (hab ▸ ha)).symm)
    · exact getLast?_concat.symm
    · rw [mem_cons, h.found, mem_append, mem_singleton, or_comm]
    · by_cases hab : a = b
      · rw [hab, hb']
        exact iff_of_true (mem_append_right _ (mem_singleton_self b)) (by simp)
      · rw [hother hab, mem_append, mem_singleton, or_iff_left hab, h.nonempty]

theorem segmented_of_foldlM {d : Dispatch H} (hd : traces.foldlM dispatch Dispatch.init = .ok d) :
    ∃ accounts, (traces ≠ [] → accounts ≠ []) ∧ Segmented traces d accounts := by
  refine foldlM_visited (fun p d => ∃ accounts, (p ≠ [] → accounts ≠ []) ∧ Segmented p d accounts) ?_ ?_ hd
  · exact ⟨[], fun h => absurd rfl h, nodup_nil, rfl, rfl, fun a => Iff.rfl,
      fun a => iff_of_false not_mem_nil (not_not_intro rfl), rfl⟩
  · rintro p t d d' ⟨accounts, -, h⟩ hstep
    obtain ⟨accounts', hne, h'⟩ := h.step hstep
    exact ⟨accounts', fun _ => hne, h'⟩

/-! ### The patterns -/

theorem readLast_eq (h : wsKind traces.head? ≠ some .readNonZero) : readLast traces = traces := by
  rcases traces with _ | ⟨(_ | _ | _ | _ | _) | _, rest⟩
  case cons.ws.readNonZero => exact absurd rfl h
  all_goals rfl

theorem readLast_singleton (t : DecodedTrace H) : readLast [t] = [t] := by
  rcases t with (_ | _ | _ | _ | _) | _ <;> rfl

theorem readLast_move (h : wsKind traces.head? = some .readNonZero) :
    readLast traces = traces.tail ++ traces.take 1 := by
  rcases traces with _ | ⟨(_ | _ | _ | _ | _) | _, rest⟩ <;> first | rfl | cases h

theorem readLast_eq_self (h : wsKind traces.head? = some .readNonZero → traces.length = 1) :
    readLast traces = traces := by
  by_cases hfirst : wsKind traces.head? = some .readNonZero
  · obtain ⟨t, rfl⟩ := length_eq_one_iff.1 (h hfirst)
    exact readLast_singleton t
  · exact readLast_eq hfirst

/-- A segment that begins with a trace of the world state and has no other one before its end. -/
theorem length_eq_one_of_scanStorage {allowed : Kind → Bool} {err err' : List Kind} {k : Kind}
    (h : scanStorage allowed err traces.dropLast = .inr err') (hk : wsKind traces.head? = some k) :
    traces.length = 1 := by
  rcases traces with _ | ⟨t, _ | ⟨t', rest⟩⟩
  · cases hk
  · rfl
  · cases t with
    | st a => cases hk
    | ws t =>
      rw [dropLast_cons_cons, scanStorage] at h
      cases h

variable {a : Address}

theorem segment_ws (ha : traceKey t = a) : segment a [.ws t] = [.ws t] :=
  filter_cons_of_pos (decide_eq_true (congrArg some ha))

theorem splices_lone (ha : traceKey t = a) :
    splices [] (readLast (segment a [.ws t])) = [([], t)] := by
  rw [segment_ws ha, readLast_singleton]
  rfl

theorem splices_pair {s : StorageAccess H} (hs : addressFromHex s.location = some a)
    (ha : traceKey t = a) : splices [] (readLast (segment a [.st s, .ws t])) = [([s], t)] := by
  have hst : (DecodedTrace.st s).getRelatedAccount.toOption = some a := by
    rw [DecodedTrace.getRelatedAccount, hs]
    rfl
  have hsegment : segment a [.st s, .ws t] = .st s :: segment a [.ws t] := filter_cons_of_pos (decide_eq_true hst)
  rw [hsegment, segment_ws ha]
  rfl

theorem isMissingAccRead_eq_true (h : isMissingAccRead traces = .ok true) :
    wsKind traces.head? = some .readZero := by
  simp only [isMissingAccRead, bind_eq_ok, failIf_eq_ok, exists_const] at h
  obtain ⟨-, h⟩ := h
  split at h
  · rename_i hfirst
    exact hfirst.1
  · obtain ⟨_, -, h⟩ := bind_eq_ok.1 h
    cases h

variable [LinearOrder H] {hs : StateHashes H}

theorem isAccCreation_eq_true {k : Kind} (h : isAccCreation hs traces = .ok true)
    (hk : wsKind traces.head? = some k) : traces.length = 1 := by
  simp only [isAccCreation, bind_eq_ok, failIf_eq_ok, exists_const] at h
  obtain ⟨-, h⟩ := h
  split at h
  · cases h
  split at h
  · assumption
  split at h
  · cases h
  · rename_i err hscan
    exact length_eq_one_of_scanStorage hscan hk

theorem isAccDeletion_eq_true {k : Kind} (h : isAccDeletion hs traces = .ok true)
    (hk : wsKind traces.head? = some k) : traces.length = 1 := by
  simp only [isAccDeletion, bind_eq_ok, failIf_eq_ok, exists_const] at h
  obtain ⟨-, h⟩ := h
  split at h
  · cases h
  split at h
  · assumption
  obtain ⟨_, hpart, -⟩ := bind_eq_ok.1 h
  rw [checkStoragePart] at hpart
  split at hpart
  · cases hpart
  · rename_i err hscan
    exact length_eq_one_of_scanStorage hscan hk

theorem isAccRead_eq_ok {moved? : Option (List (DecodedTrace H))}
    (h : isAccRead hs traces = .ok moved?) :
    moved? = some (readLast traces) ∨ moved? = none ∧ wsKind traces.head? ≠ some .readNonZero := by
  simp only [isAccRead, bind_eq_ok, failIf_eq_ok, exists_const] at h
  obtain ⟨-, h⟩ := h
  split at h
  · rename_i hnot
    cases h
    exact .inr ⟨rfl, hnot.1⟩
  simp only [bind_eq_ok, failIf_eq_ok, exists_const] at h
  obtain ⟨-, h⟩ := h
  left
  split at h
  · rename_i hlen
    cases h
    rw [readLast_eq_self fun _ => hlen]
  obtain ⟨_, -, h⟩ := bind_eq_ok.1 h
  cases h
  by_cases hfirst : wsKind traces.head? = some .readNonZero
  · rw [if_pos hfirst, readLast_move hfirst]
  · rw [if_neg hfirst, readLast_eq hfirst]

/-- After a leading read of the account no other pattern is matched. -/
theorem inspectPattern_eq_ok {traces moved : List (DecodedTrace H)} (h : inspectPattern hs traces = .ok moved) :
    moved = readLast traces := by
  simp only [inspectPattern, bind_eq_ok] at h
  obtain ⟨missing, hmissing, h⟩ := h
  split at h
  · rename_i hm
    subst hm
    cases h
    exact (readLast_eq_self fun hk => absurd (hk.symm.trans (isMissingAccRead_eq_true hmissing)) (by decide)).symm
  simp only [bind_eq_ok] at h
  obtain ⟨creation, hcreation, h⟩ := h
  split at h
  · rename_i hc
    subst hc
    cases h
    exact (readLast_eq_self (isAccCreation_eq_true hcreation)).symm
  simp only [bind_eq_ok] at h
  obtain ⟨deletion, hdeletion, h⟩ := h
  split at h
  · rename_i hd
    subst hd
    cases h
    exact (readLast_eq_self (isAccDeletion_eq_true hdeletion)).symm
  simp only [bind_eq_ok] at h
  obtain ⟨moved?, hread, h⟩ := h
  rcases isAccRead_eq_ok hread with rfl | ⟨rfl, hfirst⟩
  · exact (ok.inj h).symm
  -- the last two patterns leave the segment as it is
  rw [readLast_eq hfirst]
  simp only [bind_eq_ok] at h
  obtain ⟨update, -, h⟩ := h
  split at h
  · exact (ok.inj h).symm
  simp only [bind_eq_ok] at h
  obtain ⟨redeploy, -, h⟩ := h
  split at h
  · exact (ok.inj h).symm
  · cases h

/-! ### The replay -/

variable [BoundedOrder H]

section

variable (hs : StateHashes H) (sts : List (StorageAccess H))

/-- Replaying the storage traces leads from the root `old` to the root `new`. -/
def Replays (old new : H) : Prop :=
  if sts = [] then old = new
  else ∃ v v', v.verifyAll hs.storage (sts.map StorageAccess.trace) = (.ok (), v') ∧
    topRoot hs v = old ∧ topRoot hs v' = new

/-- What is expected of a trace of the world state after these storage traces. -/
def Tied : AccountTrace H → Prop
  | .update t => Replays hs sts t.oldValue.storageRoot t.newValue.storageRoot
  | .insertion t => ∃ empty, emptyStorageTrieHash hs = .ok empty ∧ Replays hs sts empty t.val.storageRoot
  | .readNonZero t => sts ≠ [] → Replays hs sts t.value.storageRoot t.value.storageRoot
  | .deletion t => sts ≠ [] → Replays hs sts t.deletedValue.storageRoot t.deletedValue.storageRoot
  | .readZero _ => True

/-- What `CheckTraces` guarantees of it: nothing without storage traces, and of a deletion that leaves the
account out only that the storage traces did not change the root. -/
def TiedByDesign (t : AccountTrace H) : Prop :=
  sts ≠ [] →
    match t with
    | .deletion t =>
      ∃ root, Replays hs sts root root ∧ (t.deletedValue ≠ Account.zero → t.deletedValue.storageRoot = root)
    | t => Tied hs sts t

end

/-- The state that a trace is about. -/
def claimedState {K V : Type} : Trace K V H → VerifierState H
  | .insertion t => ⟨t.location, t.proofNew.path, t.oldSubRoot⟩
  | .update t => ⟨t.location, t.newNextFreeNode, t.oldSubRoot⟩
  | .deletion t => ⟨t.location, t.newNextFreeNode, t.oldSubRoot⟩
  | .readNonZero t => ⟨t.location, t.nextFreeNode, t.subRoot⟩
  | .readZero t => ⟨t.location, t.nextFreeNode, t.subRoot⟩

theorem eq_claimedState {K V : Type} {hs : Hashes K V H} {v v' : VerifierState H} {t : Trace K V H}
    (h : v.verify hs t = (.ok (), v')) : v = claimedState t := by
  obtain ⟨hchecks, hroot, -⟩ := (VerifierState.verify_iff t).1 h
  have heq : ∀ {location : String} {n : Int}, v.location = location → v.nextFreeNode = n →
    v = ⟨location, n, t.oldRoot⟩ := by
    rintro location n rfl rfl
    rw [hroot]
  cases t with
  | insertion t => exact heq hchecks.1 hchecks.2.1.symm
  | deletion t => exact heq hchecks.1 hchecks.2.2.2.2.2
  | _ => exact heq hchecks.1 hchecks.2.2

variable {sts : List (StorageAccess H)}

theorem Replays.unique {old new old' new' : H} (hne : sts ≠ []) (h : Replays hs sts old new)
    (h' : Replays hs sts old' new') : old = old' ∧ new = new' := by
  rw [Replays, if_neg hne] at h h'
  obtain ⟨v, v', hv, rfl, rfl⟩ := h
  obtain ⟨w, w', hw, rfl, rfl⟩ := h'
  have hvw : v = w := by
    cases sts with
    | nil => exact absurd rfl hne
    | cons a sts =>
      rw [map_cons, VerifierState.verifyAll] at hv hw
      split at hv
      · split at hw
        · rename_i h₁ _ _ _ h₂
          exact (eq_claimedState h₁).trans (eq_claimedState h₂).symm
        · cases hw
      · cases hv
  subst hvw
  rw [hv] at hw
  cases hw
  exact ⟨rfl, rfl⟩

variable {old new : H}

theorem checkSpliceST_eq_ok (h : checkSpliceST hs sts = .ok (old, new)) :
    Replays hs sts old new := by
  cases sts with
  | nil => cases h
  | cons first rest =>
    rw [Replays, if_neg (cons_ne_nil _ _)]
    rw [checkSpliceST] at h
    split at h
    · rename_i vs' hvs
      cases h
      exact ⟨_, vs', hvs, rfl, rfl⟩
    · cases h

theorem checkRoots_eq_ok (hr : Replays hs sts old new)
    (h : checkRoots hs old new t = .ok ()) : TiedByDesign hs sts t := by
  intro hne
  cases t with
  | readNonZero t =>
    simp only [checkRoots, bind_eq_ok, failIf_eq_ok, not_not, exists_const] at h
    obtain ⟨rfl, hroot⟩ := h
    intro _
    rw [hroot]
    exact hr
  | readZero t => trivial
  | insertion t =>
    simp only [checkRoots, bind_eq_ok, failIf_eq_ok, not_not, exists_const] at h
    obtain ⟨empty, hempty, rfl, rfl⟩ := h
    exact ⟨_, hempty, hr⟩
  | update t =>
    simp only [checkRoots, failIf_eq_ok, not_or, not_not] at h
    obtain ⟨rfl, rfl⟩ := h
    exact hr
  | deletion t =>
    simp only [checkRoots, bind_eq_ok, failIf_eq_ok, not_not, exists_const, not_and] at h
    obtain ⟨rfl, hroot⟩ := h
    exact ⟨_, hr, hroot⟩

theorem checkProofsForAccount_eq_ok {curr : List (StorageAccess H)}
    (h : checkProofsForAccount hs curr traces = .ok ()) : ∀ p ∈ splices curr traces, TiedByDesign hs p.1 p.2 := by
  induction traces generalizing curr with
  | nil => exact fun p hp => absurd hp not_mem_nil
  | cons t rest ih =>
    cases t with
    | st a => exact ih h
    | ws t =>
      rw [splices, forall_mem_cons]
      rw [checkProofsForAccount] at h
      by_cases hcurr : curr = []
      · rw [if_neg (not_not.2 hcurr)] at h
        exact ⟨fun hne => absurd hcurr hne, ih h⟩
      · rw [if_pos hcurr] at h
        simp only [bind_eq_ok] at h
        obtain ⟨⟨old, new⟩, hsplice, _, hroots, hrest⟩ := h
        exact ⟨checkRoots_eq_ok (checkSpliceST_eq_ok hsplice) hroots, ih hrest⟩

/-! ### The result -/

/-- When `CheckTraces` succeeds, the storage roots of the accounts are those of their storage traces: before and after
them for an updated account, from the empty trie for an inserted one, at their root for one that is read or deleted. -/
theorem checkTraces_tied (hs : StateHashes H) (traces : List (DecodedTrace H)) (roots : H × H)
    (h : checkTraces hs traces = .ok roots) (a : Address) :
    ∀ p ∈ splices [] (readLast (segment a traces)), TiedByDesign hs p.1 p.2 := by
  by_cases hempty : segment a traces = []
  · rw [hempty]
    exact fun p hp => absurd hp not_mem_nil
  simp only [checkTraces, bind_eq_ok, failIf_eq_ok, exists_const] at h
  obtain ⟨-, d, hd, _, hsegments, -⟩ := h
  obtain ⟨accounts, -, hd⟩ := segmented_of_foldlM hd
  have hmem : segment a traces ∈ d.traceByAccount := by
    rw [hd.segments]
    exact mem_map_of_mem ((hd.nonempty a).2 hempty)
  have hsegment := forM_eq_ok.1 hsegments _ hmem
  obtain ⟨moved, hpattern, hproofs⟩ := bind_eq_ok.1 hsegment
  rw [← inspectPattern_eq_ok hpattern]
  exact checkProofsForAccount_eq_ok hproofs

/-! ### Accepted traces -/

theorem checkSpliceST_singleton {a : StorageAccess H} {v : VerifierState H}
    (h : (bootstrapVerifierStateFromST a).verify hs.storage a.trace = (.ok (), v)) :
    checkSpliceST hs [a] = .ok (topRoot hs (bootstrapVerifierStateFromST a), topRoot hs v) := by
  simp only [checkSpliceST, map_cons, map_nil, VerifierState.verifyAll, h, pure_eq_ok]

theorem checkProofsWorldState_singleton {v : VerifierState H}
    (h : (bootstrapVerifierStateFromWS t).verify hs.account t = (.ok (), v)) :
    checkProofsWorldState hs [t] = .ok (topRoot hs (bootstrapVerifierStateFromWS t), topRoot hs v) := by
  simp only [checkProofsWorldState, checkWorldStateFrom, checkWorldStateAt, head?_nil, Option.map_none, h,
    pure_eq_ok, ok_bind, failIf, ne_eq, not_true_eq_false, if_false]

theorem checkTraces_lone {roots : H × H} (hpattern : inspectPattern hs [.ws t] = .ok [.ws t])
    (hws : checkProofsWorldState hs [t] = .ok roots) : checkTraces hs [.ws t] = .ok roots := by
  have hd : [DecodedTrace.ws t].foldlM dispatch Dispatch.init = .ok ⟨[[.ws t]], [t], [traceKey t],
    some (traceKey t)⟩ := rfl
  have hsegment : checkSegment hs [.ws t] = .ok () := by
    rw [checkSegment, hpattern]
    rfl
  rw [checkTraces, failIf_of_not (cons_ne_nil _ _), ok_bind, hd, ok_bind]
  simp only [List.forM, hsegment, ok_bind, pure_eq_ok, hws]

theorem checkTraces_pair {s : StorageAccess H} {r : Except (Error H) (H × H)}
    (haddress : addressFromHex s.location = some (traceKey t))
    (hpattern : inspectPattern hs [.st s, .ws t] = .ok [.st s, .ws t]) (hsplice : checkSpliceST hs [s] = .ok (old, new))
    (hr : (checkRoots hs old new t >>= fun _ => checkProofsWorldState hs [t]) = r) :
    checkTraces hs [.st s, .ws t] = r := by
  have hst : (DecodedTrace.st s).getRelatedAccount = .ok (traceKey t) := by
    rw [DecodedTrace.getRelatedAccount, haddress, orThrow_some]
  have hwsa : (DecodedTrace.ws t).getRelatedAccount = .ok (traceKey t) := rfl
  have hd : [.st s, .ws t].foldlM dispatch Dispatch.init =
      .ok ⟨[[.st s, .ws t]], [t], [traceKey t, traceKey t], some (traceKey t)⟩ := by
    simp [dispatch, hst, hwsa, Dispatch.init, failIf, pushLast]
  rw [checkTraces, failIf_of_not (cons_ne_nil _ _), ok_bind, hd, ok_bind, ← hr]
  cases hroots : checkRoots hs old new t <;>
    simp [List.forM, checkSegment, hpattern, checkProofsForAccount, hsplice, hroots, failIf]

theorem inTree_of_le {i : Int} (h : 0 ≤ i ∧ i ≤ 3) : InTree i := ⟨h.1, by simp [Smt.defaultDepth]; omega⟩

def zeroLocation : String := String.ofList ('0' :: 'x' :: replicate 40 '0')

theorem addressFromHex_zeroLocation : addressFromHex zeroLocation = some 0 := by
  unfold addressFromHex zeroLocation
  rw [String.toList_ofList]
  decide +kernel

section ZeroAddress

variable [Nontrivial H]

def emptyRoot (hs : StateHashes H) : H := hs.top 2 (rootOf hs.storage Contents.empty.cell)

theorem emptyStorageTrieHash_eq (hh : hs.storage.Honest) : emptyStorageTrieHash hs = .ok (emptyRoot hs) := by
  unfold emptyStorageTrieHash
  obtain ⟨p, hp, htracks⟩ := initializeProverState_spec hh "0x0000000000000000000000000000000000000000"
  rw [hp]
  simp only [htracks.nextFreeNode, htracks.root_eq]
  rfl

def slotRead (hs : StateHashes H) : StorageAccess H where
  location := zeroLocation
  location_ne := by decide +kernel
  trace := .readZero (readZeroTrace hs.storage zeroLocation 2 Contents.empty.cell 0 1 .head .tail 5)

theorem checkSpliceST_slotRead (hh : hs.storage.Honest) :
    checkSpliceST hs [slotRead hs] = .ok (emptyRoot hs, emptyRoot hs) := by
  have hread : (bootstrapVerifierStateFromST (slotRead hs)).readZeroVerify hs.storage
      (readZeroTrace hs.storage zeroLocation 2 Contents.empty.cell 0 1 .head .tail 5) = .ok () :=
    readZeroVerify_readZeroTrace rfl rfl rfl rfl (inTree_of_le (by omega)) (inTree_of_le (by omega))
      rfl rfl (bot_lt_iff_ne_bot.2 (hh.key_ne_bot 5)) (lt_top_iff_ne_top.2 (hh.key_ne_top 5))
  have hverify : (bootstrapVerifierStateFromST (slotRead hs)).verify hs.storage (slotRead hs).trace =
      (.ok (), bootstrapVerifierStateFromST (slotRead hs)) := Prod.ext hread rfl
  exact checkSpliceST_singleton hverify

def insertAccount (hs : StateHashes H) (a : Account H) : AccountTrace H :=
  .insertion (insertionTrace hs.account wsLocation 2 Contents.empty.cell 0 1 .head .tail 0 a)

theorem checkProofsWorldState_insertAccount (hh : hs.account.Honest) (a : Account H) :
    ∃ roots, checkProofsWorldState hs [insertAccount hs a] = .ok roots := by
  have hnext : (bootstrapVerifierStateFromWS (insertAccount hs a)).nextFreeNode = 2 := by
    show addInt64 (addInt64 2 1) (-1) = 2
    decide
  have hins : (bootstrapVerifierStateFromWS (insertAccount hs a)).verifyInsertion hs.account
      (insertionTrace hs.account wsLocation 2 Contents.empty.cell 0 1 .head .tail 0 a) = (.ok (), _) :=
    verifyInsertion_insertionTrace rfl hnext rfl rfl rfl (inTree_of_le (by omega)) (inTree_of_le (by omega))
      (inTree_of_le (by omega)) (by omega) rfl rfl (bot_lt_iff_ne_bot.2 (hh.key_ne_bot 0))
      (lt_top_iff_ne_top.2 (hh.key_ne_top 0))
  exact ⟨_, checkProofsWorldState_singleton hins⟩

/-- The leaf of the only account of a world state, at the zero address, and the leaves of that state. -/
def onlyLeaf (hs : StateHashes H) (a : Account H) : LeafOpening H := ⟨0, 1, hs.account.key 0, hs.account.val a⟩

def onlyAccount (hs : StateHashes H) (a : Account H) : Int → Option (LeafOpening H) :=
  Function.update (Function.update (Function.update (fun _ => none) 0 (some (LeafOpening.head.copyWithNext 2))) 1
    (some (LeafOpening.tail.copyWithPrev 2))) 2 (some (onlyLeaf hs a))

def updateAccount (hs : StateHashes H) (a a' : Account H) : AccountTrace H :=
  .update (updateTrace hs.account wsLocation 3 (onlyAccount hs a) 2 (onlyLeaf hs a) 0 a a')

omit [Nontrivial H] in
theorem checkProofsWorldState_updateAccount (hs : StateHashes H) (a a' : Account H) :
    ∃ roots, checkProofsWorldState hs [updateAccount hs a a'] = .ok roots := by
  have hupd : (bootstrapVerifierStateFromWS (updateAccount hs a a')).updateVerify hs.account
      (updateTrace hs.account wsLocation 3 (onlyAccount hs a) 2 (onlyLeaf hs a) 0 a a') = (.ok (), _) :=
    updateVerify_updateTrace rfl rfl rfl (inTree_of_le (by omega)) fun _ => ⟨rfl, rfl⟩
  exact ⟨_, checkProofsWorldState_singleton hupd⟩

def deleteAccount (hs : StateHashes H) (a : Account H) : AccountTrace H :=
  .deletion (deletionTrace hs.account wsLocation 3 (onlyAccount hs a) 2
    (LeafOpening.head.copyWithNext 2) (onlyLeaf hs a)
    (LeafOpening.tail.copyWithPrev 2) 0 a)

omit [Nontrivial H] in
theorem checkProofsWorldState_deleteAccount (hs : StateHashes H) (a : Account H) :
    ∃ roots, checkProofsWorldState hs [deleteAccount hs a] = .ok roots := by
  have hprev : (onlyLeaf hs a).prev = 0 := rfl
  have hnext : (onlyLeaf hs a).next = 1 := rfl
  have hdel : (bootstrapVerifierStateFromWS (deleteAccount hs a)).verifyDeletion hs.account
      (deletionTrace hs.account wsLocation 3 (onlyAccount hs a) 2 (LeafOpening.head.copyWithNext 2) (onlyLeaf hs a)
        (LeafOpening.tail.copyWithPrev 2) 0 a) = (.ok (), _) :=
    verifyDeletion_deletionTrace rfl rfl rfl rfl rfl (inTree_of_le (by omega)) (inTree_of_le (by omega))
      (inTree_of_le (by omega)) (by omega) (by omega) (by omega) rfl rfl rfl rfl
  exact ⟨_, checkProofsWorldState_singleton hdel⟩

def accountAt (root : H) : Account H := { Account.zero with storageRoot := root }

def creation (hs : StateHashes H) : List (DecodedTrace H) :=
  [.st (slotRead hs), .ws (insertAccount hs (accountAt (emptyRoot hs)))]

theorem checkTraces_creation (hs : StateHashes H) (hst : hs.storage.Honest) (hacc : hs.account.Honest) :
    ∃ roots, checkTraces hs (creation hs) = .ok roots := by
  obtain ⟨roots, hws⟩ := checkProofsWorldState_insertAccount hacc (accountAt (emptyRoot hs))
  have hroots : checkRoots hs (emptyRoot hs) (emptyRoot hs) (insertAccount hs (accountAt (emptyRoot hs))) = .ok () := by
    simp only [checkRoots, insertAccount, emptyStorageTrieHash_eq hst, ok_bind]
    rw [failIf_of_not (not_not.2 rfl), ok_bind]
    exact failIf_of_not (not_not.2 rfl)
  exact ⟨roots, checkTraces_pair addressFromHex_zeroLocation rfl (checkSpliceST_slotRead hst)
    (by rw [hroots, ok_bind, hws])⟩

/-- A trace of this kind is accepted that is not tied to its storage traces. -/
def AcceptsUntied (hs : StateHashes H) (k : Kind) : Prop :=
  ∃ traces roots a, checkTraces hs traces = .ok roots ∧
    ∃ p ∈ splices [] (readLast (segment a traces)), kind p.2 = k ∧ ¬ Tied hs p.1 p.2

theorem acceptsUntied_update (hs : StateHashes H) : AcceptsUntied hs .update := by
  obtain ⟨roots, hws⟩ := checkProofsWorldState_updateAccount hs (accountAt ⊥) (accountAt ⊤)
  refine ⟨_, roots, 0, checkTraces_lone rfl hws, ([], updateAccount hs (accountAt ⊥) (accountAt ⊤)), ?_, rfl, ?_⟩
  · have hkey : traceKey (updateAccount hs (accountAt ⊥) (accountAt ⊤)) = 0 := rfl
    rw [splices_lone hkey]
    exact mem_singleton_self _
  intro h
  exact bot_ne_top h

theorem acceptsUntied_insertion (hst : hs.storage.Honest) (hacc : hs.account.Honest)
    (htop : ∀ n root, hs.top n root ≠ ⊥) :
    AcceptsUntied hs .insertion := by
  obtain ⟨roots, hws⟩ := checkProofsWorldState_insertAccount hacc (accountAt ⊥)
  refine ⟨_, roots, 0, checkTraces_lone rfl hws, ([], insertAccount hs (accountAt ⊥)), ?_, rfl, ?_⟩
  · have hkey : traceKey (insertAccount hs (accountAt ⊥)) = 0 := rfl
    rw [splices_lone hkey]
    exact mem_singleton_self _
  rintro ⟨empty, hempty, h⟩
  rw [emptyStorageTrieHash_eq hst] at hempty
  cases hempty
  exact htop _ _ h

theorem acceptsUntied_deletion (hst : hs.storage.Honest) (htop : ∀ n root, hs.top n root ≠ ⊥) :
    AcceptsUntied hs .deletion := by
  obtain ⟨roots, hws⟩ := checkProofsWorldState_deleteAccount hs Account.zero
  have hroots : checkRoots hs (emptyRoot hs) (emptyRoot hs) (deleteAccount hs Account.zero) = .ok () := by
    simp only [checkRoots, deleteAccount]
    rw [failIf_of_not (not_not.2 rfl), ok_bind]
    exact failIf_of_not fun h => h.1 rfl
  have hkey : traceKey (deleteAccount hs Account.zero) = 0 := rfl
  have hlocation : addressFromHex (slotRead hs).location = some 0 := addressFromHex_zeroLocation
  have hpattern : inspectPattern hs [.st (slotRead hs), .ws (deleteAccount hs Account.zero)] =
      .ok [.st (slotRead hs), .ws (deleteAccount hs Account.zero)] := rfl
  have h := checkTraces_pair (hlocation.trans (congrArg some hkey.symm)) hpattern (checkSpliceST_slotRead hst)
    (by rw [hroots, ok_bind, hws])
  refine ⟨_, roots, 0, h, ([slotRead hs], deleteAccount hs Account.zero), ?_, rfl, ?_⟩
  · rw [splices_pair hlocation hkey]
    exact mem_singleton_self _
  intro htied
  have hreplay := htied (cons_ne_nil _ _)
  have hroot := (Replays.unique (cons_ne_nil _ _) (checkSpliceST_eq_ok (checkSpliceST_slotRead hst)) hreplay).1
  exact htop _ _ hroot

end ZeroAddress

/-! ### A concrete hash -/

def accountCode (a : Account (WithTop Nat)) : Nat :=
  Encodable.encode (α := ℤ × ℤ × Option ℕ × Option ℕ × ℕ × ℤ)
    (a.nonce, a.balance.getD 0, a.storageRoot, a.lineaCodeHash, a.keccakCodeHash.toNat, a.codeSize)

def topCode (n : ℤ) (root : WithTop Nat) : Nat := Encodable.encode (α := ℤ × Option ℕ) (n, root)

/-- Keys of some width hashed to their successors. -/
def bitVecHashes {V : Type} (w : Nat) (val : V → WithTop Nat) : Hashes (BitVec w) V (WithTop Nat) where
  key k := ((k.toNat + 1 : Nat) : WithTop Nat)
  val := val
  leaf := natHashes.leaf
  node := natHashes.node

theorem bitVecHashes_honest {V : Type} (w : Nat) (val : V → WithTop Nat) : (bitVecHashes w val).Honest where
  key_inj a b h := by
    have : a.toNat + 1 = b.toNat + 1 := WithTop.coe_injective h
    exact BitVec.eq_of_toNat_eq (by omega)
  key_ne_bot k h := by
    have : k.toNat + 1 = 0 := WithTop.coe_injective h
    omega
  key_ne_top k := WithTop.coe_ne_top
  node_ne_bot := natHashes_honest.node_ne_bot

def natStateHashes : StateHashes (WithTop Nat) where
  account := bitVecHashes 160 fun a => ((accountCode a : Nat) : WithTop Nat)
  storage := bitVecHashes 256 fun v => ((v.toNat : Nat) : WithTop Nat)
  top n root := ((topCode n root + 1 : Nat) : WithTop Nat)

theorem natStateHashes_top_ne_bot (n : Int) (root : WithTop Nat) : natStateHashes.top n root ≠ ⊥ := by
  intro h
  have : topCode n root + 1 = 0 := WithTop.coe_injective h
  omega

theorem checkTraces_tied_creation :
    ∃ roots, checkTraces natStateHashes (creation natStateHashes) = .ok roots ∧
      ∀ p ∈ splices [] (readLast (segment 0 (creation natStateHashes))), TiedByDesign natStateHashes p.1 p.2 := by
  obtain ⟨roots, h⟩ := checkTraces_creation natStateHashes (bitVecHashes_honest 256 _) (bitVecHashes_honest 160 _)
  exact ⟨roots, h, checkTraces_tied natStateHashes _ roots h 0⟩

/-- An update that changes the storage root without any storage trace, an insertion with a storage root
that is not the empty one, and a deletion that leaves the account out are accepted. -/
theorem checkTraces_untied :
    AcceptsUntied natStateHashes .update ∧ AcceptsUntied natStateHashes .insertion ∧
    AcceptsUntied natStateHashes .deletion :=
  ⟨acceptsUntied_update natStateHashes,
    acceptsUntied_insertion (bitVecHashes_honest 256 _) (bitVecHashes_honest 160 _) natStateHashes_top_ne_bot,
    acceptsUntied_deletion (bitVecHashes_honest 256 _) natStateHashes_top_ne_bot⟩

end Lineth.StateManager
