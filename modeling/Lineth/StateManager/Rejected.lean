import Lineth.Accumulator.Deferred
import Lineth.StateManager.StorageTie

/-!
# What a rejected trace leaves behind

`checkProofsWorldState` goes on after a rejected trace, from the state that its verification has left.
`VerifyInsertion` compares the next free node after it has written its own: an insertion that is rejected for its
count alone is in the state against which the later traces are checked. -/

namespace Lineth.Accumulator

variable {K V H : Type} [LinearOrder H] [BoundedOrder H] (hs : Hashes K V H)

theorem addInt64_one_ne (n : Int) : addInt64 n 1 ≠ n := by
  intro h
  have hmod : addInt64 n 1 % (2 ^ 64 : Nat) = (n + 1) % (2 ^ 64 : Nat) := Int.bmod_emod
  rw [h] at hmod
  omega

namespace VerifierState

/-- An insertion that passes the checks before the state is written has counted itself. -/
def CountsInsertion (v : VerifierState H) : Trace K V H → Prop
  | .insertion t => (∃ root, v.auditInsertion hs t = .ok root) → t.newNextFreeNode = addInt64 v.nextFreeNode 1
  | _ => True

/-- The state after traces, accepted or not. -/
def after (v : VerifierState H) (traces : List (Trace K V H)) : VerifierState H :=
  traces.foldl (fun v trace => (v.verify hs trace).2) v

/-- The state is reached from `v` by accepted traces, all from the list. -/
def Reached (v : VerifierState H) (traces : List (Trace K V H)) (v' : VerifierState H) : Prop :=
  ∃ accepted, accepted.Sublist traces ∧ v.verifyAll hs accepted = (.ok (), v')

variable {hs} {v v' : VerifierState H} {trace : Trace K V H}

/-- A rejected trace changes nothing exactly if it is not an insertion rejected for its count alone. -/
theorem verify_error_iff :
    (∀ e, (v.verify hs trace).1 = .error e →
      (v.verify hs trace).2.subTreeRoot = v.subTreeRoot ∧ (v.verify hs trace).2.nextFreeNode = v.nextFreeNode) ↔
      v.CountsInsertion hs trace := by
  cases trace with
  | insertion t =>
    rw [verify, verifyInsertion, CountsInsertion]
    cases haudit : v.auditInsertion hs t with
    | error e =>
      refine ⟨fun _ h => ?_, fun _ _ _ => ⟨rfl, rfl⟩⟩
      obtain ⟨_, h⟩ := h
      cases h
    | ok root =>
      dsimp only
      constructor
      · intro h _
        by_contra hne
        have hcheck : VerifierState.checkNextFreeNode (K := K)
          { v with subTreeRoot := root, nextFreeNode := addInt64 v.nextFreeNode 1 }
            t.newNextFreeNode = .error (.inconsistentNextFreeNode (addInt64 v.nextFreeNode 1) t.newNextFreeNode) :=
          if_pos (Ne.symm hne)
        exact addInt64_one_ne v.nextFreeNode (h _ hcheck).2
      · intro h e he
        rw [checkNextFreeNode_eq_ok.2 (h ⟨root, rfl⟩).symm] at he
        cases he
  | deletion t =>
    refine ⟨fun _ => trivial, fun _ e he => ?_⟩
    rw [verify, verifyDeletion] at he ⊢
    split at he
    · exact ⟨rfl, rfl⟩
    · cases he
  | update t =>
    refine ⟨fun _ => trivial, fun _ e he => ?_⟩
    rw [verify, updateVerify] at he ⊢
    split at he
    · exact ⟨rfl, rfl⟩
    · cases he
  | readNonZero t => exact ⟨fun _ => trivial, fun _ _ _ => ⟨rfl, rfl⟩⟩
  | readZero t => exact ⟨fun _ => trivial, fun _ _ _ => ⟨rfl, rfl⟩⟩

theorem location_verify (hs : Hashes K V H) (v : VerifierState H) (trace : Trace K V H) :
    (v.verify hs trace).2.location = v.location := by
  cases trace with
  | insertion t => rw [verify, verifyInsertion]; split <;> rfl
  | deletion t => rw [verify, verifyDeletion]; split <;> rfl
  | update t => rw [verify, updateVerify]; split <;> rfl
  | readNonZero t => rfl
  | readZero t => rfl

theorem CountsInsertion.verify_error (h : v.CountsInsertion hs trace) {e : Failure K H}
    (he : (v.verify hs trace).1 = .error e) :
    (v.verify hs trace).2 = v := by
  obtain ⟨hroot, hnext⟩ := verify_error_iff.2 h e he
  have hlocation := location_verify hs v trace
  cases hv : (v.verify hs trace).2
  rw [hv] at hroot hnext hlocation
  cases v
  cases hroot
  cases hnext
  cases hlocation
  rfl

theorem verifyAll_append (v : VerifierState H) (traces : List (Trace K V H)) (trace : Trace K V H)
    (h : v.verifyAll hs traces = (.ok (), v')) (htrace : (v'.verify hs trace).1 = .ok ()) :
    v.verifyAll hs (traces ++ [trace]) = (.ok (), (v'.verify hs trace).2) := by
  induction traces generalizing v with
  | nil =>
    cases h
    rw [List.nil_append, verifyAll]
    split
    · next hv => rw [hv]; rfl
    · next hv => rw [hv] at htrace; cases htrace
  | cons t traces ih =>
    rw [verifyAll] at h
    rw [List.cons_append, verifyAll]
    split at h
    · next hv => exact ih _ h
    · cases h

theorem Reached.step {traces : List (Trace K V H)} (h : Reached hs v traces v')
    (hcounts : v'.CountsInsertion hs trace) :
    Reached hs v (traces ++ [trace]) (v'.verify hs trace).2 := by
  obtain ⟨accepted, hsub, hall⟩ := h
  cases htrace : (v'.verify hs trace).1 with
  | ok _ => exact ⟨accepted ++ [trace], hsub.append_right _, verifyAll_append v accepted trace hall htrace⟩
  | error e =>
    rw [hcounts.verify_error htrace]
    exact ⟨accepted, hsub.trans (List.sublist_append_left _ _), hall⟩

/-- A run whose traces all count themselves only goes through states reached by accepted traces. -/
theorem reached_after (v : VerifierState H) (traces : List (Trace K V H))
    (hcounts : ∀ before trace rest, traces = before ++ trace :: rest → (v.after hs before).CountsInsertion hs trace) :
    Reached hs v traces (v.after hs traces) := by
  induction traces using List.reverseRecOn with
  | nil => exact ⟨[], List.Sublist.refl _, rfl⟩
  | append_singleton traces trace ih =>
    have hbefore := ih fun before t rest ht => hcounts before t (rest ++ [trace])
      (by rw [ht, List.append_assoc, List.cons_append])
    have hstep := hbefore.step (hcounts traces trace [] rfl)
    rwa [after, List.foldl_append]

end VerifierState

end Lineth.Accumulator

namespace Lineth.StateManager

open Accumulator Except List Contents

variable {H : Type} [LinearOrder H] [BoundedOrder H] {hs : StateHashes H}

theorem checkWorldStateAt_some {i : Nat} {trace next : AccountTrace H} {vs : VerifierState H}
    {err : List (WorldStateError H)} (hkey : ¬ hKey hs.account next < hKey hs.account trace) :
    checkWorldStateAt hs i trace (some next) vs err = checkWorldStateAt hs i trace none vs err := by
  rw [checkWorldStateAt, Option.map_some]
  dsimp only
  rw [if_neg hkey]
  rfl

theorem checkWorldStateFrom_append {before rest : List (AccountTrace H)} {i : Nat} {vs : VerifierState H}
    {err : List (WorldStateError H)}
    {r : VerifierState H × List (WorldStateError H)} (h : checkWorldStateFrom hs i (before ++ rest) vs err = .ok r) :
    ∃ err', checkWorldStateFrom hs (i + before.length) rest (vs.after hs.account before) err' = .ok r := by
  induction before generalizing i vs err with
  | nil => exact ⟨err, h⟩
  | cons trace before ih =>
    rw [List.cons_append, checkWorldStateFrom, bind_eq_ok] at h
    obtain ⟨⟨vs', err'⟩, hat, h⟩ := h
    have hvs : vs' = (vs.verify hs.account trace).2 := by
      rw [checkWorldStateAt] at hat
      split at hat
      · next hv => rw [hv]; exact (congrArg Prod.fst (ok.inj hat)).symm
      · cases hat
      · next hv => rw [hv]; exact (congrArg Prod.fst (ok.inj hat)).symm
    subst hvs
    obtain ⟨err'', h⟩ := ih h
    rw [length_cons, ← Nat.add_assoc, Nat.add_right_comm]
    exact ⟨err'', h⟩

/-- A rejected trace changes nothing exactly if it is not an insertion rejected for its count alone; and when all
traces of a run are of this kind, each is checked against a state that is reached by accepted traces only. -/
theorem rejected_unchanged_iff (hs : StateHashes H) :
    (∀ {K V : Type} (hk : Hashes K V H) (v : VerifierState H) (trace : Trace K V H),
      (∀ e, (v.verify hk trace).1 = .error e →
        (v.verify hk trace).2.subTreeRoot = v.subTreeRoot ∧ (v.verify hk trace).2.nextFreeNode = v.nextFreeNode) ↔
        v.CountsInsertion hk trace) ∧
    ∀ (vs : VerifierState H) (traces : List (AccountTrace H)),
      (∀ before trace rest, traces = before ++ trace :: rest →
        (vs.after hs.account before).CountsInsertion hs.account trace) →
      ∀ before trace rest, traces = before ++ trace :: rest →
        vs.Reached hs.account before (vs.after hs.account before) ∧
        ∀ err r, checkWorldStateFrom hs 0 traces vs err = .ok r →
          ∃ err', checkWorldStateFrom hs before.length (trace :: rest) (vs.after hs.account before) err' = .ok r := by
  refine ⟨fun hk v trace => VerifierState.verify_error_iff,
    fun vs traces hcounts before trace rest htraces => ⟨?_, fun err r h => ?_⟩⟩
  · refine VerifierState.reached_after vs before fun before' trace' rest' hbefore =>
      hcounts before' trace' (rest' ++ trace :: rest) ?_
    rw [htraces, hbefore, List.append_assoc, List.cons_append]
  · rw [htraces] at h
    have := checkWorldStateFrom_append h
    rwa [Nat.zero_add] at this

/-! ### An insertion that counts wrongly -/

section Miscounted

variable [Nontrivial H] (hs)

def emptyWorldState : VerifierState H := ⟨wsLocation, 2, rootOf hs.account empty.cell⟩

def absentRead : ReadZeroTrace Address H := readZeroTrace hs.account wsLocation 2 empty.cell 0 1 .head .tail 0

def miscounted : InsertionTrace Address (Account H) H :=
  { insertionTrace hs.account wsLocation 2 empty.cell 0 1 .head .tail 0 (accountAt ⊥) with newNextFreeNode := 7 }

def insertedCell : Int → Option (LeafOpening H) :=
  Function.update (Function.update (Function.update empty.cell 0 (some (LeafOpening.head.copyWithNext 2))) 2
    (some (onlyLeaf hs (accountAt ⊥)))) 1 (some (LeafOpening.tail.copyWithPrev 2))

def insertedState : VerifierState H := ⟨wsLocation, 3, rootOf hs.account (insertedCell hs)⟩

def insertedRead : ReadNonZeroTrace Address (Account H) H :=
  readNonZeroTrace hs.account wsLocation 3 (insertedCell hs) 2 (onlyLeaf hs (accountAt ⊥)) 0 (accountAt ⊥)

variable {hs}

theorem verifyInsertion_miscounted (hh : hs.account.Honest) :
    (emptyWorldState hs).verifyInsertion hs.account (miscounted hs) =
      (.error (.inconsistentNextFreeNode 3 7), insertedState hs) := by
  have hins : (emptyWorldState hs).verifyInsertion hs.account
      (insertionTrace hs.account (emptyWorldState hs).location 2 empty.cell 0 1 .head .tail 0
        (accountAt ⊥)) = (.ok (), _) :=
    verifyInsertion_insertionTrace rfl rfl rfl rfl rfl (inTree_of_le (by omega)) (inTree_of_le (by omega))
      (inTree_of_le (by omega)) (by omega) rfl rfl (bot_lt_iff_ne_bot.2 (hh.key_ne_bot 0))
      (lt_top_iff_ne_top.2 (hh.key_ne_top 0))
  -- the checks before the write do not read the count
  have haudit : (emptyWorldState hs).auditInsertion hs.account (miscounted hs) = .ok
    (insertedState hs).subTreeRoot := by
    change (emptyWorldState hs).auditInsertion hs.account
      (insertionTrace hs.account (emptyWorldState hs).location 2 empty.cell 0 1 .head .tail 0 (accountAt ⊥)) = _
    rw [VerifierState.verifyInsertion] at hins
    split at hins
    · cases hins
    · next root haudit =>
      rw [haudit, (VerifierState.auditInsertion_eq_ok.1 haudit).2.2.2.2]
      rfl
  have hnext : addInt64 (emptyWorldState hs).nextFreeNode 1 = 3 := show addInt64 2 1 = 3 by decide
  rw [VerifierState.verifyInsertion, haudit]
  dsimp only
  have hcount : (3 : Int) ≠ (miscounted hs).newNextFreeNode := show (3 : Int) ≠ 7 by decide
  rw [hnext, VerifierState.checkNextFreeNode, if_pos hcount]
  rfl

theorem readNonZeroVerify_insertedRead : (insertedState hs).readNonZeroVerify hs.account (insertedRead hs) = .ok () :=
  readNonZeroVerify_readNonZeroTrace rfl rfl rfl (inTree_of_le (by omega)) fun _ => ⟨rfl, rfl⟩

theorem readZeroVerify_absentRead (hh : hs.account.Honest) :
    (emptyWorldState hs).readZeroVerify hs.account (absentRead hs) = .ok () :=
  readZeroVerify_readZeroTrace rfl rfl rfl rfl (inTree_of_le (by omega)) (inTree_of_le (by omega))
    rfl rfl (bot_lt_iff_ne_bot.2 (hh.key_ne_bot 0)) (lt_top_iff_ne_top.2 (hh.key_ne_top 0))

theorem checkProofsWorldState_miscounted (hh : hs.account.Honest) :
    checkProofsWorldState hs [.readZero (absentRead hs), .insertion (miscounted hs), .readNonZero (insertedRead hs)] =
      .error (.worldState [.verifying 1 (.inconsistentNextFreeNode 3 7)]) := by
  -- the three traces have one key
  have hkey₁ : ¬ hKey hs.account (.insertion (miscounted hs)) < hKey hs.account (.readZero (absentRead hs)) :=
    lt_irrefl _
  have hkey₂ : ¬ hKey hs.account (.readNonZero (insertedRead hs)) < hKey hs.account (.insertion (miscounted hs)) :=
    lt_irrefl _
  have hread : (emptyWorldState hs).verify hs.account (.readZero (absentRead hs)) = (.ok (), emptyWorldState hs) :=
    Prod.ext (readZeroVerify_absentRead hh) rfl
  have hinsert : (emptyWorldState hs).verify hs.account (.insertion (miscounted hs)) =
      (.error (.inconsistentNextFreeNode 3 7), insertedState hs) := verifyInsertion_miscounted hh
  have hlast : (insertedState hs).verify hs.account (.readNonZero (insertedRead hs)) = (.ok (), insertedState hs) :=
    Prod.ext readNonZeroVerify_insertedRead rfl
  have hfrom : checkWorldStateFrom hs 0 [.readZero (absentRead hs), .insertion (miscounted hs),
    .readNonZero (insertedRead hs)]
      (emptyWorldState hs) [] = .ok (insertedState hs, [.verifying 1 (.inconsistentNextFreeNode 3 7)]) := by
    rw [checkWorldStateFrom, head?_cons, checkWorldStateAt_some hkey₁, checkWorldStateAt, hread]
    simp only [pure_eq_ok, ok_bind]
    rw [checkWorldStateFrom, head?_cons, checkWorldStateAt_some hkey₂, checkWorldStateAt, hinsert]
    simp only [pure_eq_ok, ok_bind]
    rw [checkWorldStateFrom, head?_nil, checkWorldStateAt, hlast]
    rfl
  rw [checkProofsWorldState]
  refine Eq.trans (congrArg (· >>= _) hfrom) ?_
  rw [ok_bind]
  dsimp only
  rw [failIf_of (cons_ne_nil _ _), error_bind]

end Miscounted

/-- The rejected insertion stays in the state: a later read of the account passes, so that the insertion is the only
error reported. -/
theorem rejected_insertion_kept :
    (emptyWorldState natStateHashes).verify natStateHashes.account (.insertion (miscounted natStateHashes)) =
      (.error (.inconsistentNextFreeNode 3 7), insertedState natStateHashes) ∧
    (insertedState natStateHashes).nextFreeNode ≠ (emptyWorldState natStateHashes).nextFreeNode ∧
    ((emptyWorldState natStateHashes).verify natStateHashes.account
      (.readNonZero (insertedRead natStateHashes))).1 ≠ .ok () ∧
    checkProofsWorldState natStateHashes
        [.readZero (absentRead natStateHashes), .insertion (miscounted natStateHashes),
          .readNonZero (insertedRead natStateHashes)] =
      .error (.worldState [.verifying 1 (.inconsistentNextFreeNode 3 7)]) := by
  have hh : natStateHashes.account.Honest := bitVecHashes_honest 160 _
  refine ⟨verifyInsertion_miscounted hh, by decide, fun h => ?_, checkProofsWorldState_miscounted hh⟩
  exact absurd (VerifierState.readNonZeroVerify_eq_ok.1 h).1.2.2 (by decide)

def counted [Nontrivial H] (hs : StateHashes H) : InsertionTrace Address (Account H) H :=
  { miscounted hs with newNextFreeNode := 3 }

theorem rejected_unchanged_counted :
    (emptyWorldState natStateHashes).Reached natStateHashes.account
      [.readZero (absentRead natStateHashes), .insertion (counted natStateHashes)]
      ((emptyWorldState natStateHashes).after natStateHashes.account
        [.readZero (absentRead natStateHashes), .insertion (counted natStateHashes)]) := by
  refine ((rejected_unchanged_iff natStateHashes).2 (emptyWorldState natStateHashes)
    [.readZero (absentRead natStateHashes), .insertion (counted natStateHashes),
      .readNonZero (insertedRead natStateHashes)]
    (fun before trace rest h => ?_) _ (.readNonZero (insertedRead natStateHashes)) [] rfl).1
  rcases before with _ | ⟨t₁, _ | ⟨t₂, _ | ⟨t₃, before⟩⟩⟩
  · cases h
    trivial
  · cases h
    exact fun _ => rfl
  · cases h
    trivial
  · exact absurd (congrArg length h) (by simp only [length_cons, length_append, length_nil]; omega)

end Lineth.StateManager
