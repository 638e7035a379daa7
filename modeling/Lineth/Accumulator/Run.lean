import Lineth.Accumulator.Complete
import Mathlib.Logic.Denumerable

/-!
# Runs of the accumulator

From `InitializeProverState` on, every valid sequence of operations succeeds as long as the tree has room, and a
verifier that starts from any snapshot follows it. Positions are never reused: the insertion after `2 ^ 40 - 2` others
panics. -/

namespace Lineth.Accumulator

open Except List ProverState
open Smt (defaultDepth)

variable {K V H : Type}

def applyAll [DecidableEq K] (M : K → Option V) (ops : List (Op K V)) : K → Option V := ops.foldl Op.apply M

variable {M : K → Option V}

theorem validRun_append [DecidableEq K] {ops ops' : List (Op K V)} :
    ValidRun M (ops ++ ops') ↔ ValidRun M ops ∧ ValidRun (applyAll M ops) ops' := by
  induction ops generalizing M with
  | nil => simp [ValidRun, applyAll]
  | cons op ops ih => simp [ValidRun, ih, applyAll, and_assoc]

/-- Insertions of the keys of a list, with the scans in storage order. -/
def insertAll (keys : List K) (v : V) : List (Op K V) :=
  keys.map fun k => .insert ⟨id, fun _ => .rfl⟩ ⟨id, fun _ => .rfl⟩ k v

theorem insertions_insertAll (keys : List K) (v : V) : insertions (insertAll keys v) = keys.length := by
  induction keys with
  | nil => rfl
  | cons k keys ih =>
    rw [insertAll, map_cons, insertions, countP_cons_of_pos rfl, length_cons]
    exact congrArg (· + 1) ih

theorem validRun_insertAll [DecidableEq K] {keys : List K} {v : V} (hnd : keys.Nodup) (hM : ∀ k ∈ keys, M k = none) :
    ValidRun M (insertAll keys v) := by
  induction keys generalizing M with
  | nil => trivial
  | cons k keys ih =>
    obtain ⟨hk, hnd⟩ := nodup_cons.1 hnd
    refine ⟨hM k mem_cons_self, ih hnd fun k' hk' => ?_⟩
    have hne : k' ≠ k := by rintro rfl; exact hk hk'
    exact (Function.update_of_ne hne _ _).trans (hM k' (mem_cons_of_mem _ hk'))

variable [LinearOrder H] [BoundedOrder H] {hs : Hashes K V H}

/-! ### The initial state -/

theorem stores_nothing (hs : Hashes K V H) (location : String) :
    Stores hs (⟨location, 2, Smt.newEmptyTree hs.node [], ∅⟩ : ProverState K V H) fun _ => none := by
  refine ⟨?_, Smt.newEmptyTree_depth, fun i => rfl, fun i t h => by cases h⟩
  have hleaf : leafAt hs (fun _ => none) = fun _ => Smt.emptyLeaf := rfl
  rw [hleaf]
  exact Smt.emptyTree_holds (d := Smt.defaultDepth) (by decide) (by decide) rfl

theorem Stores.write {p : ProverState K V H} {cell : Int → Option (LeafOpening H)} {i : Int} (h : Stores hs p cell)
    (hnz : ∀ a b, hs.node a b ≠ ⊥) (hi : InTree i) {t : KVOpeningTuple K V H} (ht : t.Consistent hs) :
    ∃ tree, p.tree.update hs.node i (hs.leaf t.leafOpening) = .ok tree ∧
      Stores hs { p with data := p.data.insert i t, tree := tree } (Function.update cell i (some t.leafOpening)) := by
  obtain ⟨tree, hu, -, hh, hd⟩ := h.update_prove hnz hi (some t.leafOpening)
  exact ⟨tree, hu, h.insert_data ht hh hd⟩

theorem initializeProverState_eq [Inhabited K] [Inhabited V] {location : String} {tree₁ tree₂ : Smt.Tree H}
    (hu₁ : (Smt.newEmptyTree hs.node []).update hs.node 0 (hs.leaf .head) = .ok tree₁)
    (hu₂ : tree₁.update hs.node 1 (hs.leaf .tail) = .ok tree₂) :
    initializeProverState hs location = .ok ⟨location, 2, tree₂,
      AList.insert 1 ⟨.tail, default, default⟩ (AList.insert 0 ⟨.head, default, default⟩ (∅ : Data K V H))⟩ := by
  have hl : AList.lookup (1 : Int) (AList.insert 0 ⟨.head, default, default⟩ (∅ : Data K V H)) = none := by
    rw [AList.lookup_insert_ne (by decide)]; rfl
  have h₁ : liftTree ((Smt.newEmptyTree hs.node []).update hs.node 0 (hs.leaf .head)) = .ok tree₁ := by rw [hu₁]; rfl
  have h₂ : liftTree (tree₁.update hs.node 1 (hs.leaf .tail)) = .ok tree₂ := by rw [hu₂]; rfl
  unfold initializeProverState
  simp only [h₁]
  rw [ok_bind, h₂, ok_bind, Data.insertNew, AList.lookup_empty]
  simp only [pure_eq_ok, ok_bind]
  rw [Data.insertNew, hl]
  rfl

theorem initializeProverState_spec [Inhabited K] [Inhabited V] [Nontrivial H] (hh : hs.Honest) (location : String) :
    ∃ p, initializeProverState hs location = .ok p ∧ Tracks hs p Contents.empty fun _ => none := by
  obtain ⟨tree₁, hu₁, h₁⟩ := (stores_nothing hs location).write hh.node_ne_bot (i := 0) (t := ⟨.head, default, default⟩)
    ⟨by omega, by simp [defaultDepth]⟩ fun hne => by simp [LeafOpening.headOrTail, LeafOpening.head] at hne
  obtain ⟨tree₂, hu₂, h₂⟩ := h₁.write hh.node_ne_bot (i := 1) (t := ⟨.tail, default, default⟩)
    ⟨by omega, by simp [defaultDepth]⟩ fun hne => by simp [LeafOpening.headOrTail, LeafOpening.tail] at hne
  exact ⟨_, initializeProverState_eq hu₁ hu₂, h₂, rfl, Contents.empty_represents hs⟩

/-! ### A full tree -/

namespace Stores

variable {p : ProverState K V H} {cell : Int → Option (LeafOpening H)}

theorem upsertTuple_full (h : Stores hs p cell) {t : KVOpeningTuple K V H} (ht : t.Consistent hs)
    {i : Int} (hi : 2 ^ defaultDepth ≤ i) (hfree : cell i = none) :
    p.upsertTuple hs i t = .error (.tree .outOfBound) := by
  have hleaf : t.checkAndLeaf hs = .ok (hs.leaf t.leafOpening) := KVOpeningTuple.checkAndLeaf_eq_ok.2 ⟨ht, rfl⟩
  have hl : p.data.lookup i = none := by
    rw [← h.data] at hfree
    exact Option.map_eq_none_iff.1 hfree
  have hbound : i ≥ Smt.shl1 p.tree.depth := by
    rw [h.depth, Smt.shl1_eq (by decide)]; exact hi
  have hu : p.tree.update hs.node i (hs.leaf t.leafOpening) = .error .outOfBound := by
    rw [Smt.Tree.update, if_pos hbound]; rfl
  simp only [upsertTuple, hleaf, hl, hu, liftTree, pure_eq_ok, error_bind]

end Stores

theorem Tracks.insertAndProve_full {p : ProverState K V H} {A : Contents H} {k : K}
    (h : Tracks hs p A M) (hh : hs.Honest) (hk : M k = none) (hfull : A.nextFreeNode = 2 ^ defaultDepth)
    (shFind shSandwich : Shuffle) (v : V) :
    p.insertAndProve hs shFind shSandwich k v = .error (.tree .outOfBound) := by
  have habs := h.absent hh hk
  obtain ⟨im, ip, om, op, hsand, hm, hp, hlo, hhi, hnext, hprev⟩ :=
    h.findSandwich_spec shSandwich (hh.key_ne_bot k) (hh.key_ne_top k) habs
  obtain ⟨tm, htm, rfl⟩ := h.exists_tuple hm
  obtain ⟨tp, htp, rfl⟩ := h.exists_tuple hp
  have hfree := A.cell_nextFreeNode
  have hne : ∀ {j o}, A.cell j = some o → j ≠ A.nextFreeNode := by
    rintro j o hj rfl
    rw [hfree] at hj; cases hj
  obtain ⟨p₁, hup₁, -, -, hst₁⟩ := h.upsertTuple_spec hh.node_ne_bot (inTree hm)
    ((h.consistent im tm htm).copyWithNext A.nextFreeNode) fun o ho => by
      cases Option.some_inj.1 (hm.symm.trans ho)
      exact ⟨rfl, numChanges_copyWithNext (hnext ▸ hne hp)⟩
  have hup₂ := hst₁.upsertTuple_full (t := ⟨⟨im, ip, hs.key k, hs.val v⟩, k, v⟩) (fun _ => ⟨rfl, rfl⟩)
    hfull.ge (by rw [Function.update_of_ne (hne hm).symm, hfree])
  simp only [insertAndProve, h.findKey_absent shFind habs, hsand, Data.mustGet_eq htm, Data.mustGet_eq htp,
    h.nextFreeNode, hup₁, hup₂, Option.isSome_none, Bool.false_eq_true, ↓reduceIte, ok_bind, error_bind]

theorem run_append_error {p p' : ProverState K V H} {ops ops' : List (Op K V)} {trs : List (Trace K V H)}
    {e : Panic} (h : p.run hs ops = .ok (trs, p')) (h' : p'.run hs ops' = .error e) :
    p.run hs (ops ++ ops') = .error e := by
  induction ops generalizing p trs with
  | nil =>
    cases h
    exact h'
  | cons op ops ih =>
    obtain ⟨⟨tr, p₁⟩, hstep, hrest⟩ := bind_eq_ok.1 h
    obtain ⟨⟨trs₁, p₂⟩, hrun, heq⟩ := bind_eq_ok.1 hrest
    cases heq
    simp only [cons_append, ProverState.run, hstep, ih hrun, ok_bind, error_bind]

/-! ### Runs -/

variable [DecidableEq K]

namespace Tracks

variable {p : ProverState K V H} {A : Contents H} {M : K → Option V}

theorem step (h : Tracks hs p A M) (hh : hs.Honest) {op : Op K V} (hv : op.Valid M)
    (hcap : A.nextFreeNode + insertions [op] ≤ 2 ^ defaultDepth) :
    ∃ tr p' A', p.step hs op = .ok (tr, p') ∧ Tracks hs p' A' (op.apply M) ∧
      A'.nextFreeNode = A.nextFreeNode + insertions [op] ∧
      p.verifierState.verify hs tr = (.ok (), p'.verifierState) := by
  cases op with
  | insert shFind shSandwich key val =>
    have hcap : A.nextFreeNode < 2 ^ defaultDepth := Int.lt_of_add_one_le hcap
    obtain ⟨tr, p', A', hstep, hT, hn, hver⟩ := h.insertAndProve_spec hh hv hcap shFind shSandwich val
    exact ⟨.insertion tr, p', A', by rw [ProverState.step, hstep]; rfl, hT, hn, hver⟩
  | update shFind key newVal =>
    obtain ⟨tr, p', A', hstep, hT, hn, hver⟩ := h.updateAndProve_spec hh hv shFind newVal
    exact ⟨.update tr, p', A', by rw [ProverState.step, hstep]; rfl, hT, by rw [hn]; exact (add_zero _).symm, hver⟩
  | delete shFind key =>
    obtain ⟨tr, p', A', hstep, hT, hn, hver⟩ := h.deleteAndProve_spec hh hv shFind
    exact ⟨.deletion tr, p', A', by rw [ProverState.step, hstep]; rfl, hT, by rw [hn]; exact (add_zero _).symm, hver⟩
  | readNonZero shFind key =>
    obtain ⟨tr, hstep, hver⟩ := h.readNonZeroAndProve_spec hh hv shFind
    exact ⟨.readNonZero tr, p, A, by rw [ProverState.step, hstep]; rfl, h, (add_zero _).symm,
      by rw [VerifierState.verify, hver]⟩
  | readZero shFind shSandwich key =>
    obtain ⟨tr, hstep, hver⟩ := h.readZeroAndProve_spec hh hv shFind shSandwich
    exact ⟨.readZero tr, p, A, by rw [ProverState.step, hstep]; rfl, h, (add_zero _).symm,
      by rw [VerifierState.verify, hver]⟩

theorem run (h : Tracks hs p A M) (hh : hs.Honest) {ops : List (Op K V)} (hv : ValidRun M ops)
    (hcap : A.nextFreeNode + insertions ops ≤ 2 ^ defaultDepth) :
    ∃ trs p' A', p.run hs ops = .ok (trs, p') ∧ Tracks hs p' A' (applyAll M ops) ∧
      A'.nextFreeNode = A.nextFreeNode + insertions ops ∧
      p.verifierState.verifyAll hs trs = (.ok (), p'.verifierState) := by
  induction ops generalizing p A M with
  | nil => exact ⟨[], p, A, rfl, h, (add_zero _).symm, rfl⟩
  | cons op ops ih =>
    rw [insertions_cons] at hcap ⊢
    push_cast at hcap ⊢
    obtain ⟨tr, p₁, A₁, hstep, h₁, hn₁, hver₁⟩ := h.step hh hv.1 (by omega)
    obtain ⟨trs, p', A', hrun, h', hn', hver'⟩ := ih h₁ hv.2 (by omega)
    refine ⟨tr :: trs, p', A', ?_, h', by omega, ?_⟩
    · simp only [ProverState.run, hstep, hrun, ok_bind, pure_eq_ok]
    · simp only [VerifierState.verifyAll, hver₁, hver']

end Tracks

theorem two_pow_defaultDepth :
    (2 : Nat) ^ defaultDepth = 1099511627776 ∧ (2 : Int) ^ defaultDepth = 1099511627776 := by decide

/-- From the initial state, the prover runs every valid sequence that leaves the tree within its leaves, and a
verifier that starts from the snapshot after any `pre` accepts every later trace and reaches the snapshots of the
prover. -/
theorem accumulator_complete [Inhabited K] [Inhabited V] (hs : Hashes K V H) (hh : hs.Honest) (location : String)
    (pre mid post : List (Op K V)) (hv : ValidRun (fun _ => none) (pre ++ mid ++ post))
    (hcap : insertions (pre ++ mid ++ post) ≤ 2 ^ defaultDepth - 2) :
    ∃ p₀ p₁ p₂ trs₁ trs₂, initializeProverState hs location = .ok p₀ ∧ p₀.run hs pre = .ok (trs₁, p₁) ∧
      p₁.run hs mid = .ok (trs₂, p₂) ∧ p₁.verifierState.verifyAll hs trs₂ = (.ok (), p₂.verifierState) := by
  have : Nontrivial H := ⟨hs.key default, ⊥, hh.key_ne_bot default⟩
  rw [append_assoc, validRun_append] at hv
  obtain ⟨hvpre, hvrest⟩ := hv
  obtain ⟨hvmid, -⟩ := validRun_append.1 hvrest
  have hsum : insertions pre + insertions mid ≤ 2 ^ defaultDepth - 2 := by
    simp only [insertions, countP_append] at hcap ⊢
    omega
  obtain ⟨hdepth, hdepth'⟩ := two_pow_defaultDepth
  obtain ⟨p₀, hinit, h₀⟩ := initializeProverState_spec hh location
  have hstart : (Contents.empty : Contents H).nextFreeNode = 2 := rfl
  obtain ⟨trs₁, p₁, A₁, hrun₁, h₁, hn₁, -⟩ := h₀.run hh hvpre (by rw [hstart]; omega)
  obtain ⟨trs₂, p₂, A₂, hrun₂, -, -, hver⟩ := h₁.run hh hvmid (by rw [hn₁, hstart]; omega)
  exact ⟨p₀, p₁, p₂, trs₁, trs₂, hinit, hrun₁, hrun₂, hver⟩

theorem run_insertAll_full [Inhabited K] [Inhabited V] (hh : hs.Honest) (location : String) {keys : List K} (v : V)
    (hnd : keys.Nodup) (hlen : keys.length = 2 ^ defaultDepth - 1) :
    ∃ p₀, initializeProverState hs location = .ok p₀ ∧ p₀.run hs (insertAll keys v) = .error (.tree .outOfBound) := by
  have : Nontrivial H := ⟨hs.key default, ⊥, hh.key_ne_bot default⟩
  obtain ⟨hdepth, hdepth'⟩ := two_pow_defaultDepth
  obtain ⟨p₀, hinit, h₀⟩ := initializeProverState_spec hh location
  refine ⟨p₀, hinit, ?_⟩
  rcases eq_nil_or_concat' keys with rfl | ⟨ks, k, rfl⟩
  · simp [hdepth] at hlen
  have hval : ValidRun (fun _ => none) (insertAll (ks ++ [k]) v) := validRun_insertAll hnd fun _ _ => rfl
  rw [insertAll, map_append] at hval ⊢
  obtain ⟨hvks, hvk⟩ := validRun_append.1 hval
  have hins : insertions (insertAll ks v) = 2 ^ defaultDepth - 2 := by
    rw [insertions_insertAll]
    rw [length_append, length_singleton] at hlen
    omega
  have hstart : (Contents.empty : Contents H).nextFreeNode = 2 := rfl
  obtain ⟨trs, p₁, A₁, hrun, h₁, hn₁, -⟩ := h₀.run hh hvks (by rw [← insertAll, hstart, hins]; omega)
  rw [← insertAll, hstart, hins] at hn₁
  refine run_append_error hrun ?_
  have hfull := h₁.insertAndProve_full hh hvk.1 (by omega) ⟨id, fun _ => .rfl⟩ ⟨id, fun _ => .rfl⟩ v
  simp only [map_cons, map_nil, ProverState.run, ProverState.step, hfull, error_bind]

/-! ### A concrete hash -/

def leafCode (o : LeafOpening (WithTop Nat)) : Nat :=
  Encodable.encode (α := ℤ × ℤ × Option ℕ × Option ℕ) (o.prev, o.next, o.hKey, o.hVal)

def nodeCode (a b : WithTop Nat) : Nat := Encodable.encode (α := Option ℕ × Option ℕ) (a, b)

theorem leafCode_injective : Function.Injective leafCode := by
  rintro ⟨p, n, k, v⟩ ⟨p', n', k', v'⟩ h
  have h := Encodable.encode_injective (α := ℤ × ℤ × Option ℕ × Option ℕ) h
  simp only [Prod.mk.injEq] at h
  obtain ⟨rfl, rfl, rfl, rfl⟩ := h
  rfl

theorem nodeCode_injective {a b c d : WithTop Nat} (h : nodeCode a b = nodeCode c d) : a = c ∧ b = d :=
  Prod.mk.inj (Encodable.encode_injective (α := Option ℕ × Option ℕ) h)

/-- A hash on numbers that is injective wherever the accumulator needs it. -/
def natHashes : Hashes Nat Nat (WithTop Nat) where
  key k := ((k + 1 : Nat) : WithTop Nat)
  val v := ((v : Nat) : WithTop Nat)
  leaf o := ((3 * leafCode o + 1 : Nat) : WithTop Nat)
  node a b := ((3 * nodeCode a b + 2 : Nat) : WithTop Nat)

theorem natHashes_honest : natHashes.Honest where
  key_inj a b h := by
    have : a + 1 = b + 1 := WithTop.coe_injective h
    omega
  key_ne_bot k h := by
    have : k + 1 = 0 := WithTop.coe_injective h
    omega
  key_ne_top k := WithTop.coe_ne_top
  node_ne_bot a b h := by
    have : 3 * nodeCode a b + 2 = 0 := WithTop.coe_injective h
    omega

/-- Insertions of `0, 1, …` are valid, and one fewer than `2 ^ 40` of them do not fit: the last one
panics. -/
theorem accumulator_overflow :
    natHashes.Honest ∧ insertions (insertAll (range (2 ^ defaultDepth - 1)) (0 : Nat)) < 2 ^ defaultDepth ∧
    ValidRun (fun _ => none) (insertAll (range (2 ^ defaultDepth - 1)) (0 : Nat)) ∧
    ∃ p₀, initializeProverState natHashes "" = .ok p₀ ∧
      p₀.run natHashes (insertAll (range (2 ^ defaultDepth - 1)) 0) = .error (.tree .outOfBound) := by
  have hdepth := two_pow_defaultDepth.1
  generalize hn : 2 ^ defaultDepth - 1 = n
  refine ⟨natHashes_honest, ?_, validRun_insertAll nodup_range fun _ _ => rfl,
    run_insertAll_full natHashes_honest "" 0 nodup_range (by rw [length_range, hn])⟩
  rw [insertions_insertAll, length_range]
  omega

theorem accumulator_complete_nat :
    ∃ p₀ p₁ p₂ trs₁ trs₂, initializeProverState natHashes "" = .ok p₀ ∧
      p₀.run natHashes (insertAll [5, 3] 8) = .ok (trs₁, p₁) ∧
      p₁.run natHashes [.update ⟨id, fun _ => .rfl⟩ 5 9, .delete ⟨reverse, reverse_perm⟩ 3] = .ok (trs₂, p₂) ∧
      p₁.verifierState.verifyAll natHashes trs₂ = (.ok (), p₂.verifierState) :=
  accumulator_complete natHashes natHashes_honest "" (insertAll [5, 3] 8) _ [.readNonZero ⟨id, fun _ => .rfl⟩ 5]
    (by simp [insertAll, ValidRun, Op.Valid, Op.apply]) (by decide)

end Lineth.Accumulator
