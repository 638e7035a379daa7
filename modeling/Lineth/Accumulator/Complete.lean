import Lineth.Accumulator.Honest

/-!
# Completeness: what the prover does, the verifier accepts

`Op.Valid` says which operations are called on a map from keys to values, `Op.apply` what they do, and `Tracks`
relates a prover state to such a map. Each valid operation succeeds, keeps `Tracks` and takes the verifier along
(`Tracks.step`), and so does every valid run (`Tracks.run`). -/

namespace Lineth.Accumulator

open Function (update update_of_ne)
open Smt (defaultDepth)
open LinkedList Except LeafOpening ProverState Contents Data

variable {K V H : Type}

/-! ### The specification -/

namespace Op

def Valid (M : K → Option V) : Op K V → Prop
  | insert _ _ key _ => M key = none
  | update _ key _ => M key ≠ none
  | delete _ key => M key ≠ none
  | readNonZero _ key => M key ≠ none
  | readZero _ _ key => M key = none

def apply [DecidableEq K] (M : K → Option V) : Op K V → K → Option V
  | insert _ _ key val => Function.update M key (some val)
  | update _ key newVal => Function.update M key (some newVal)
  | delete _ key => Function.update M key none
  | readNonZero _ _ => M
  | readZero _ _ _ => M

def isInsert : Op K V → Bool
  | insert .. => true
  | _ => false

end Op

/-- Every operation of the sequence is valid when its turn comes. -/
def ValidRun [DecidableEq K] : (K → Option V) → List (Op K V) → Prop
  | _, [] => True
  | M, op :: ops => op.Valid M ∧ ValidRun (op.apply M) ops

def insertions (ops : List (Op K V)) : Nat := ops.countP Op.isInsert

theorem insertions_cons (op : Op K V) (ops : List (Op K V)) :
    insertions (op :: ops) = insertions [op] + insertions ops := by
  simp only [insertions, ← List.countP_append, List.singleton_append]

variable [LinearOrder H] [BoundedOrder H]

structure Hashes.Honest (hs : Hashes K V H) : Prop where
  key_inj : Function.Injective hs.key
  key_ne_bot : ∀ k, hs.key k ≠ ⊥
  key_ne_top : ∀ k, hs.key k ≠ ⊤
  node_ne_bot : ∀ a b, hs.node a b ≠ ⊥

variable {hs : Hashes K V H}

structure Tracks (hs : Hashes K V H) (p : ProverState K V H) (A : Contents H) (M : K → Option V) : Prop
    extends Stores hs p A.cell where
  nextFreeNode : p.nextFreeNode = A.nextFreeNode
  map : Represents hs A M

theorem addInt64_one {n : Int} (h0 : 0 ≤ n) (h : n < 2 ^ defaultDepth) : addInt64 n 1 = n + 1 := by
  have : (2 : Int) ^ defaultDepth = 1099511627776 := by decide
  unfold addInt64
  rw [Int.bmod_eq_of_le] <;> omega

namespace Tracks

variable {p : ProverState K V H} {A : Contents H} {M : K → Option V} {i : Int} {o : LeafOpening H} {k : K}

theorem inTree (h : A.cell i = some o) : InTree i :=
  ⟨(A.wf.bound i o h).1, (A.wf.bound i o h).2.2⟩

theorem interior (hh : hs.Honest) (hk : o.hKey = hs.key k) : o.headOrTail = false :=
  headOrTail_eq_false.2 ⟨hk ▸ hh.key_ne_bot k, hk ▸ hh.key_ne_top k⟩

theorem absent (h : Tracks hs p A M) (hh : hs.Honest) (hk : M k = none) :
    ∀ i o, A.cell i = some o → o.hKey ≠ hs.key k := by
  intro i o hi hkey
  have hnone : A.toMap (hs.key k) = none := by rw [h.map.lookup, hk]; rfl
  exact toMap_eq_none.1 hnone i o hi (interior hh hkey) hkey

theorem exists_entry (h : Tracks hs p A M) (hk : M k ≠ none) :
    ∃ i t, p.data.lookup i = some t ∧ A.cell i = some t.leafOpening ∧ t.leafOpening.headOrTail = false ∧
      t.leafOpening.hKey = hs.key k ∧ hs.key t.key = hs.key k ∧ t.leafOpening.hVal = hs.val t.value := by
  obtain ⟨v, hv⟩ := Option.ne_none_iff_exists'.1 hk
  have hsome : A.toMap (hs.key k) = some (hs.val v) := by rw [h.map.lookup, hv]; rfl
  obtain ⟨i, o, hi, hint, hkey, -⟩ := toMap_eq_some.1 hsome
  obtain ⟨t, ht, rfl⟩ := h.exists_tuple hi
  obtain ⟨h1, h2⟩ := h.consistent i t ht hint
  exact ⟨i, t, ht, hi, hint, hkey, h1.symm.trans hkey, h2⟩

end Tracks

/-! ### The operations -/

theorem KVOpeningTuple.Consistent.copyWithNext {t : KVOpeningTuple K V H} (h : t.Consistent hs) (n : Int) :
    (t.copyWithNext n).Consistent hs := h

theorem KVOpeningTuple.Consistent.copyWithPrev {t : KVOpeningTuple K V H} (h : t.Consistent hs) (n : Int) :
    (t.copyWithPrev n).Consistent hs := h

section

variable (hs) (location : String) (n : Int) (cell : Int → Option (LeafOpening H))

def insertionTrace (im ip : Int) (om op : LeafOpening H) (k : K) (v : V) : InsertionTrace K V H :=
  let cell₁ := update cell im (some (om.copyWithNext n))
  let cell₂ := update cell₁ n (some ⟨im, ip, hs.key k, hs.val v⟩)
  { location := location, key := k, val := v, oldSubRoot := rootOf hs cell, oldOpenMinus := om, oldOpenPlus := op,
    newNextFreeNode := addInt64 n 1, proofMinus := honestProof hs cell im, proofNew := honestProof hs cell₁ n,
    proofPlus := honestProof hs cell₂ ip,
    newSubRoot := rootOf hs (update cell₂ ip (some (op.copyWithPrev n))) }

def deletionTrace (i : Int) (om o op : LeafOpening H) (k : K) (v : V) : DeletionTrace K V H :=
  let cell₁ := update cell o.prev (some (om.copyWithNext o.next))
  let cell₂ := update cell₁ i none
  { location := location, key := k, oldSubRoot := rootOf hs cell, oldOpenMinus := om, oldOpenPlus := op,
    deletedOpen := o, deletedValue := v, newNextFreeNode := n, proofMinus := honestProof hs cell o.prev,
    proofDeleted := honestProof hs cell₁ i,
    proofPlus := honestProof hs cell₂ o.next,
    newSubRoot := rootOf hs (update cell₂ o.next (some (op.copyWithPrev o.prev))) }

def updateTrace (i : Int) (o : LeafOpening H) (k : K) (v v' : V) : UpdateTrace K V H :=
  { location := location, key := k, oldValue := v, newValue := v', newNextFreeNode := n, oldSubRoot := rootOf hs cell,
    newSubRoot := rootOf hs (update cell i (some { o with hVal := hs.val v' })), oldOpening := o,
    proof := honestProof hs cell i }

def readNonZeroTrace (i : Int) (o : LeafOpening H) (k : K) (v : V) : ReadNonZeroTrace K V H :=
  { location := location, nextFreeNode := n, key := k, value := v, subRoot := rootOf hs cell, leafOpening := o,
    proof := honestProof hs cell i }

def readZeroTrace (im ip : Int) (om op : LeafOpening H) (k : K) : ReadZeroTrace K H :=
  { location := location, key := k, subRoot := rootOf hs cell, nextFreeNode := n, openingMinus := om, openingPlus := op,
    proofMinus := honestProof hs cell im, proofPlus := honestProof hs cell ip }

end

section Verify

variable {cell : Int → Option (LeafOpening H)} {v : VerifierState H} {k : K} {x : V} {om op o : LeafOpening H}

section

variable (hroot : v.subTreeRoot = rootOf hs cell)

include hroot

theorem verifyInsertion_insertionTrace {im ip n : Int} (hv : v.nextFreeNode = n)
    (hm : cell im = some om) (hn : cell n = none) (hp : cell ip = some op) (him : InTree im) (hin : InTree n)
    (hip : InTree ip) (hne : ip ≠ im) (hnext : om.next = ip) (hprev : op.prev = im) (hlo : om.hKey < hs.key k)
    (hhi : hs.key k < op.hKey) :
    v.verifyInsertion hs (insertionTrace hs v.location n cell im ip om op k x) =
      (.ok (), ⟨v.location, addInt64 n 1,
        rootOf hs (insertAt links cell im n ip om ⟨im, ip, hs.key k, hs.val x⟩ op)⟩) := by
  have hnm : n ≠ im := by rintro rfl; rw [hm] at hn; cases hn
  have hpn : ip ≠ n := by rintro rfl; rw [hp] at hn; cases hn
  have hsand : (checkSandwich om op im ip (hs.key k) : Except (Failure K H) Unit) = .ok () :=
    checkSandwich_eq_ok.2 ⟨⟨hnext, hprev⟩, hlo, hhi⟩
  refine (VerifierState.verify_iff (.insertion _)).2 ⟨⟨rfl, hv.symm, hsand, by rw [hv]; rfl⟩, hroot.symm, ?_, rfl⟩
  refine replaces_honestProof him (some _) (some _) hm (replaces_honestProof hin none (some _) ?_
    (replaces_honestProof hip (some op) (some _) ?_ rfl))
  · rw [update_of_ne hnm, hn]
  · rw [update_of_ne hpn, update_of_ne hne, hp]

theorem verifyDeletion_deletionTrace {i n : Int} (hv : v.nextFreeNode = n)
    (hm : cell o.prev = some om) (hi : cell i = some o) (hp : cell o.next = some op)
    (him : InTree o.prev) (hin : InTree i)
    (hip : InTree o.next) (hmi : i ≠ o.prev) (hpi : o.next ≠ i) (hpm : o.next ≠ o.prev) (hnext : om.next = i)
    (hprev : op.prev = i) (hkey : o.hKey = hs.key k) (hval : o.hVal = hs.val x) :
    v.verifyDeletion hs (deletionTrace hs v.location n cell i om o op k x) =
      (.ok (), ⟨v.location, n, rootOf hs (removeAt links cell o.prev i o.next om op)⟩) := by
  refine (VerifierState.verify_iff (.deletion _)).2
    ⟨⟨rfl, hval.symm, ⟨hnext, rfl⟩, ⟨rfl, hprev⟩, decide_eq_true hkey, hv⟩, hroot.symm, ?_, rfl⟩
  refine replaces_honestProof him (some _) (some _) hm (replaces_honestProof hin (some o) none ?_
    (replaces_honestProof hip (some op) (some _) ?_ rfl))
  · rw [update_of_ne hmi, hi]
  · rw [update_of_ne hpi, update_of_ne hpm, hp]

theorem updateVerify_updateTrace {i n : Int} {y : V} (hv : v.nextFreeNode = n)
    (hi : cell i = some o) (hin : InTree i) (ht : KVOpeningTuple.Consistent hs ⟨o, k, x⟩) :
    v.updateVerify hs (updateTrace hs v.location n cell i o k x y) =
      (.ok (), ⟨v.location, n, rootOf hs (update cell i (some { o with hVal := hs.val y }))⟩) := by
  refine (VerifierState.verify_iff (.update _)).2 ⟨⟨rfl, ht, hv⟩, hroot.symm, ?_, rfl⟩
  show Replaces hs _ _ [⟨_, KVOpeningTuple.leafOrZero hs ⟨o, k, x⟩, _⟩]
  rw [ht.leafOrZero_eq]
  exact replaces_honestProof hin (some _) (some _) hi rfl

theorem readNonZeroVerify_readNonZeroTrace {i n : Int} (hv : v.nextFreeNode = n)
    (hi : cell i = some o) (hin : InTree i) (ht : KVOpeningTuple.Consistent hs ⟨o, k, x⟩) :
    v.readNonZeroVerify hs (readNonZeroTrace hs v.location n cell i o k x) = .ok () :=
  VerifierState.readNonZeroVerify_eq_ok.2 ⟨⟨rfl, ht, hv⟩, hroot, recoverRoot_cell hin (some _) hi⟩

theorem readZeroVerify_readZeroTrace {im ip n : Int} (hv : v.nextFreeNode = n)
    (hm : cell im = some om) (hp : cell ip = some op) (him : InTree im) (hip : InTree ip) (hnext : om.next = ip)
    (hprev : op.prev = im) (hlo : om.hKey < hs.key k) (hhi : hs.key k < op.hKey) :
    v.readZeroVerify hs (readZeroTrace hs v.location n cell im ip om op k) = .ok () :=
  VerifierState.readZeroVerify_eq_ok.2 ⟨⟨rfl, checkSandwich_eq_ok.2 ⟨⟨hnext, hprev⟩, hlo, hhi⟩, hv⟩, hroot,
    recoverRoot_cell him (some _) hm, recoverRoot_cell hip (some _) hp⟩

end

end Verify

namespace Tracks

variable {p : ProverState K V H} {A : Contents H} {M : K → Option V} {k : K}

section

variable (h : Tracks hs p A M)

include h

theorem snapshot_root : p.verifierState.subTreeRoot = rootOf hs A.cell := h.root_eq

section

variable (hh : hs.Honest)

include hh

theorem insertAndProve_eq (hcap : A.nextFreeNode < 2 ^ defaultDepth) {im ip : Int}
    {om op : LeafOpening H} (shFind shSandwich : Shuffle) (v : V) (hfind : p.findKey hs shFind k = .ok none)
    (hsand : p.findSandwich hs shSandwich k = .ok (im, ip)) (hm : A.cell im = some om) (hp : A.cell ip = some op)
    (hpm : ip ≠ im) (hnext : om.next = ip) (hprev : op.prev = im) :
    ∃ p', p.insertAndProve hs shFind shSandwich k v =
        .ok (insertionTrace hs p.location A.nextFreeNode A.cell im ip om op k v, p') ∧ p'.location = p.location ∧
      p'.nextFreeNode = A.nextFreeNode + 1 ∧
      Stores hs p' (insertAt links A.cell im A.nextFreeNode ip om ⟨im, ip, hs.key k, hs.val v⟩ op) := by
  obtain ⟨tm, htm, rfl⟩ := h.exists_tuple hm
  obtain ⟨tp, htp, rfl⟩ := h.exists_tuple hp
  have hn := A.nextFreeNode_pos
  have hfree := A.cell_nextFreeNode
  have hne : ∀ {j o}, A.cell j = some o → j ≠ A.nextFreeNode := by
    rintro j o hj rfl
    rw [hfree] at hj; cases hj
  have hnIn : InTree A.nextFreeNode := ⟨by omega, hcap⟩
  -- the three leaves written, in order
  obtain ⟨p₁, hup₁, hloc₁, hnf₁, hst₁⟩ := h.upsertTuple_spec hh.node_ne_bot (inTree hm)
    ((h.consistent im tm htm).copyWithNext A.nextFreeNode) fun o ho => by
      cases Option.some_inj.1 (hm.symm.trans ho)
      exact ⟨rfl, numChanges_copyWithNext (hnext ▸ hne hp)⟩
  obtain ⟨p₂, hup₂, hloc₂, hnf₂, hst₂⟩ := hst₁.upsertTuple_spec hh.node_ne_bot hnIn
    (t := ⟨⟨im, ip, hs.key k, hs.val v⟩, k, v⟩) (fun _ => ⟨rfl, rfl⟩) fun o ho => by
      rw [update_of_ne (hne hm).symm, hfree] at ho; cases ho
  obtain ⟨p₃, hup₃, hloc₃, hnf₃, hst₃⟩ := hst₂.upsertTuple_spec hh.node_ne_bot (inTree hp)
    ((h.consistent ip tp htp).copyWithPrev A.nextFreeNode) fun o ho => by
      rw [update_of_ne (hne hp), update_of_ne hpm, hp] at ho
      cases ho
      exact ⟨rfl, numChanges_copyWithPrev (hprev ▸ hne hm)⟩
  have hnf : p₃.nextFreeNode = A.nextFreeNode := by rw [hnf₃, hnf₂, hnf₁, h.nextFreeNode]
  refine ⟨{ p₃ with nextFreeNode := addInt64 p₃.nextFreeNode 1 }, ?_, hloc₃.trans (hloc₂.trans hloc₁), ?_,
    hst₃.tree, hst₃.depth, hst₃.data, hst₃.consistent⟩
  · simp only [insertAndProve, hfind, hsand, mustGet_eq htm, mustGet_eq htp, h.nextFreeNode, hup₁,
      hup₂, hup₃, Option.isSome_none, Bool.false_eq_true, ↓reduceIte, ok_bind, pure_eq_ok,
      subTreeRoot, h.root_eq, hst₃.root_eq]
    rfl
  · show addInt64 p₃.nextFreeNode 1 = _
    rw [hnf, addInt64_one (by omega) hcap]

theorem insertAndProve_spec [DecidableEq K] (hk : M k = none)
    (hcap : A.nextFreeNode < 2 ^ defaultDepth) (shFind shSandwich : Shuffle) (v : V) :
    ∃ tr p' A', p.insertAndProve hs shFind shSandwich k v = .ok (tr, p') ∧
      Tracks hs p' A' (update M k (some v)) ∧ A'.nextFreeNode = A.nextFreeNode + 1 ∧
      p.verifierState.verifyInsertion hs tr = (.ok (), p'.verifierState) := by
  have habs := h.absent hh hk
  obtain ⟨im, ip, om, op, hsand, hm, hp, hlo, hhi, hnext, hprev⟩ :=
    h.findSandwich_spec shSandwich (hh.key_ne_bot k) (hh.key_ne_top k) habs
  have hpm : ip ≠ im := by
    rintro rfl
    cases Option.some_inj.1 (hm.symm.trans hp)
    exact lt_irrefl _ (hlo.trans hhi)
  have hn := A.nextFreeNode_pos
  obtain ⟨p', hins, hloc, hnf, hst⟩ := h.insertAndProve_eq hh hcap shFind shSandwich v
    (h.findKey_absent shFind habs) hsand
    hm hp hpm hnext hprev
  obtain ⟨A', hcell, hnf', hmap⟩ := exists_insert hm hp hnext hlo hhi hcap (hs.val v)
  rw [← hcell] at hst
  refine ⟨_, p', A', hins, ⟨hst, by rw [hnf, hnf'], h.map.update (y := some v) hh.key_inj hmap⟩, hnf', ?_⟩
  have hver := verifyInsertion_insertionTrace (v := p.verifierState) (k := k) (x := v) h.snapshot_root h.nextFreeNode hm
    A.cell_nextFreeNode hp (inTree hm) ⟨by omega, hcap⟩ (inTree hp) hpm hnext hprev hlo hhi
  rw [← hcell, addInt64_one (by omega) hcap] at hver
  rw [hst.verifierState_eq, hnf, hloc]
  exact hver

theorem deleteAndProve_eq {i : Int} {t : KVOpeningTuple K V H}
    {om op : LeafOpening H} (shFind : Shuffle) (hfind : p.findKey hs shFind k = .ok (some i))
    (ht : p.data.lookup i = some t) (hm : A.cell t.leafOpening.prev = some om)
    (hp : A.cell t.leafOpening.next = some op)
    (hmi : i ≠ t.leafOpening.prev) (hpi : t.leafOpening.next ≠ i) (hpm : t.leafOpening.next ≠ t.leafOpening.prev)
    (hnext : om.next = i) (hprev : op.prev = i) :
    ∃ p', p.deleteAndProve hs shFind k =
        .ok (deletionTrace hs p.location A.nextFreeNode A.cell i om t.leafOpening op k t.value, p') ∧
      p'.location = p.location ∧ p'.nextFreeNode = A.nextFreeNode ∧
      Stores hs p' (removeAt links A.cell t.leafOpening.prev i t.leafOpening.next om op) := by
  obtain ⟨tm, htm, rfl⟩ := h.exists_tuple hm
  obtain ⟨tp, htp, rfl⟩ := h.exists_tuple hp
  have hi := h.cell_eq ht
  obtain ⟨p₁, hup₁, hloc₁, hnf₁, hst₁⟩ := h.upsertTuple_spec hh.node_ne_bot (inTree hm)
    ((h.consistent _ tm htm).copyWithNext t.leafOpening.next) fun o ho => by
      cases Option.some_inj.1 (hm.symm.trans ho)
      exact ⟨rfl, numChanges_copyWithNext (by rw [hnext]; exact hpi.symm)⟩
  obtain ⟨p₂, hrm, hloc₂, hnf₂, hst₂⟩ := hst₁.rmTuple_spec hh.node_ne_bot (inTree hi)
    (by rw [update_of_ne hmi, hi])
  obtain ⟨p₃, hup₃, hloc₃, hnf₃, hst₃⟩ := hst₂.upsertTuple_spec hh.node_ne_bot (inTree hp)
    ((h.consistent _ tp htp).copyWithPrev t.leafOpening.prev) fun o ho => by
      rw [update_of_ne hpi, update_of_ne hpm, hp] at ho
      cases ho
      exact ⟨rfl, numChanges_copyWithPrev (by rw [hprev]; exact hmi)⟩
  refine ⟨p₃, ?_, hloc₃.trans (hloc₂.trans hloc₁), by rw [hnf₃, hnf₂, hnf₁, h.nextFreeNode], hst₃⟩
  simp only [deleteAndProve, hfind, mustGet_eq ht, mustGet_eq htm, mustGet_eq htp, hup₁, hrm, hup₃,
    ok_bind, pure_eq_ok, subTreeRoot, h.root_eq, hst₃.root_eq, h.nextFreeNode]
  rfl

theorem deleteAndProve_spec [DecidableEq K] (hk : M k ≠ none) (shFind : Shuffle) :
    ∃ tr p' A', p.deleteAndProve hs shFind k = .ok (tr, p') ∧ Tracks hs p' A' (update M k none) ∧
      A'.nextFreeNode = A.nextFreeNode ∧ p.verifierState.verifyDeletion hs tr = (.ok (), p'.verifierState) := by
  obtain ⟨i, t, ht, hi, hint, hkey, -, hval⟩ := h.exists_entry hk
  obtain ⟨l₁, l₂, om, op, horder, hm, hp, hnext, hprev⟩ := exists_neighbours hi hint
  have hnd := A.wf.spine.nodup
  rw [horder] at hnd
  have hmi : i ≠ t.leafOpening.prev := by intro e; simp [← e, List.nodup_append] at hnd
  have hpi : t.leafOpening.next ≠ i := by intro e; simp [e, List.nodup_append] at hnd
  have hpm : t.leafOpening.next ≠ t.leafOpening.prev := by intro e; simp [e, List.nodup_append] at hnd
  obtain ⟨p', hdel, hloc, hnf, hst⟩ := h.deleteAndProve_eq hh shFind
    (h.findKey_present shFind hi hkey) ht hm hp hmi hpi hpm
    hnext hprev
  obtain ⟨A', hcell, hnf', hmap⟩ := exists_remove hi hint hm hp
  rw [← hcell] at hst
  refine ⟨_, p', A', hdel, ⟨hst, by rw [hnf, hnf'],
    h.map.update (y := none) hh.key_inj (by rw [hmap, hkey]; rfl)⟩, hnf', ?_⟩
  have hver := verifyDeletion_deletionTrace (v := p.verifierState) (k := k)
    (x := t.value) h.snapshot_root h.nextFreeNode hm hi hp
    (inTree hm) (inTree hi) (inTree hp) hmi hpi hpm hnext hprev hkey hval
  rw [← hcell] at hver
  rw [hst.verifierState_eq, hnf, hloc]
  exact hver

theorem updateAndProve_spec [DecidableEq K] (hk : M k ≠ none) (shFind : Shuffle)
    (v : V) :
    ∃ tr p' A', p.updateAndProve hs shFind k v = .ok (tr, p') ∧ Tracks hs p' A' (update M k (some v)) ∧
      A'.nextFreeNode = A.nextFreeNode ∧ p.verifierState.updateVerify hs tr = (.ok (), p'.verifierState) := by
  obtain ⟨i, t, ht, hi, hint, hkey, hkt, hval⟩ := h.exists_entry hk
  obtain ⟨A', hcell, hnf', hmap⟩ := exists_set hi hint (hs.val v)
  obtain ⟨tree, hu, hprove, hh', hd⟩ := h.update_prove hh.node_ne_bot (inTree hi)
    (some { t.leafOpening with hVal := hs.val v })
  have hu : p.tree.update hs.node i (hs.leaf { t.leafOpening with hVal := hs.val v }) = .ok tree := hu
  have hcons : KVOpeningTuple.Consistent hs ⟨{ t.leafOpening with hVal := hs.val v }, t.key, v⟩ :=
    fun hne => ⟨((h.consistent i t ht) hint).1, rfl⟩
  have hst := h.insert_data hcons hh' hd
  have hroot : tree.root = rootOf hs (update A.cell i (some { t.leafOpening with hVal := hs.val v })) := hst.root_eq
  refine ⟨updateTrace hs p.location A.nextFreeNode A.cell i t.leafOpening t.key t.value v,
    { p with data := p.data.insert i ⟨{ t.leafOpening with hVal := hs.val v }, t.key, v⟩, tree := tree }, A', ?_,
    ⟨by rw [hcell]; exact hst, h.nextFreeNode.trans hnf'.symm,
      h.map.update (y := some v) hh.key_inj (by rw [hmap, hkey]; rfl)⟩,
    hnf', ?_⟩
  · simp only [updateAndProve, h.findKey_present shFind hi hkey, mustGet_eq ht, hkt, hu, hprove, liftTree,
      ne_eq, not_true_eq_false, ↓reduceIte, ok_bind, pure_eq_ok, subTreeRoot, h.root_eq, hroot,
      h.nextFreeNode, updateTrace]
  · have hver := updateVerify_updateTrace (v := p.verifierState) (x := t.value)
      (y := v) h.snapshot_root h.nextFreeNode hi
      (inTree hi) (h.consistent i t ht)
    rw [hst.verifierState_eq, h.nextFreeNode]
    exact hver

theorem readNonZeroAndProve_spec (hk : M k ≠ none) (shFind : Shuffle) :
    ∃ tr, p.readNonZeroAndProve hs shFind k = .ok tr ∧ p.verifierState.readNonZeroVerify hs tr = .ok () := by
  obtain ⟨i, t, ht, hi, hint, hkey, hkt, hval⟩ := h.exists_entry hk
  refine ⟨readNonZeroTrace hs p.location A.nextFreeNode A.cell i t.leafOpening t.key t.value, ?_,
    readNonZeroVerify_readNonZeroTrace (v := p.verifierState) h.snapshot_root h.nextFreeNode hi (inTree hi)
      (h.consistent i t ht)⟩
  simp only [readNonZeroAndProve, h.findKey_present shFind hi hkey, mustGet_eq ht, hkt,
    h.prove_eq hh.node_ne_bot (inTree hi), liftTree, ne_eq, not_true_eq_false, ↓reduceIte, ok_bind,
    pure_eq_ok, subTreeRoot, h.root_eq, h.nextFreeNode, readNonZeroTrace]

theorem readZeroAndProve_spec (hk : M k = none) (shFind shSandwich : Shuffle) :
    ∃ tr, p.readZeroAndProve hs shFind shSandwich k = .ok tr ∧ p.verifierState.readZeroVerify hs tr = .ok () := by
  have habs := h.absent hh hk
  obtain ⟨im, ip, om, op, hsand, hm, hp, hlo, hhi, hnext, hprev⟩ :=
    h.findSandwich_spec shSandwich (hh.key_ne_bot k) (hh.key_ne_top k) habs
  obtain ⟨tm, htm, rfl⟩ := h.exists_tuple hm
  obtain ⟨tp, htp, rfl⟩ := h.exists_tuple hp
  refine ⟨readZeroTrace hs p.location A.nextFreeNode A.cell im ip tm.leafOpening tp.leafOpening k, ?_,
    readZeroVerify_readZeroTrace (v := p.verifierState) h.snapshot_root h.nextFreeNode hm hp
      (inTree hm) (inTree hp) hnext
      hprev hlo hhi⟩
  simp only [readZeroAndProve, h.findKey_absent shFind habs, hsand, mustGet_eq htm, mustGet_eq htp,
    h.prove_eq hh.node_ne_bot (inTree hm), h.prove_eq hh.node_ne_bot (inTree hp), liftTree, Option.isSome_none,
    Bool.false_eq_true, ↓reduceIte, ok_bind, pure_eq_ok, subTreeRoot, h.root_eq, h.nextFreeNode,
    readZeroTrace]

end

end

end Tracks

end Lineth.Accumulator
