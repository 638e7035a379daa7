import Lineth.Wiop.LogDerivative

/-!
# Sums of fractions are exact

The prover computes a column `Z` in three steps, each shared out among workers: the sum of the fractions on every row,
the running sums, and the correction by the average. The column satisfies its recurrence and the average times the
number of rows is the sum of the group. Where no denominator is zero, the recurrence leaves the average no choice. -/

namespace Lineth.Wiop.LogDerivative

open Koalabear Parallel Except List

variable {K : Type}

/-! ### The prover -/

section

variable [Field K] {mods : Nat → Module} (rt : Runtime mods K)

/-- The quotient, times the filter if there is one. -/
def Fraction.termAt (f : Fraction K) (row : Nat) : K :=
  let quotient := valueAt rt f.numerator row / f.denominatorAt rt row
  match f.filter with
  | some e => quotient * valueAt rt e row
  | none => quotient

def Packed.rowSum (p : Packed K) (row : Nat) : K := p.all.foldl (fun sum f => sum + f.termAt rt row) 0

/-- A zero denominator on a row where the filter is not zero makes the prover panic. -/
def Packed.Checked (p : Packed K) (n : Nat) : Prop :=
  ∀ f ∈ p.all, ∀ row < n, f.denominatorAt rt row = 0 → f.filterAt rt row = 0

def correctStep (average : K) (w k : Nat) : List (Step ScanLoc K) :=
  [fun m => store m (.acc w) (m (.acc w) + average), fun m => store m (.z k) (m (.z k) - m (.acc w))]

/-- The elements of a piece of `Z` are lowered by the average, as many times as there are rows so far. -/
def correctWork (average : K) (w : Nat) (p : Nat × Nat) : List (Step ScanLoc K) :=
  (fun m => store m (.acc w) (average * (p.1 : K))) :: (Tiling.members p).flatMap (correctStep average w)

structure ZOutcome (K : Type) extends ZValues K where
  total : K

/-- What the workers of an entry can leave behind; a longer column is not assigned. -/
def EntryRuns (workers : Nat) (e : ZEntry K) (out : ZOutcome K) : Prop :=
  let n := rt.runtimeSize e.module
  e.packed.Checked rt n ∧ n ≤ columnSizeMaxSupported ∧ ∃ sums,
    VecPrefixSum n workers (e.packed.rowSum rt) sums ∧
    out.total = sums (n - 1) ∧
    out.average = out.total * (n : K)⁻¹ ∧
    ∃ m, Executes n workers (correctWork out.average) (fun | .z i => sums i | _ => 0) m ∧ out.z = fun i => m (.z i)

/-- The share of an entry in the processors. -/
def workersOf (cpus cost total : Nat) : Nat := if total > 0 then max 1 (cpus * cost / total) else 1

/-- `proverAction.Run`, for a result that may be assigned already. -/
def ProverRuns (cpus : Nat) (entries : List (ZEntry K)) (assigned : Option K)
    (outs : List (ZOutcome K)) (result : K) : Prop :=
  let size (e : ZEntry K) := rt.runtimeSize e.module
  List.Forall₂ (fun e out => EntryRuns rt (workersOf cpus (size e) (entries.map size).sum) e out) entries outs ∧
    result = assigned.getD (outs.map ZOutcome.total).sum

end

/-! ### What is packed -/

theorem addToBucket_spec (f : Fraction K) {bs : List (FractionBucket K)}
    (hbs : ∀ b ∈ bs, ∀ g ∈ b.fractions, g.module = b.module) :
    ((addToBucket f bs).flatMap FractionBucket.fractions).Perm (f :: bs.flatMap FractionBucket.fractions) ∧
      ∀ b ∈ addToBucket f bs, ∀ g ∈ b.fractions, g.module = b.module := by
  induction bs with
  | nil =>
    refine ⟨List.Perm.refl _, fun b hb g hg => ?_⟩
    obtain rfl := mem_singleton.1 hb
    rw [mem_singleton.1 hg]
  | cons b bs ih =>
    obtain ⟨hb, hrest⟩ := forall_mem_cons.1 hbs
    rw [addToBucket]
    by_cases hmod : b.module = f.module
    · rw [if_pos hmod]
      constructor
      · rw [flatMap_cons, flatMap_cons, append_assoc]
        exact perm_middle
      · refine forall_mem_cons.2 ⟨fun g hg => ?_, hrest⟩
        rcases mem_append.1 hg with hg | hg
        · exact hb g hg
        · rw [mem_singleton.1 hg]
          exact hmod.symm
    · rw [if_neg hmod]
      obtain ⟨hperm, hmods⟩ := ih hrest
      refine ⟨?_, forall_mem_cons.2 ⟨hb, hmods⟩⟩
      rw [flatMap_cons, flatMap_cons]
      exact (hperm.append_left _).trans perm_middle

theorem bucketByModule_spec (fractions : List (Fraction K)) :
    ((bucketByModule fractions).flatMap FractionBucket.fractions).Perm fractions ∧
      ∀ b ∈ bucketByModule fractions, ∀ g ∈ b.fractions, g.module = b.module := by
  suffices H : ∀ (fs : List (Fraction K)) (bs : List (FractionBucket K)),
    (∀ b ∈ bs, ∀ g ∈ b.fractions, g.module = b.module) →
      ((fs.foldl (fun bs f => addToBucket f bs) bs).flatMap FractionBucket.fractions).Perm
          (fs ++ bs.flatMap FractionBucket.fractions) ∧
        ∀ b ∈ fs.foldl (fun bs f => addToBucket f bs) bs, ∀ g ∈ b.fractions, g.module = b.module by
    obtain ⟨hperm, hmods⟩ := H fractions [] fun b hb => by cases hb
    rw [flatMap_nil, append_nil] at hperm
    exact ⟨hperm, hmods⟩
  intro fs
  induction fs with
  | nil => exact fun bs hbs => ⟨List.Perm.refl _, hbs⟩
  | cons f fs ih =>
    intro bs hbs
    obtain ⟨hperm, hmods⟩ := addToBucket_spec f hbs
    obtain ⟨ihperm, ihmods⟩ := ih _ hmods
    exact ⟨ihperm.trans ((hperm.append_left fs).trans perm_middle), ihmods⟩

theorem packLoop_spec {fuel : Nat} {fs : List (Fraction K)} {groups : List (Packed K)} (hfuel : fs.length ≤ fuel)
    (h : packLoop fuel fs = .ok groups) : groups.flatMap Packed.all = fs := by
  induction fuel generalizing fs groups with
  | zero =>
    obtain rfl := eq_nil_of_length_eq_zero (Nat.le_zero.1 hfuel)
    cases h
    rfl
  | succ fuel ih =>
    cases fs with
    | nil =>
      cases h
      rfl
    | cons f fs =>
      obtain ⟨n, -, h⟩ := bind_eq_ok.1 h
      obtain ⟨rest, hrest, h⟩ := bind_eq_ok.1 h
      cases h
      have hlength : (fs.drop (n - 1)).length ≤ fuel := by
        have := Nat.le_of_succ_le_succ hfuel
        rw [length_drop]
        omega
      rw [flatMap_cons, ih hlength hrest, Packed.all, cons_append, take_append_drop]

theorem compileQuery_spec {fractions : List (Fraction K)} {entries : List (ZEntry K)}
    (h : compileQuery fractions = .ok entries) :
    (entries.flatMap fun e => e.packed.all).Perm fractions ∧
      ∀ e ∈ entries, e.recurrence = ⟨e.packed.recurrence, []⟩ ∧ ∀ f ∈ e.packed.all, f.module = e.module := by
  obtain ⟨hperm, hmods⟩ := bucketByModule_spec fractions
  obtain ⟨lists, hlists, hflatten⟩ := bind_eq_ok.1 h
  clear h
  cases hflatten
  generalize bucketByModule fractions = bs at hperm hmods hlists
  suffices H : (lists.flatten.flatMap fun e => e.packed.all) = bs.flatMap FractionBucket.fractions ∧
      ∀ e ∈ lists.flatten, e.recurrence = ⟨e.packed.recurrence, []⟩ ∧ ∀ f ∈ e.packed.all, f.module = e.module from
    ⟨H.1 ▸ hperm, H.2⟩
  clear hperm
  induction bs generalizing lists with
  | nil =>
    cases hlists
    exact ⟨rfl, fun e he => by cases he⟩
  | cons b bs ih =>
    obtain ⟨hb, hrest⟩ := forall_mem_cons.1 hmods
    rw [mapM_cons] at hlists
    obtain ⟨l, hl, hlists⟩ := bind_eq_ok.1 hlists
    obtain ⟨ls, hls, hlists⟩ := bind_eq_ok.1 hlists
    cases hlists
    obtain ⟨groups, hgroups, hl⟩ := bind_eq_ok.1 hl
    cases hl
    obtain ⟨ih1, ih2⟩ := ih ls hrest hls
    have hall : groups.flatMap Packed.all = b.fractions := packLoop_spec (Nat.le_refl _) hgroups
    rw [flatten_cons, flatMap_append, ih1, flatMap_map, flatMap_cons]
    refine ⟨congrArg (· ++ _) hall, fun e he => ?_⟩
    rcases mem_append.1 he with he | he
    · obtain ⟨p, hp, rfl⟩ := mem_map.1 he
      exact ⟨rfl, fun f hf => hb f (hall ▸ mem_flatMap.2 ⟨p, hp, hf⟩)⟩
    · exact ih2 e he

/-! ### Polynomial fractions -/

theorem degreeFactor_errorsIn {e : Factor K} (h : e.IsPolynomial) : ErrorsIn (fun _ => False) e.degreeFactor := by
  induction e with
  | leaf l => exact errorsIn_ok _ _
  | add a b iha ihb | sub a b iha ihb | mul a b iha ihb =>
    exact (iha h.1).bind fun _ _ => (ihb h.2).bind fun _ _ => errorsIn_ok _ _
  | double a ih | negate a ih => exact ih h
  | square a ih => exact (ih h).bind fun _ _ => errorsIn_ok _ _
  | div a b | inverse a => exact h.elim

theorem packedDegree_errorsIn {fs : List (Fraction K)} (h : ∀ f ∈ fs, f.IsPolynomial) :
    ErrorsIn (fun _ => False) (packedDegree fs) := by
  have hden : ∀ f ∈ fs, ErrorsIn (fun _ => False) f.denominator.degreeFactor :=
    fun f hf => degreeFactor_errorsIn (h f hf _ (by simp))
  refine (ErrorsIn.mapM hden).bind fun dens _ => .foldlM (fun f hf deg => ?_) _
  refine (degreeFactor_errorsIn (h f hf _ mem_cons_self)).bind fun num _ => ?_
  cases hfilter : f.filter with
  | none => exact (hden f hf).bind fun _ _ => errorsIn_ok _ _
  | some e =>
    refine (degreeFactor_errorsIn (h f hf e (by simp [hfilter]))).bind fun _ _ => ?_
    exact (hden f hf).bind fun _ _ => errorsIn_ok _ _

theorem growGroup_errorsIn {fs : List (Fraction K)} (h : ∀ f ∈ fs, f.IsPolynomial) (fuel n : Nat) :
    ErrorsIn (fun _ => False) (growGroup fs fuel n) := by
  induction fuel generalizing n with
  | zero => exact errorsIn_ok _ _
  | succ fuel ih =>
    refine .ite (fun _ => ?_) fun _ => errorsIn_ok _ _
    refine (packedDegree_errorsIn fun f hf => h f (mem_of_mem_take hf)).bind fun degree _ => ?_
    exact .ite (fun _ => ih (n + 1)) fun _ => errorsIn_ok _ _

theorem packLoop_errorsIn {fs : List (Fraction K)} (h : ∀ f ∈ fs, f.IsPolynomial) (fuel : Nat) :
    ErrorsIn (fun _ => False) (packLoop fuel fs) := by
  induction fuel generalizing fs with
  | zero => exact errorsIn_ok _ _
  | succ fuel ih =>
    cases fs with
    | nil => exact errorsIn_ok _ _
    | cons f fs =>
      refine (growGroup_errorsIn h _ _).bind fun n _ => .bind (ih fun g hg => ?_) fun _ _ => errorsIn_ok _ _
      exact h g (mem_cons_of_mem _ (mem_of_mem_drop hg))

theorem exists_compileQuery {fractions : List (Fraction K)} (h : ∀ f ∈ fractions, f.IsPolynomial) :
    ∃ entries, compileQuery fractions = .ok entries := by
  refine ErrorsIn.exists_ok (.bind (.mapM fun b hb => ?_) fun _ _ => errorsIn_ok _ _)
  refine (packLoop_errorsIn (fun f hf => h f ?_) _).bind fun _ _ => errorsIn_ok _ _
  exact (bucketByModule_spec fractions).1.subset (mem_flatMap.2 ⟨b, hb, hf⟩)

/-! ### What a recurrence says -/

section

variable [Field K] {mods : Nat → Module} {rt : Runtime mods K}

theorem eval_lift (e : Factor K) (m : Nat) (v : ZValues K) (row : Nat) :
    e.lift.eval (Leaf.rowValue (ZColumn.module m) rt.runtimeSize (rt.withZ v.z v.average) row) = valueAt rt e row := by
  rw [Factor.lift, Expression.eval_map]
  refine Expression.eval_congr fun l _ => ?_
  cases l <;> rfl

theorem valueAt_foldl_mul (fs : List (Fraction K)) (e : Factor K) (row : Nat) :
    valueAt rt (fs.foldl (fun t g => .mul t g.denominator) e) row =
      valueAt rt e row * (fs.map fun f => f.denominatorAt rt row).prod := by
  induction fs generalizing e with
  | nil => rw [map_nil, prod_nil, mul_one]; rfl
  | cons f fs ih =>
    rw [foldl_cons, ih, map_cons, prod_cons, ← mul_assoc]
    rfl

namespace Packed

variable (p : Packed K) (row : Nat)

theorem valueAt_zDen : valueAt rt p.zDen row = (p.all.map fun f => f.denominatorAt rt row).prod := by
  rw [zDen, valueAt_foldl_mul, all, map_cons, prod_cons]
  rfl

theorem valueAt_term (f : Fraction K) (j : Nat) :
    valueAt rt (p.term f j) row = f.filterAt rt row * valueAt rt f.numerator row *
      ((p.all.eraseIdx j).map fun g => g.denominatorAt rt row).prod := by
  rw [term, valueAt_foldl_mul, Fraction.filterAt]
  cases f.filter with
  | none =>
    change valueAt rt f.numerator row * _ = 1 * valueAt rt f.numerator row * _
    rw [one_mul]
  | some e => rfl

theorem valueAt_zNum : valueAt rt p.zNum row = (p.all.zipIdx.map fun f => valueAt rt (p.term f.1 f.2) row).sum := by
  have hfold (fs : List (Fraction K × Nat)) (e : Factor K) :
      valueAt rt (fs.foldl (fun num f => .add num (p.term f.1 f.2)) e) row =
        valueAt rt e row + (fs.map fun f => valueAt rt (p.term f.1 f.2) row).sum := by
    induction fs generalizing e with
    | nil => rw [map_nil, sum_nil, add_zero]; rfl
    | cons f fs ih =>
      rw [foldl_cons, ih, map_cons, sum_cons, ← add_assoc]
      rfl
  rw [zNum, hfold, all, zipIdx_cons, map_cons, sum_cons]

/-- The cross products add up to the sum of the fractions times all denominators, also where a denominator is zero
that the filter masks. -/
theorem valueAt_zNum_eq (hmask : ∀ f ∈ p.all, f.denominatorAt rt row = 0 → f.filterAt rt row = 0) :
    valueAt rt p.zNum row = (p.all.map fun f => f.at rt row).sum * valueAt rt p.zDen row := by
  rw [valueAt_zNum, valueAt_zDen, ← sum_map_mul_right]
  have hterm : ∀ f ∈ p.all.zipIdx, valueAt rt (p.term f.1 f.2) row =
      f.1.at rt row * (p.all.map fun g => g.denominatorAt rt row).prod := by
    rintro ⟨f, j⟩ hf
    obtain ⟨hj, hfj⟩ : ∃ hj : j < p.all.length, p.all[j] = f :=
      List.getElem?_eq_some_iff.1 (List.mem_zipIdx_iff_getElem?.1 hf)
    have hprod : f.denominatorAt rt row * ((p.all.eraseIdx j).map fun g => g.denominatorAt rt row).prod =
        (p.all.map fun g => g.denominatorAt rt row).prod := by
      have := List.CommMonoid.mul_prod_eraseIdx (l := p.all.map fun g => g.denominatorAt rt row) (i := j)
        (by rwa [length_map])
      rwa [getElem_map, hfj, eraseIdx_map] at this
    rw [valueAt_term, Fraction.at, ← hprod]
    by_cases hzero : f.denominatorAt rt row = 0
    · rw [hmask f (hfj ▸ getElem_mem hj) hzero, zero_mul, zero_mul, zero_mul, zero_mul]
    · rw [mul_assoc, mul_assoc, ← mul_assoc (_ / _), div_mul_cancel₀ _ hzero]
  rw [map_congr_left hterm]
  generalize (p.all.map fun g => g.denominatorAt rt row).prod = den
  have hfst : (p.all.zipIdx.map Prod.fst).map (fun f => f.at rt row * den) = p.all.zipIdx.map fun f =>
    f.1.at rt row * den :=
    map_map
  rw [← hfst, zipIdx_map_fst]

end Packed

theorem viewRow_neg_one_eq_prev {n row : Nat} (h : row < n) : viewRow n (-1) row = CyclicSum.prev n row := by
  cases row with
  | zero =>
    rw [CyclicSum.prev_zero h, viewRow]
    have : ((0 : Nat) + -1 : Int) % n = n - 1 := by
      rw [← Int.add_emod_right, Int.emod_eq_of_lt (by omega) (by omega)]
      omega
    rw [this]
    omega
  | succ row => rw [CyclicSum.prev_succ h, viewRow_neg_one h]

def Packed.sumAt (rt : Runtime mods K) (p : Packed K) (row : Nat) : K := (p.all.map fun f => f.at rt row).sum

section

variable {e : ZEntry K} (hrec : e.recurrence = ⟨e.packed.recurrence, []⟩)

include hrec

theorem ZEntry.holds_iff (v : ZValues K)
    (hmask : ∀ f ∈ e.packed.all, ∀ row < rt.runtimeSize e.module, f.denominatorAt rt row = 0 → f.filterAt rt row = 0) :
    e.Holds rt v ↔ ∀ row < rt.runtimeSize e.module,
      (e.packed.sumAt rt row - (v.z row - v.z (CyclicSum.prev (rt.runtimeSize e.module) row) + v.average)) *
        valueAt rt e.packed.zDen row = 0 := by
  rw [Holds, Vanishing.Holds, hrec]
  refine forall₂_congr fun row hrow => ?_
  have hcancels : ¬ Vanishing.Cancels ⟨e.packed.recurrence, []⟩ (rt.runtimeSize e.module) row :=
    fun ⟨p, hp, _⟩ => by cases hp
  have hz (shift : Int) : Leaf.rowValue (ZColumn.module e.module) rt.runtimeSize (rt.withZ v.z v.average) row
      (.column .z shift : Leaf K ZColumn) = v.z (viewRow (rt.runtimeSize e.module) shift row) := rfl
  have haverage : Leaf.rowValue (ZColumn.module e.module) rt.runtimeSize (rt.withZ v.z v.average) row
      (.cell 0 : Leaf K ZColumn) = v.average := rfl
  rw [forall_prop_of_true hcancels, Packed.recurrence]
  simp only [Expression.eval, eval_lift, hz, haverage]
  rw [viewRow_zero hrow, viewRow_neg_one_eq_prev hrow, Packed.valueAt_zNum_eq _ _ fun f hf =>
    hmask f hf row hrow, ← sub_mul]
  rfl

theorem ZEntry.holds_of_rises {v : ZValues K}
    (hmask : ∀ f ∈ e.packed.all, ∀ row < rt.runtimeSize e.module, f.denominatorAt rt row = 0 → f.filterAt rt row = 0)
    (h : CyclicSum.Rises (rt.runtimeSize e.module) (e.packed.sumAt rt) v.average v.z) : e.Holds rt v := by
  refine (holds_iff hrec v hmask).2 fun row hrow => ?_
  rw [h row hrow, sub_add_cancel, sub_self, zero_mul]

/-- Without zero denominators, there is no other column. -/
theorem ZEntry.holds_iff_rises {v : ZValues K}
    (hden : ∀ f ∈ e.packed.all, ∀ row < rt.runtimeSize e.module, f.denominatorAt rt row ≠ 0) :
    e.Holds rt v ↔ CyclicSum.Rises (rt.runtimeSize e.module) (e.packed.sumAt rt) v.average v.z := by
  rw [holds_iff hrec v fun f hf row hrow h => absurd h (hden f hf row hrow)]
  refine forall₂_congr fun row hrow => ?_
  have hne : valueAt rt e.packed.zDen row ≠ 0 := by
    rw [Packed.valueAt_zDen]
    refine prod_ne_zero fun h0 => ?_
    obtain ⟨f, hf, h0⟩ := mem_map.1 h0
    exact hden f hf row hrow h0
  rw [mul_eq_zero, or_iff_left hne, sub_eq_zero, eq_sub_iff_add_eq, eq_comm]

end

/-! ### The sum of the groups -/

def ZEntry.total (rt : Runtime mods K) (e : ZEntry K) : K :=
  ∑ row ∈ Finset.range (rt.runtimeSize e.module), e.packed.sumAt rt row

variable {e : ZEntry K}

theorem ZEntry.total_eq (hmods : ∀ f ∈ e.packed.all, f.module = e.module) :
    e.total rt = (e.packed.all.map fun f => ∑ row ∈ Finset.range (rt.runtimeSize f.module), f.at rt row).sum := by
  rw [ZEntry.total]
  simp only [Packed.sumAt]
  generalize e.packed.all = fs at hmods
  induction fs with
  | nil => exact Finset.sum_const_zero
  | cons f fs ih =>
    obtain ⟨hf, hfs⟩ := forall_mem_cons.1 hmods
    simp only [map_cons, sum_cons]
    rw [Finset.sum_add_distrib, ih hfs, hf]

theorem sum_entries {fractions : List (Fraction K)} {entries : List (ZEntry K)}
    (h : compileQuery fractions = .ok entries) :
    (entries.map (ZEntry.total rt)).sum = total rt fractions := by
  obtain ⟨hperm, hentries⟩ := compileQuery_spec h
  rw [total, ← (hperm.map _).sum_eq, map_flatMap, flatMap_def, sum_flatten, map_map]
  exact congrArg List.sum (map_congr_left fun e he => ZEntry.total_eq (hentries e he).2)

/-! ### What the prover leaves behind -/

section

variable {n : Nat} {m m' : ScanLoc → K}

def correctOwn (w : Nat) (p : Nat × Nat) : Set ScanLoc := fun
  | .acc w' => w' = w
  | .z i => p.1 ≤ i ∧ i < p.2
  | .offset _ => False

theorem correctWork_local {average : K} {w : Nat} {p : Nat × Nat} {f : Step ScanLoc K}
    (hf : f ∈ correctWork average w p) :
    Local (correctOwn w p) ∅ f := by
  have hacc : .acc w ∈ correctOwn w p := rfl
  rcases mem_cons.1 hf with rfl | hf
  · exact local_store hacc fun _ _ _ => rfl
  · obtain ⟨k, hk, hf⟩ := mem_flatMap.1 hf
    have hz : .z k ∈ correctOwn w p := by
      have := mem_range'_1.1 hk
      exact ⟨this.1, by omega⟩
    rcases mem_pair.1 hf with rfl | rfl
    · exact local_store hacc fun m m' h => by rw [h _ (.inl hacc)]
    · exact local_store hz fun m m' h => by rw [h _ (.inl hacc), h _ (.inl hz)]

theorem correctOwn_disjoint {w w' : Nat} {p p' : Nat × Nat} (hw : w ≠ w') (hp : p.2 ≤ p'.1 ∨ p'.2 ≤ p.1) {x : ScanLoc}
    (hx : x ∈ correctOwn w p) : x ∉ correctOwn w' p' := by
  intro hx'
  cases x with
  | z i =>
    have h : p.1 ≤ i ∧ i < p.2 := hx
    have h' : p'.1 ≤ i ∧ i < p'.2 := hx'
    omega
  | acc v => exact hw (Eq.trans (Eq.symm hx) hx')
  | offset c => exact hx

theorem run_correctStep (average : K) (w s len : Nat) (m : ScanLoc → K) (hacc : m (.acc w) = s • average) :
    run ((range' s len).flatMap (correctStep average w)) m (.acc w) = (s + len) • average ∧
      (∀ i, s ≤ i → i < s + len →
        run ((range' s len).flatMap (correctStep average w)) m (.z i) = m (.z i) - (i + 1) • average) ∧
      ∀ i, s + len ≤ i → run ((range' s len).flatMap (correctStep average w)) m (.z i) = m (.z i) := by
  induction len with
  | zero => exact ⟨hacc, fun i h1 h2 => by omega, fun i _ => rfl⟩
  | succ len ih =>
    obtain ⟨h1, h2, h3⟩ := ih
    rw [range'_1_concat, flatMap_append, run_append, flatMap_singleton, correctStep, run_cons, run_cons, run_nil]
    generalize run ((range' s len).flatMap (correctStep average w)) m = m' at h1 h2 h3
    have hacc' : m' (.acc w) + average = (s + len + 1) • average := by rw [h1, succ_nsmul]
    refine ⟨?_, fun i hi hi' => ?_, fun i hi => ?_⟩
    · rw [store_of_ne _ _ (by simp), store_self, hacc']
      rfl
    · by_cases hlast : i = s + len
      · subst hlast
        rw [store_self, store_self, store_of_ne _ _ (by simp), h3 _ (Nat.le_refl _), hacc']
      · rw [store_of_ne _ _ fun heq => hlast (ScanLoc.z.inj heq), store_of_ne _ _ (by simp), h2 i hi (by omega)]
    · have hne : i ≠ s + len := by omega
      rw [store_of_ne _ _ fun heq => hne (ScanLoc.z.inj heq), store_of_ne _ _ (by simp), h3 i (by omega)]

theorem run_correctWork (average : K) (w : Nat) (p : Nat × Nat) (m : ScanLoc → K) {i : Nat}
    (hi : p.1 ≤ i) (hi' : i < p.2) :
    run (correctWork average w p) m (.z i) = m (.z i) - (i + 1) • average := by
  have hacc : store m (.acc w) (average * (p.1 : K)) (.acc w) = p.1 • average := by
    rw [store_self, nsmul_eq_mul, mul_comm]
  rw [correctWork, run_cons, Tiling.members, (run_correctStep average w p.1 (p.2 - p.1) _ hacc).2.1 i hi (by omega),
    store_of_ne _ _ (by simp)]

theorem correctWork_spec {average : K} {workers : Nat} (h : Executes n workers (correctWork average) m m') :
    ∀ i < n, m' (.z i) = m (.z i) - (i + 1) • average := by
  intro i hi
  obtain ⟨w, p, h1, h2, -, heq⟩ := (h.spec correctOwn ∅ (fun w p _ _ f hf => correctWork_local hf)
    (fun w p w' p' hw hp x hx => correctOwn_disjoint hw hp hx) fun _ _ _ hx => by cases hx).1 i hi
  rw [heq (.z i) ⟨h1, h2⟩, run_correctWork average w p m h1 h2]

end

theorem Packed.rowSum_eq (p : Packed K) : p.rowSum rt = p.sumAt rt := by
  funext row
  have hterm (f : Fraction K) : f.termAt rt row = f.at rt row := by
    rw [Fraction.termAt, Fraction.at, Fraction.filterAt]
    cases f.filter with
    | none => exact (one_mul _).symm
    | some e => exact mul_comm _ _
  have hfold (fs : List (Fraction K)) (a : K) :
      fs.foldl (fun sum f => sum + f.termAt rt row) a = a + (fs.map fun f => f.at rt row).sum := by
    induction fs generalizing a with
    | nil => rw [map_nil, sum_nil, add_zero]; rfl
    | cons f fs ih => rw [foldl_cons, ih, map_cons, sum_cons, hterm, add_assoc]
  rw [rowSum, hfold, zero_add]
  rfl

theorem EntryRuns.spec {workers : Nat} {out : ZOutcome K} (h : EntryRuns rt workers e out)
    (hrec : e.recurrence = ⟨e.packed.recurrence, []⟩) (hsize : (rt.runtimeSize e.module : K) ≠ 0) :
    e.Holds rt out.toZValues ∧ out.total = e.total rt ∧ out.average * (rt.runtimeSize e.module : K) = e.total rt := by
  obtain ⟨hchecked, -, sums, hsums, htotal, haverage, m, hm, hz⟩ := h
  have hn := rt.runtimeSize_pos e.module
  have hsums := hsums.spec
  rw [Packed.rowSum_eq] at hsums
  have htotal : out.total = e.total rt := by
    rw [htotal, hsums _ (Nat.sub_lt hn Nat.one_pos), Nat.sub_add_cancel hn]
    rfl
  have hsmul : out.average * (rt.runtimeSize e.module : K) = e.total rt := by
    rw [haverage, htotal, inv_mul_cancel_right₀ hsize]
  refine ⟨ZEntry.holds_of_rises hrec hchecked ?_, htotal, hsmul⟩
  refine CyclicSum.rises_running ?_ fun i hi => ?_
  · rw [nsmul_eq_mul, mul_comm, hsmul]
    rfl
  · rw [hz]
    change m (.z i) = _
    rw [correctWork_spec hm i hi, ← hsums i hi]

theorem exists_entryRuns (workers : Nat) (hchecked : e.packed.Checked rt (rt.runtimeSize e.module))
    (hsize : rt.runtimeSize e.module ≤ columnSizeMaxSupported) : ∃ out, EntryRuns rt workers e out := by
  obtain ⟨sums, hsums⟩ := exists_vecPrefixSum (rt.runtimeSize e.module) workers (e.packed.rowSum rt)
  obtain ⟨m, hm⟩ := exists_executes (rt.runtimeSize e.module) workers
    (correctWork (sums (rt.runtimeSize e.module - 1) * (rt.runtimeSize e.module : K)⁻¹)) (fun | .z i => sums i | _ => 0)
  exact ⟨⟨⟨fun i => m (.z i), sums (rt.runtimeSize e.module - 1) * (rt.runtimeSize e.module : K)⁻¹⟩,
    sums (rt.runtimeSize e.module - 1)⟩, hchecked, hsize, sums, hsums, rfl, rfl, m, hm, rfl⟩

/-! ### Exactness -/

theorem natCast_two_pow_ne_zero [CharP K Koalabear.modulus] (k : Nat) : ((2 ^ k : Nat) : K) ≠ 0 := by
  intro h
  rw [CharP.cast_eq_zero_iff K Koalabear.modulus] at h
  have := (Nat.prime_dvd_prime_iff_eq Koalabear.modulus_prime Nat.prime_two).1
    (Koalabear.modulus_prime.dvd_of_dvd_pow h)
  exact absurd this (by decide)

theorem finalSumCheck_iff {entries : List (ZEntry K)} {vs : List (ZValues K)} {result : K}
    (h : List.Forall₂ (fun e v => v.average * (rt.runtimeSize e.module : K) = e.total rt) entries vs) :
    FinalSumCheck rt entries vs result ↔ result = (entries.map (ZEntry.total rt)).sum := by
  have hsum : (zipWith (fun e v => v.average * (rt.runtimeSize e.module : K)) entries vs).sum =
      (entries.map (ZEntry.total rt)).sum := by
    induction h with
    | nil => rfl
    | cons hv _ ih => rw [zipWith_cons_cons, sum_cons, map_cons, sum_cons, hv, ih]
  rw [FinalSumCheck, hsum, sub_eq_zero, eq_comm]

theorem exists_forall₂ {α β : Type} {R : α → β → Prop} {l : List α} (h : ∀ a ∈ l, ∃ b, R a b) :
    ∃ bs, List.Forall₂ R l bs := by
  induction l with
  | nil => exact ⟨[], .nil⟩
  | cons a l ih =>
    obtain ⟨⟨b, hb⟩, hl⟩ := forall_mem_cons.1 h
    obtain ⟨bs, hbs⟩ := ih hl
    exact ⟨b :: bs, .cons hb hbs⟩

section

variable {fractions : List (Fraction K)} {entries : List (ZEntry K)}

section

variable (hcompile : compileQuery fractions = .ok entries) (hsize : ∀ m, (rt.runtimeSize m : K) ≠ 0)

include hcompile hsize

/-- Fractions whose denominators are not zero have columns and averages exactly for their sum. -/
theorem exists_accepts_iff (hden : ∀ f ∈ fractions, ∀ row < rt.runtimeSize f.module, f.denominatorAt rt row ≠ 0)
    (result : K) :
    (∃ vs, Accepts rt entries vs result) ↔ result = total rt fractions := by
  obtain ⟨hperm, hentries⟩ := compileQuery_spec hcompile
  have hiff : ∀ e ∈ entries, ∀ v, e.Holds rt v ↔ CyclicSum.Rises (rt.runtimeSize e.module)
    (e.packed.sumAt rt) v.average v.z := by
    intro e he v
    refine ZEntry.holds_iff_rises (hentries e he).1 fun f hf row hrow => ?_
    have hmem : f ∈ fractions := hperm.subset (mem_flatMap.2 ⟨e, he, hf⟩)
    exact hden f hmem row ((hentries e he).2 f hf ▸ hrow)
  rw [← sum_entries hcompile]
  constructor
  · rintro ⟨vs, hholds, hcheck⟩
    have hall := (forall₂_and_left _ _).2 ⟨fun e (he : e ∈ entries) => he, hholds⟩
    refine (finalSumCheck_iff (hall.imp fun e v ⟨he, hv⟩ => ?_)).1 hcheck
    rw [mul_comm, ← nsmul_eq_mul]
    exact ((hiff e he v).1 hv).average (rt.runtimeSize_pos _)
  · rintro rfl
    obtain ⟨vs, hvs⟩ := exists_forall₂ (R := fun e v => e.Holds rt v ∧
      v.average * (rt.runtimeSize e.module : K) = e.total rt)
      (l := entries) fun e he => by
        have haverage : rt.runtimeSize e.module • (e.total rt / rt.runtimeSize e.module) = e.total rt := by
          rw [nsmul_eq_mul, mul_div_cancel₀ _ (hsize _)]
        obtain ⟨z, hz⟩ := (CyclicSum.exists_rises_iff (rt.runtimeSize_pos _) (e.packed.sumAt rt) _).2 haverage
        exact ⟨⟨z, _⟩, (hiff e he _).2 hz, div_mul_cancel₀ _ (hsize _)⟩
    exact ⟨vs, hvs.imp fun _ _ h => h.1, (finalSumCheck_iff (hvs.imp fun _ _ h => h.2)).2 rfl⟩

theorem proverRuns_spec (hmax : ∀ f ∈ fractions, rt.runtimeSize f.module ≤ columnSizeMaxSupported)
    (hmask : ∀ f ∈ fractions, ∀ row < rt.runtimeSize f.module, f.denominatorAt rt row = 0 →
      f.filterAt rt row = 0) (cpus : Nat)
    (assigned : Option K) :
    (∃ outs result, ProverRuns rt cpus entries assigned outs result) ∧
      ∀ outs result, ProverRuns rt cpus entries assigned outs result →
        List.Forall₂ (ZEntry.Holds rt) entries (outs.map ZOutcome.toZValues) ∧
          (FinalSumCheck rt entries (outs.map ZOutcome.toZValues) result ↔ result = total rt fractions) ∧
          result = assigned.getD (total rt fractions) := by
  obtain ⟨hperm, hentries⟩ := compileQuery_spec hcompile
  have hmem {e : ZEntry K} (he : e ∈ entries) {f : Fraction K} (hf : f ∈ e.packed.all) : f ∈ fractions :=
    hperm.subset (mem_flatMap.2 ⟨e, he, hf⟩)
  constructor
  · obtain ⟨outs, houts⟩ := exists_forall₂ (R := fun e out => EntryRuns rt
        (workersOf cpus (rt.runtimeSize e.module) (entries.map fun e => rt.runtimeSize e.module).sum) e out)
          (l := entries)
      fun e he => by
        refine exists_entryRuns _ (fun f hf row hrow => hmask f (hmem he hf) row ((hentries e he).2 f hf ▸ hrow)) ?_
        have hfirst : e.packed.first ∈ e.packed.all := mem_cons_self
        rw [← (hentries e he).2 _ hfirst]
        exact hmax _ (hmem he hfirst)
    exact ⟨outs, _, houts, rfl⟩
  · rintro outs result ⟨houts, rfl⟩
    have hall := ((forall₂_and_left _ _).2 ⟨fun e (he : e ∈ entries) => he, houts⟩).imp fun e out ⟨he, hout⟩ =>
      EntryRuns.spec hout (hentries e he).1 (hsize e.module)
    have htotals : (outs.map ZOutcome.total).sum = total rt fractions := by
      have heq : List.Forall₂ (· = ·) (entries.map (ZEntry.total rt)) (outs.map ZOutcome.total) :=
        forall₂_map_left_iff.2 (forall₂_map_right_iff.2 (hall.imp fun _ _ h => h.2.1.symm))
      rw [forall₂_eq_eq_eq] at heq
      rw [← heq, sum_entries hcompile]
    refine ⟨forall₂_map_right_iff.2 (hall.imp fun _ _ h => h.1), ?_, by rw [htotals]⟩
    rw [finalSumCheck_iff (forall₂_map_right_iff.2 (hall.imp fun _ _ h => h.2.2)), sum_entries hcompile]

end

end

end

/-! ### A fraction -/

def columnFraction : Fraction Koalabear.Element where
  filter := none
  numerator := .leaf (.constant 1)
  denominator := .leaf (.column ⟨0, 0, 0⟩ 0)
  module := 0
  module_eq := rfl
  ofModule := by simp [Expression.leaves, Leaf.module]

/-- A run where all modules have `2 ^ k` rows, and all columns are 1. -/
def onesRuntime (k : Nat) : Runtime (fun _ => Module.sized (2 ^ k)) Koalabear.Element where
  runtimeSize _ := 2 ^ k
  column _ _ := 1
  coin _ := 0
  cell _ := 0
  runtimeSize_pos _ := Nat.two_pow_pos k
  runtimeSize_eq _ _ := rfl

def inverseFraction : Fraction Koalabear.Element where
  filter := none
  numerator := .leaf (.constant 1)
  denominator := .inverse (.leaf (.column ⟨0, 0, 0⟩ 0))
  module := 0
  module_eq := rfl
  ofModule := by simp [Expression.leaves, Leaf.module]

end Lineth.Wiop.LogDerivative
