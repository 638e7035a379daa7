import Lineth.Rollup.Chaining

/-!
# Forced transactions cannot be censored

Finalization looks at one deadline only, that of the first forced transaction it leaves out. This is enough because
the gateway hands out deadlines that increase with the number and lie after the finalized block: `ForcedInv`. -/

namespace Lineth.Rollup

open Function (update_of_ne update_self)
open Evm Messaging Contract List BitVec

/-! ### Runs in which only the gateway registers -/

/-- The entry is not a call of `storeForcedTransaction` that returned, other than the gateway's. -/
def notDirect : Entry Action Log → Bool
  | .returned a => !a.isDirect
  | .event _ => true

def OnlyGatewayRegisters (t : List (Entry Action Log)) : Prop := ∀ e ∈ t, notDirect e = true

instance (t : List (Entry Action Log)) : Decidable (OnlyGatewayRegisters t) :=
  inferInstanceAs (Decidable (∀ e ∈ t, notDirect e = true))

variable {P : Primitives} {G : GatewayConfig} {d : InitializationData} {s s' : L1} {t l : List Log}

theorem gateway_compositional : Compositional fun (s : L1) (t : List (Entry Action Log)) s' =>
    OnlyGatewayRegisters t → Steps (Step P G False) s (events t) s' where
  refl s _ := .refl s
  trans {s t s' u s''} h h' honly := by
    rw [events_append]
    exact (h fun a ha => honly a (mem_append_left u ha)).trans (h' fun a ha => honly a (mem_append_right t ha))

theorem code_gateway (a : Action) (s : L1) : (code P G a s).Sat (fun s t s' =>
    OnlyGatewayRegisters t → Steps (Step P G False) s (events t) s') a s [] := by
  have hgateway : a.isDirect = false → (code P G a s).Sat (fun s t s' =>
      OnlyGatewayRegisters t → Steps (Step P G False) s (events t) s') a s [] := fun ha => by
    refine (code_segments a s).sat gateway_compositional ?_ (fun s _ => .refl s) fun _ => .refl s
    intro s l s' h _
    rw [events_map]
    exact .single (h.mono fun hd => Bool.false_ne_true (ha.symm.trans hd))
  obtain ⟨ctx, e⟩ := a
  cases e with
  | storeForcedTransaction =>
    -- the run returns from the call and so is not one of those considered
    refine Prog.attempt_sat fun r _ => ?_
    intro honly
    exact absurd (honly _ (mem_append_right _ (mem_singleton.2 rfl))) (by simp [notDirect, Action.isDirect])
  | _ => exact hgateway rfl

/-! ### Deadlines -/

def registeredNumbers (l : List Log) : List Word :=
  l.filterMap fun x => match x with
    | .forcedTransactionAdded forcedTransactionNumber _ _ _ _ => some forcedTransactionNumber
    | _ => none

@[simp] theorem registeredNumbers_append (l l' : List Log) :
    registeredNumbers (l ++ l') = registeredNumbers l ++ registeredNumbers l' :=
  filterMap_append

/-- A sum that the gateway left unchecked fits a word. -/
def deadlineFits : Log → Bool
  | .deadlineComputed block elapsed buffer => block.toNat + elapsed.toNat + buffer.toNat < 2 ^ 256
  | _ => true

/-- The sums the gateway left unchecked did not overflow. -/
def NoDeadlineOverflow (l : List Log) : Prop := ∀ x ∈ l, deadlineFits x = true

instance (l : List Log) : Decidable (NoDeadlineOverflow l) :=
  inferInstanceAs (Decidable (∀ x ∈ l, deadlineFits x = true))

/-- The registered transactions, their deadlines and the last number committed to by finalization. -/
structure ForcedInv (s : L1) (committed : Word) (registered : List Word) : Prop where
  registered : ∀ n, n ∈ registered ↔ 0 < n ∧ n ≤ s.nextForcedTransactionNumber - 1
  rollingHash : ∀ n, s.nextForcedTransactionNumber - 1 < n → s.forcedTransactionRollingHashes n = 0
  increasing : ∀ m n, m < n → n ≤ s.nextForcedTransactionNumber - 1 →
    s.forcedTransactionL2BlockNumbers m < s.forcedTransactionL2BlockNumbers n
  committed_le : committed ≤ s.nextForcedTransactionNumber - 1
  ahead : ∀ n, committed < n → n ≤ s.nextForcedTransactionNumber - 1 →
    s.currentL2BlockNumber < s.forcedTransactionL2BlockNumbers n

theorem lt_blockNumberDeadline {block elapsed previous deadline : Word}
    (h : blockNumberDeadline G (block + elapsed + G.l2BlockBuffer) previous = .ok deadline)
    (hno : block.toNat + elapsed.toNat + G.l2BlockBuffer.toNat < 2 ^ 256) : block < deadline := by
  have hbuffer : 0 < G.l2BlockBuffer.toNat := Nat.pos_of_ne_zero fun h0 =>
    G.l2BlockBuffer_ne (eq_of_toNat_eq h0)
  have hsum : (block + elapsed + G.l2BlockBuffer).toNat = block.toNat + elapsed.toNat + G.l2BlockBuffer.toNat := by
    rw [toNat_add, toNat_add, Nat.mod_add_mod, Nat.mod_eq_of_lt hno]
  rw [lt_def]
  unfold blockNumberDeadline at h
  split at h
  · rename_i hle
    obtain ⟨hlt, rfl⟩ := checkedAdd_eq_ok.1 h
    rw [toNat_add, Nat.mod_eq_of_lt hlt]
    rw [le_def, hsum] at hle
    omega
  · cases h
    omega

variable {registered : List Word}

theorem ForcedInv.submit {committed elapsed : Word} (hs : ForcedInv s committed registered)
    (h : GatewaySubmits G elapsed s l s') (hno : NoDeadlineOverflow l) :
    ForcedInv s' committed (registered ++ [s.nextForcedTransactionNumber]) := by
  obtain ⟨hne, deadline, rollingHash, _, hdeadline, ⟨hgt, -, ⟨_, rfl⟩, -⟩, rfl⟩ := h
  have hahead : s.currentL2BlockNumber < deadline :=
    lt_blockNumberDeadline hdeadline (by simpa [deadlineFits] using hno _ (mem_cons_self ..))
  obtain ⟨hregistered, hrolling, hincreasing, hcommitted, hdue⟩ := hs
  set next := s.nextForcedTransactionNumber with hnextdef
  have hpos : next.toNat ≠ 0 := fun h0 => hne (eq_of_toNat_eq h0)
  have hold : ∀ n : Word, n ≤ next → n ≠ next → n ≤ next - 1 := fun n hn hne => by bv_omega
  refine ⟨fun n => ?_, fun n hn => ?_, fun m n hmn hn => ?_, ?_, fun n hcn hn => ?_⟩
  all_goals simp only [add_sub_cancel] at *
  · rw [mem_append, mem_singleton, hregistered]
    constructor
    · rintro (⟨h0, hn⟩ | rfl)
      · exact ⟨h0, by bv_omega⟩
      · exact ⟨by bv_omega, BitVec.le_refl _⟩
    · rintro ⟨h0, hn⟩
      by_cases hnn : n = next
      · exact .inr hnn
      · exact .inl ⟨h0, hold n hn hnn⟩
  · rw [update_of_ne (by rintro rfl; bv_omega)]
    exact hrolling n (by bv_omega)
  · rw [update_of_ne (by rintro rfl; bv_omega)]
    by_cases hnn : n = next
    · -- the new deadline is above the last one, and that one above all before it
      rw [hnn, update_self]
      by_cases hm : m = next - 1
      · rw [hm]; exact hgt
      · exact BitVec.lt_trans (hincreasing m (next - 1) (by bv_omega) (BitVec.le_refl _)) hgt
    · rw [update_of_ne hnn]
      exact hincreasing m n hmn (hold n hn hnn)
  · bv_omega
  · by_cases hnn : n = next
    · rw [hnn, update_self]; exact hahead
    · rw [update_of_ne hnn]
      exact hdue n hcn (hold n hn hnn)

/-- A finalization may commit to any number whose successor is not due. -/
theorem ForcedInv.finalize {keccak : List Byte → Word} {f : Finalization} {committed : Word}
    (hs : ForcedInv s committed registered) (h : Finalizes keccak f s l s') :
    ForcedInv s' f.data.finalForcedTransactionNumber registered := by
  have hle : f.data.finalForcedTransactionNumber ≤ s.nextForcedTransactionNumber - 1 := by
    by_contra hgt
    rw [BitVec.not_le] at hgt
    refine h.forcedTransactionRollingHash_ne (fun h0 => ?_) ?_
    · rw [h0] at hgt; exact absurd hgt (by bv_omega)
    · rw [h.forcedTransactionRollingHash]; exact hs.rollingHash _ hgt
  have hdue := h.nextForcedTransaction
  rw [h.state]
  refine ⟨hs.registered, hs.rollingHash, hs.increasing, hle, fun n hn hlast => ?_⟩
  set first := f.data.finalForcedTransactionNumber + 1 with hfirst
  have hfn : first ≤ n := by bv_omega
  have hbefore : 0 < s.forcedTransactionL2BlockNumbers first := by
    have := hs.increasing 0 first (by bv_omega) (BitVec.le_trans hfn hlast)
    bv_omega
  have hend : f.data.endBlockNumber < s.forcedTransactionL2BlockNumbers first := by
    rcases hdue with h0 | hlt
    · rw [h0] at hbefore; exact absurd hbefore (by bv_omega)
    · exact hlt
  show f.data.endBlockNumber < s.forcedTransactionL2BlockNumbers n
  by_cases heq : first = n
  · rw [← heq]; exact hend
  · exact BitVec.lt_trans hend (hs.increasing first n (by bv_omega) hlast)

/-! ### Every run -/

structure SameForced (s s' : L1) : Prop where
  next : s'.nextForcedTransactionNumber = s.nextForcedTransactionNumber
  deadlines : s'.forcedTransactionL2BlockNumbers = s.forcedTransactionL2BlockNumbers
  rollingHashes : s'.forcedTransactionRollingHashes = s.forcedTransactionRollingHashes

theorem step_submits (h : Step P G False s l s') :
    (∃ elapsed, GatewaySubmits G elapsed s l s') ∨ (SameForced s s' ∧ registeredNumbers l = []) := by
  cases h with
  | send _ h =>
    obtain ⟨-, rfl, _, rfl⟩ := h
    exact .inr ⟨⟨rfl, rfl, rfl⟩, rfl⟩
  | consume n _ hc =>
    exact .inr ⟨⟨congrArg Core.nextForcedTransactionNumber hc, congrArg Core.forcedTransactionL2BlockNumbers hc,
      congrArg Core.forcedTransactionRollingHashes hc⟩, rfl⟩
  | finalize f h =>
    obtain ⟨blocks, hl⟩ := h.logs
    rw [h.state, hl]
    exact .inr ⟨⟨rfl, rfl, rfl⟩, by simp [registeredNumbers, filterMap_map]⟩
  | register _ _ hd => exact hd.elim
  | submit e h => exact .inl ⟨e, h⟩
  | other hc hlogs =>
    refine .inr ⟨⟨congrArg Core.nextForcedTransactionNumber hc, congrArg Core.forcedTransactionL2BlockNumbers hc,
      congrArg Core.forcedTransactionRollingHashes hc⟩, ?_⟩
    refine filterMap_eq_nil_iff.2 fun x hx => ?_
    have := hlogs x hx
    cases x <;> simp [Log.Unrelated] at this ⊢

theorem ForcedInv.congr {committed : Word} (hs : ForcedInv s committed registered)
    (hforced : SameForced s s') (hblock : s'.currentL2BlockNumber = s.currentL2BlockNumber) :
    ForcedInv s' committed registered := by
  obtain ⟨h1, h2, h3, h4, h5⟩ := hs
  rw [← hforced.next, ← hforced.deadlines] at *
  rw [← hforced.rollingHashes] at h2
  rw [← hblock] at h5
  exact ⟨h1, h2, h3, h4, h5⟩

def committedState (keccak : List Byte → Word) (d : InitializationData) (l : List Log) : FinalizedState :=
  (lastTip (d.genesisTip keccak) (finalizations l)).finalizedState

def ForcedSafe (keccak : List Byte → Word) (d : InitializationData) (s : L1) (l : List Log) : Prop :=
  NoDeadlineOverflow l → ForcedInv s (committedState keccak d l).forcedTransactionNumber (registeredNumbers l)

theorem ForcedSafe.step (hs : ForcedSafe P.keccak d s t) (h : Step P G False s l s') :
    ForcedSafe P.keccak d s' (t ++ l) := by
  intro hno
  have hinv := hs fun x hx => hno x (mem_append_left l hx)
  rw [committedState, finalizations_append, registeredNumbers_append]
  rcases step_submits h with ⟨e, hsubmit⟩ | ⟨hforced, hregistered⟩
  · have hnew := hinv.submit hsubmit fun x hx => hno x (mem_append_right t hx)
    obtain ⟨-, _, _, _, -, ⟨-, -, -, ⟨_, _, rfl⟩⟩, rfl⟩ := hsubmit
    rw [show finalizations (_ :: [_]) = [] from rfl, append_nil]
    exact hnew
  · rw [hregistered, append_nil]
    rcases step_finalizes h with ⟨f, hf⟩ | ⟨hsame, hfinalizations⟩
    · obtain ⟨blocks, hl⟩ := hf.logs
      have hfs : finalizations l = [f] := by
        rw [hl]
        simp [finalizations, filterMap_map]
      rw [hfs, lastTip, foldl_concat]
      exact hinv.finalize hf
    · rw [hfinalizations, append_nil]
      exact hinv.congr hforced hsame.blockNumber

theorem ForcedSafe.init {ctx : Ctx} (h : linethRollupInit P.keccak ctx d = .ok s) : ForcedSafe P.keccak d s [] := by
  obtain ⟨e, rfl⟩ := linethRollupInit_eq_ok h
  have hlast : (L1.initial P.keccak ctx.self d e).nextForcedTransactionNumber - 1 = 0 := BitVec.sub_self 1
  have hcommitted : (committedState P.keccak d []).forcedTransactionNumber = 0 := rfl
  intro _
  rw [hcommitted]
  refine ⟨fun n => ?_, fun n _ => rfl, fun m n hmn hn => ?_, ?_, fun n hn hlt => ?_⟩ <;> rw [hlast] at *
  · refine ⟨fun h => absurd h not_mem_nil, fun h => absurd h ?_⟩
    bv_omega
  · exact absurd hmn (by bv_omega)
  · exact BitVec.le_refl _
  · exact absurd hn (by bv_omega)

/-- In every run in which only the gateway registers forced transactions and its deadlines do not overflow: a registered
transaction whose deadline the finalized block has reached is processed according to the stored finalized state, and
deadlines increase with the numbers. -/
theorem forced_transactions_not_censored {ctx : Ctx} (hinit : linethRollupInit P.keccak ctx d = .ok s)
    (calls : Calls Action) (honly : OnlyGatewayRegisters (calls.exec (code P G) s).2)
    (hno : NoDeadlineOverflow (events (calls.exec (code P G) s).2)) :
    let r := calls.exec (code P G) s
    let committed := committedState P.keccak d (events r.2)
    let registered := registeredNumbers (events r.2)
    let deadline := r.1.forcedTransactionL2BlockNumbers
    (∀ n ∈ registered, deadline n ≤ r.1.currentL2BlockNumber → n ≤ committed.forcedTransactionNumber) ∧
    (∀ m ∈ registered, ∀ n ∈ registered, m < n → deadline m < deadline n) ∧
    r.1.currentFinalizedState = computeLastFinalizedState P.keccak committed ∧
    ∀ st, r.1.currentFinalizedState = computeLastFinalizedState P.keccak st →
      Set.InjOn P.keccak {committed.encode, st.encode} → st = committed := by
  intro r committed registered deadline
  have hsteps : Steps (Step P G False) s (events r.2) r.1 :=
    calls.exec_rel gateway_compositional code_gateway s honly
  have hsafe := Steps.invariant ForcedSafe.step hsteps (ForcedSafe.init hinit)
  rw [nil_append] at hsafe
  have hinv : ForcedInv r.1 committed.forcedTransactionNumber registered := hsafe hno
  have hstate : r.1.currentFinalizedState = computeLastFinalizedState P.keccak committed :=
    (ChainInv.run (G := G) hinit calls).tip.2.2.2
  refine ⟨fun n hn hle => ?_, fun m _ n hn hmn => ?_, hstate, fun st hst hinj => ?_⟩
  · by_contra hgt
    rw [BitVec.not_le] at hgt
    exact BitVec.not_le.2 (hinv.ahead n hgt ((hinv.registered n).1 hn).2) hle
  · exact hinv.increasing m n hmn ((hinv.registered n).1 hn).2
  · exact (FinalizedState.encode_injective (hinj (by simp) (by simp) (hstate.symm.trans hst))).symm

def Eip1559Transaction.sample : Eip1559Transaction where
  nonce := 0
  maxPriorityFeePerGas := 1
  maxFeePerGas := 1
  gasLimit := 21000
  to_ := 2
  value := 0
  input := []
  accessList := []
  yParity := 0
  r := 1
  s := 1

def sampleForcedCalls : Calls Action :=
  let data := { FinalizationData.sample with endBlockNumber := 1000, finalForcedTransactionNumber := 1 }
  .cons (.mk ⟨.sample, .submitForcedTransaction .sample (genesisFinalizedState .sample)⟩ .nil)
    (.cons (.mk ⟨.sample, .finalizeBlocks (data.calldata none)⟩ (.cons .nil true .nil)) .nil)

theorem forced_transactions_not_censored_sample :
    let r := sampleForcedCalls.exec (code .sample .sample) (.initial sampleKeccak 100 .sample 1100)
    registeredNumbers (events r.2) = [1] ∧ r.1.forcedTransactionL2BlockNumbers 1 ≤ r.1.currentL2BlockNumber ∧
      1 ≤ (committedState sampleKeccak .sample (events r.2)).forcedTransactionNumber := by
  have hinit : linethRollupInit sampleKeccak .sample .sample = .ok (.initial sampleKeccak 100 .sample 1100) := rfl
  obtain ⟨r, hr⟩ : ∃ r, sampleForcedCalls.exec (code .sample .sample) (.initial sampleKeccak 100 .sample 1100) = r :=
    ⟨_, rfl⟩
  have honly : OnlyGatewayRegisters r.2 := by rw [← hr]; decide +kernel
  have hno : NoDeadlineOverflow (events r.2) := by rw [← hr]; decide +kernel
  have hregistered : registeredNumbers (events r.2) = [1] := by rw [← hr]; decide +kernel
  have hreached : r.1.forcedTransactionL2BlockNumbers 1 ≤ r.1.currentL2BlockNumber := by rw [← hr]; decide +kernel
  have hcommitted := forced_transactions_not_censored (P := .sample) (G := .sample) hinit sampleForcedCalls
  rw [hr] at hcommitted ⊢
  refine ⟨hregistered, hreached, (hcommitted honly hno).1 1 ?_ hreached⟩
  rw [hregistered]; exact mem_singleton.2 rfl

end Lineth.Rollup
