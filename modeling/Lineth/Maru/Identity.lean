import Mathlib.Data.List.GetD
import Lineth.Maru.Chain

/-!
# Validity and identity

Two nodes can hold blocks of the same identities that were agreed on in different rounds. Every check of a new block
reads only what the identities commit to, with one exception: the next proposer is counted from the one that the
stored header names. -/

namespace Lineth.Maru

open List Nat

variable {H : Type}

/-! ### Verdicts -/

def Outcome.code {ε : Type} : Outcome ε → Outcome Unit
  | ok => ok
  | error _ => error ()
  | exception => exception

section

variable {pre post : List (BlockValidator H)} {p p' : BlockValidator H} {b : BeaconBlock H}
  (hok : (∀ v ∈ post, v b = .ok) → (p b = .ok ↔ p' b = .ok))

include hok

/-- Checks that differ in one place pass alike if that place does when all others pass. -/
theorem all_ok_congr : (∀ v ∈ pre ++ p :: post, v b = .ok) ↔ ∀ v ∈ pre ++ p' :: post, v b = .ok := by
  simp only [forall_mem_append, forall_mem_cons]
  refine and_congr_right fun _ => ?_
  rw [and_comm, @and_comm (p' b = .ok)]
  exact and_congr_right hok

theorem composite_code_congr (hexception : p b = .exception ↔ p' b = .exception) :
    (compositeBlockValidator (pre ++ p :: post) b).code = (compositeBlockValidator (pre ++ p' :: post) b).code := by
  have hexc : compositeBlockValidator (pre ++ p :: post) b = .exception ↔
      compositeBlockValidator (pre ++ p' :: post) b = .exception := by
    simp only [composite_eq_exception, mem_append, mem_cons, or_and_right, exists_or, exists_eq_left, hexception]
  have hall : compositeBlockValidator (pre ++ p :: post) b = .ok ↔
      compositeBlockValidator (pre ++ p' :: post) b = .ok := by
    rw [composite_eq_ok, composite_eq_ok, all_ok_congr hok]
  cases h : compositeBlockValidator (pre ++ p :: post) b with
  | ok => rw [hall.1 h]
  | exception => rw [hexc.1 h]
  | error es =>
    cases h' : compositeBlockValidator (pre ++ p' :: post) b with
    | ok =>
      rw [hall.2 h'] at h
      cases h
    | exception =>
      rw [hexc.2 h'] at h
      cases h
    | error es' => rfl

end

/-! ### Databases with the same identities -/

def Database.Proposed (net : Network H) (d : Database H) : Prop :=
  ∀ n b, 0 < n → d.getSealedBeaconBlock n = some b → b.header.proposer ∈ net.validators

/-- The two nodes have the same genesis, and blocks of the same identities. -/
structure SameChain (net : Network H) (d d' : Database H) (head : Nat) : Prop where
  genesis : d.getSealedBeaconBlock 0 = d'.getSealedBeaconBlock 0
  identity : ∀ n ≤ head, ∀ b b', d.getSealedBeaconBlock n = some b → d'.getSealedBeaconBlock n = some b' →
    net.beaconBlockIdHash b.header = net.beaconBlockIdHash b'.header

/-- The rotation of the proposers, while its sums do not overflow: a block after the one of `prev` is proposed by the
next validator, in a later round by a later one. Whether there is a proposer does not depend on `prev`. -/
structure Network.Rotates (net : Network H) : Prop where
  count : net.validators.length < 2 ^ 31
  isSome : ∀ number round prev prev', round + net.validators.length < 2 ^ 31 →
    (net.selectProposerForRound number round prev net.validators).isSome =
      (net.selectProposerForRound number round prev' net.validators).isSome
  next : ∀ number round prev, 0 < number → number < 2 ^ 63 → prev ∈ net.validators →
    net.validators.idxOf prev + round + 1 < 2 ^ 31 → net.selectProposerForRound number round prev net.validators =
      some (net.validators.getD ((net.validators.idxOf prev + round + 1) % net.validators.length) prev)

def proposerAfter (net : Network H) (d : Database H) (head round : Nat) : Option Validator := do
  let b ← d.getSealedBeaconBlock head
  let root ← net.beaconBlockIdHash b.header
  let s ← d.getBeaconState root
  getProposerForBlock net s (head + 1) round

section

variable {net : Network H} {d d' : Database H} {head : Nat} {root : H}

theorem proposerAfter_eq {b : SealedBeaconBlock H} (hb : d.Holds net head root b) (round : Nat) :
    proposerAfter net d head round = net.selectProposerForRound (head + 1) round b.header.proposer net.validators := by
  rw [proposerAfter, hb.get]
  change (net.beaconBlockIdHash b.header).bind _ = _
  rw [hb.identity]
  change (d.getBeaconState root).bind _ = _
  rw [hb.state]
  rfl

theorem idxOf_succ_mod_inj {vs : List Validator} {v w : Validator} (hv : v ∈ vs) (hw : w ∈ vs)
    (h : (vs.idxOf v + 0 + 1) % vs.length = (vs.idxOf w + 0 + 1) % vs.length) : v = w := by
  have h1 := idxOf_lt_length_of_mem hv
  have h2 := idxOf_lt_length_of_mem hw
  have hidx : vs.idxOf v = vs.idxOf w := by
    rcases lt_or_ge (vs.idxOf v + 1) vs.length with h3 | h3 <;> rcases lt_or_ge (vs.idxOf w + 1) vs.length with h4 | h4
    · rw [add_zero, add_zero, mod_eq_of_lt h3, mod_eq_of_lt h4] at h
      omega
    · have : vs.idxOf w + 1 = vs.length := by omega
      rw [add_zero, add_zero, this, mod_self, mod_eq_of_lt h3] at h
      omega
    · have : vs.idxOf v + 1 = vs.length := by omega
      rw [add_zero, add_zero, this, mod_self, mod_eq_of_lt h4] at h
      omega
    · omega
  exact (idxOf_inj hv).1 hidx

theorem SameChain.symm (hsame : SameChain net d d' head) : SameChain net d' d head :=
  ⟨hsame.genesis.symm, fun n hn b b' hb hb' => (hsame.identity n hn b' b hb' hb).symm⟩

variable {b b' : SealedBeaconBlock H}

theorem SameChain.root_eq (hsame : SameChain net d d' head) {n : Nat} (hn : n ≤ head) {root root' : H}
    (hb : d.Holds net n root b) (hb' : d'.Holds net n root' b') : root = root' := by
  have hid := hsame.identity n hn b b' hb.get hb'.get
  rw [hb.identity, hb'.identity] at hid
  exact Option.some.inj hid

theorem Database.Holds.agree (hheader : Function.Injective net.hash.headerHash)
    (hbody : Function.Injective net.hash.bodyRoot)
    {n : Nat} (hb : d.Holds net n root b) (hb' : d'.Holds net n root b') :
    b.header.withoutRound = b'.header.withoutRound ∧ b.block.body = b'.block.body := by
  have hwithout := withoutRound_eq_of_idHash hheader hb.identity hb'.identity
  refine ⟨hwithout, hbody ?_⟩
  rw [← hb.body, ← hb'.body]
  exact (BeaconBlockHeader.fields_eq_of_withoutRound hwithout).2.2.2.2

theorem SameChain.exists_state (hd : d.Consistent net head) (hd' : d'.Consistent net head)
    (hsame : SameChain net d d' head) {s : BeaconState H} (hs : d.getBeaconState root = some s) :
    ∃ s', d'.getBeaconState root = some s' ∧ s.validators = net.validators ∧ s'.validators = net.validators := by
  obtain ⟨n, b, hb⟩ := hd.states root s hs
  have hn := hd.roots n root hb.byNumber
  obtain ⟨root', b', hb'⟩ := hd'.stored n hn
  cases hsame.root_eq hn hb hb'
  cases hb.state.symm.trans hs
  exact ⟨_, hb'.state, rfl, rfl⟩

theorem proposerValidator_exception (hrotates : net.Rotates) (hd : d.Consistent net head) (hd' : d'.Consistent net head)
    (hsame : SameChain net d d' head) {o : BeaconBlock H} (hround : o.header.round + net.validators.length < 2 ^ 31)
    (h : proposerValidator net d o = .exception) : proposerValidator net d' o = .exception := by
  rw [proposerValidator] at h ⊢
  cases hs : d.getBeaconState o.header.parentRoot with
  | none =>
    rw [hs] at h
    cases h
  | some s =>
    obtain ⟨s', hs', hval, hval'⟩ := hsame.exists_state hd hd' hs
    rw [hs] at h
    rw [hs']
    dsimp only at h ⊢
    have hsome := hrotates.isSome o.header.number o.header.round s.header.proposer s'.header.proposer hround
    rw [getProposerForBlock, hval] at h
    rw [getProposerForBlock, hval']
    cases hsel : net.selectProposerForRound o.header.number o.header.round s.header.proposer net.validators with
    | some v =>
      rw [hsel] at h
      exact absurd h Outcome.require_ne_exception
    | none =>
      rw [hsel] at hsome
      cases hsel' : net.selectProposerForRound o.header.number o.header.round s'.header.proposer net.validators with
      | none => rfl
      | some v =>
        rw [hsel'] at hsome
        cases hsome

variable [DecidableEq H]

theorem Importer.exists_validators (imp : Importer) {p p' : BeaconBlock H}
    (hheader : p.header.withoutRound = p'.header.withoutRound) (hbody : p.body = p'.body)
    (hid : net.beaconBlockIdHash p.header = net.beaconBlockIdHash p'.header) :
    ∃ pre post, imp.validators net d p = pre ++ proposerValidator net d :: post ∧
      imp.validators net d' p' = pre ++ proposerValidator net d' :: post ∧ parentRootValidator net p.header ∈ post := by
  obtain ⟨hn, ht, -⟩ := BeaconBlockHeader.fields_eq_of_withoutRound hheader
  have hnumber : blockNumberValidator p.header = blockNumberValidator p'.header := by
    funext b
    rw [blockNumberValidator, blockNumberValidator, hn]
  have htimestamp : timestampValidator p.header = timestampValidator p'.header := by
    funext b
    rw [timestampValidator, timestampValidator, ht]
  have hparent : parentRootValidator net p.header = parentRootValidator net p'.header := by
    funext b
    rw [parentRootValidator, parentRootValidator, hid]
  cases imp with
  | sync allowEmptyBlocks =>
    refine ⟨[stateRootValidator net, blockNumberValidator p.header, timestampValidator p.header],
      _, rfl, ?_, mem_cons_self⟩
    rw [Importer.validators, ← hnumber, ← htimestamp, ← hparent, ← hbody]
    rfl
  | follower elFork newPayload allowEmptyBlocks =>
    refine ⟨[stateRootValidator net, blockNumberValidator p.header,
      executionPayloadBlockNumberValidator p.body.executionPayload,
      executionPayloadSlotNumberValidator elFork, timestampValidator p.header], _, rfl, ?_, mem_cons_self⟩
    rw [Importer.validators, ← hnumber, ← htimestamp, ← hparent, ← hbody]
    rfl

omit [DecidableEq H] in
theorem proposerValidator_congr {o : BeaconBlock H} {s s' : BeaconState H}
    (hs : d.getBeaconState o.header.parentRoot = some s)
    (hs' : d'.getBeaconState o.header.parentRoot = some s') (hproposer : s.header.proposer = s'.header.proposer)
    (hvalidators : s.validators = s'.validators) : proposerValidator net d o = proposerValidator net d' o := by
  simp only [proposerValidator, hs, hs', getProposerForBlock, hproposer, hvalidators]

theorem Importer.validate_code_congr (imp : Importer) {o p p' : SealedBeaconBlock H}
    (hp : d.getSealedBeaconBlock (prevNumber o.header.number) = some p)
    (hp' : d'.getSealedBeaconBlock (prevNumber o.header.number) = some p')
    (hcode : (compositeBlockValidator (imp.validators net d p.block) o.block).code =
      (compositeBlockValidator (imp.validators net d' p'.block) o.block).code) :
    (imp.validate net d o).code = (imp.validate net d' o).code := by
  rw [validate, validate, hp, hp']
  dsimp only
  generalize compositeBlockValidator (imp.validators net d p.block) o.block = c at hcode ⊢
  generalize compositeBlockValidator (imp.validators net d' p'.block) o.block = c' at hcode ⊢
  cases c with
  | ok => cases c' <;> first | rfl | cases hcode
  | exception => cases c' <;> first | rfl | cases hcode
  | error es =>
    cases c' with
    | ok => cases hcode
    | exception => cases hcode
    | error es' => cases verifySeals net o.commitSeals o.header <;> rfl

section

variable (hheader : Function.Injective net.hash.headerHash) (hbody : Function.Injective net.hash.bodyRoot)
  (hb : d.Holds net head root b) (hb' : d'.Holds net head root b') (hproposer : b.header.proposer = b'.header.proposer)
  (imp : Importer) {o : SealedBeaconBlock H}

include hheader hbody hb hb' hproposer

theorem Importer.exists_validators_congr :
    ∃ pre post, imp.validators net d b.block = pre ++ proposerValidator net d :: post ∧
    imp.validators net d' b'.block = pre ++ proposerValidator net d' :: post ∧
      ((∀ v ∈ post, v o.block = .ok) → (proposerValidator net d o.block = .ok ↔
        proposerValidator net d' o.block = .ok)) := by
  obtain ⟨hwithout, hbodies⟩ := hb.agree hheader hbody hb'
  obtain ⟨pre, post, hvs, hvs', hmem⟩ := @Importer.exists_validators _ net d d' _ imp b.block b'.block hwithout hbodies
    (hb.identity.trans hb'.identity.symm)
  refine ⟨pre, post, hvs, hvs', fun hpost => ?_⟩
  -- the block is on top of the head, so both nodes read the state of the head
  cases (parentRootValidator_eq_ok.1 (hpost _ hmem)).symm.trans hb.identity
  rw [@proposerValidator_congr _ net d d' o.block _ _ hb.state hb'.state hproposer rfl]

variable (hprev : prevNumber o.header.number = head)

include hprev

theorem SameChain.validate_ok : imp.validate net d o = .ok ↔ imp.validate net d' o = .ok := by
  obtain ⟨pre, post, hvs, hvs', hok⟩ := imp.exists_validators_congr hheader hbody hb hb' hproposer
  rw [imp.validate_eq_ok (hprev ▸ hb.get), imp.validate_eq_ok (hprev ▸ hb'.get), hvs, hvs', all_ok_congr hok]

theorem SameChain.validate_code (hrotates : net.Rotates) (hd : d.Consistent net head) (hd' : d'.Consistent net head)
    (hsame : SameChain net d d' head) (hround : o.header.round + net.validators.length < 2 ^ 31) :
    (imp.validate net d o).code = (imp.validate net d' o).code := by
  obtain ⟨pre, post, hvs, hvs', hok⟩ := imp.exists_validators_congr hheader hbody hb hb' hproposer
  refine imp.validate_code_congr (hprev ▸ hb.get) (hprev ▸ hb'.get) ?_
  rw [hvs, hvs']
  exact composite_code_congr hok ⟨proposerValidator_exception hrotates hd hd' hsame hround,
    proposerValidator_exception hrotates hd' hd hsame.symm hround⟩

end

theorem SameChain.importBlock (hheader : Function.Injective net.hash.headerHash) (hd : d.Consistent net head)
    (hd' : d'.Consistent net head) (hsame : SameChain net d d' head) {imp : Importer} {o : SealedBeaconBlock H}
    (ho : o.header.number = head + 1) (hok : imp.validate net d o = .ok) :
    ∃ e e', net.importBlock d o = some e ∧ net.importBlock d' o = some e' ∧ SameChain net e e' (head + 1) := by
  obtain ⟨parent, -, hextends, -⟩ := Importer.extends_of_validate hok
  obtain ⟨root, hroot⟩ := hextends.identity
  have hstored : ∀ c : Database H, ∃ c', net.importBlock c o = some c' :=
    fun c => ⟨_, importBlock_eq_some.2 ⟨root, hroot, rfl⟩⟩
  obtain ⟨e, he⟩ := hstored d
  obtain ⟨e', he'⟩ := hstored d'
  refine ⟨e, e', he, he', ?_, fun n hn b b' hb hb' => ?_⟩
  · obtain ⟨r, b, hb⟩ := hd.stored 0 (zero_le _)
    obtain ⟨r', b', hb'⟩ := hd'.stored 0 (zero_le _)
    rw [(hb.importBlock_of_ne hheader he (by omega)).get, (hb'.importBlock_of_ne hheader he' (by omega)).get,
      ← hb.get, ← hb'.get]
    exact hsame.genesis
  · by_cases hno : n = o.header.number
    · rw [hno, (Database.holds_importBlock he hroot hextends.bodyRoot).get] at hb
      rw [hno, (Database.holds_importBlock he' hroot hextends.bodyRoot).get] at hb'
      cases hb
      cases hb'
      rfl
    · obtain ⟨r, c, hc⟩ := hd.stored n (by omega)
      obtain ⟨r', c', hc'⟩ := hd'.stored n (by omega)
      cases (hc.importBlock_of_ne hheader he hno).get.symm.trans hb
      cases (hc'.importBlock_of_ne hheader he' hno).get.symm.trans hb'
      exact hsame.identity n (by omega) _ _ hc.get hc'.get

omit [DecidableEq H] in
theorem proposer_eq_of_proposerAfter (hrotates : net.Rotates) (hnodup : net.validators.Nodup)
    (hsame : SameChain net d d' head)
    (hhead : head + 1 < 2 ^ 63) (hp : d.Proposed net) (hp' : d'.Proposed net) {root root' : H}
    (hb : d.Holds net head root b)
    (hb' : d'.Holds net head root' b') (h : proposerAfter net d head 0 = proposerAfter net d' head 0) :
    b.header.proposer = b'.header.proposer := by
  rcases Nat.eq_zero_or_pos head with rfl | hpos
  · have hgenesis := hsame.genesis
    rw [hb.get, hb'.get] at hgenesis
    rw [Option.some.inj hgenesis]
  · have hv := hp head b hpos hb.get
    have hv' := hp' head b' hpos hb'.get
    have hnext : ∀ v ∈ net.validators, _ := fun v hv => hrotates.next (head + 1) 0 v (by omega) hhead hv
      (lt_of_le_of_lt (idxOf_lt_length_of_mem hv) hrotates.count)
    rw [proposerAfter_eq hb, proposerAfter_eq hb', hnext _ hv, hnext _ hv', Option.some_inj] at h
    have hlength : 0 < net.validators.length := length_pos_of_mem hv
    rw [getD_eq_getElem _ _ (mod_lt _ hlength), getD_eq_getElem _ _ (mod_lt _ hlength),
      hnodup.getElem_inj_iff] at h
    exact idxOf_succ_mod_inj hv hv' h

/-- Two nodes select the same proposers for the block after their head, accept the same blocks there, come to the same
verdicts on them and keep the same identities. -/
structure Alike (net : Network H) (d d' : Database H) (head : Nat) : Prop where
  proposers : ∀ round, proposerAfter net d head round = proposerAfter net d' head round
  accept : ∀ (imp : Importer) (o : SealedBeaconBlock H), o.header.number = head + 1 →
    (imp.validate net d o = .ok ↔ imp.validate net d' o = .ok)
  verdicts : ∀ (imp : Importer) (o : SealedBeaconBlock H), o.header.number = head + 1 →
    o.header.round + net.validators.length < 2 ^ 31 → (imp.validate net d o).code = (imp.validate net d' o).code
  identities : ∀ (imp : Importer) (o : SealedBeaconBlock H), o.header.number = head + 1 → imp.validate net d o = .ok →
    ∃ e e', net.importBlock d o = some e ∧ net.importBlock d' o = some e' ∧ SameChain net e e' (head + 1)

end

/-! ### A block agreed on in two rounds -/

def rotation (number round : Nat) (prev : Validator) (validators : List Validator) : Option Validator :=
  if 0 < number then some (validators.getD ((validators.idxOf prev + round + 1) % validators.length) prev) else none

def fourValidators : Network Term where
  hash := freeHashing
  forks := fromPhase1
  validators := [1, 2, 3, 4]
  recover s _ := s.head?.map fun x => BitVec.ofNat 160 x.toNat
  requiredQuorum n := (2 * n + 2) / 3
  selectProposerForRound := rotation

theorem fourValidators_rotates : fourValidators.Rotates where
  count := by decide
  isSome number round prev prev' _ := by
    change (rotation ..).isSome = (rotation ..).isSome
    rw [rotation, rotation]
    split <;> rfl
  next number round prev hnumber _ _ _ := if_pos hnumber

def fourGenesis : SealedBeaconBlock Term where
  block :=
    { header := ⟨0, 0, 0, 1, .empty, .empty, .body ⟨[], ⟨0, none, [], []⟩⟩⟩
      body := ⟨[], ⟨0, none, [], []⟩⟩ }
  commitSeals := []

def fourFirst (round : Nat) (proposer : Validator) : SealedBeaconBlock Term :=
  freeSuccessor fourValidators fourGenesis.header round proposer [[1], [2], [3]]

def fourInitial : Database Term := .initial fourValidators (.ofHeader fourGenesis.header.withoutRound) fourGenesis

def fourNode (round : Nat) (proposer : Validator) : Database Term :=
  (fourValidators.importBlock fourInitial (fourFirst round proposer)).getD fourInitial

section

variable {round : Nat} {proposer : Validator}

theorem fourNode_import : fourValidators.importBlock fourInitial (fourFirst round proposer) =
    some (fourNode round proposer) := rfl

theorem fourInitial_consistent : fourInitial.Consistent fourValidators 0 := Database.initial_consistent rfl rfl rfl

theorem fourNode_consistent : (fourNode round proposer).Consistent fourValidators 1 := by
  refine fourInitial_consistent.importBlock freeHashing_headerHash_injective fourNode_import rfl
    le_rfl fun root b hb => ?_
  -- there is no first block yet
  exact absurd (fourInitial_consistent.roots _ _ hb.byNumber) (not_succ_le_zero 0)

theorem fourNode_get_one : (fourNode round proposer).getSealedBeaconBlock 1 = some (fourFirst round proposer) := rfl

theorem fourNode_proposed (h : proposer ∈ fourValidators.validators) :
    (fourNode round proposer).Proposed fourValidators := by
  intro n b hn hb
  have hle := (fourNode_consistent.holds_of_get hb).1
  obtain rfl : n = 1 := by omega
  cases hb
  exact h

theorem fourNode_sameChain {round' : Nat} {proposer' : Validator} :
    SameChain fourValidators (fourNode round proposer) (fourNode round' proposer') 1 := by
  refine ⟨rfl, fun n hn b b' hb hb' => ?_⟩
  rcases le_one_iff_eq_zero_or_eq_one.1 hn with rfl | rfl <;> cases hb <;> cases hb' <;> rfl

end

end Lineth.Maru
