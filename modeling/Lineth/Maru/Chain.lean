import Lineth.Maru.Validation

/-!
# The chain in the database

An import writes a block under its identity, the identity under the block's number, and the state of the block. When
no number is given to a second identity, the blocks of all other numbers stay as they are. -/

namespace Lineth.Maru

variable {H : Type}

/-- The block of a number is stored under its identity, and so is its state. -/
structure Database.Holds (net : Network H) (d : Database H) (n : Nat) (root : H) (b : SealedBeaconBlock H) : Prop where
  byNumber : d.beaconBlockRootByBlockNumber n = some root
  block : d.sealedBeaconBlockByBlockRoot root = some b
  state : d.getBeaconState root = some (net.processBlock b.block)
  identity : net.beaconBlockIdHash b.header = some root
  number : b.header.number = n
  body : b.header.bodyRoot = net.hash.bodyRoot b.block.body

/-- A database as imports leave it: a block and its state for every number up to `top`, and nothing else. -/
structure Database.Consistent (net : Network H) (d : Database H) (top : Nat) : Prop where
  stored : ∀ n ≤ top, ∃ root b, d.Holds net n root b
  roots : ∀ n root, d.beaconBlockRootByBlockNumber n = some root → n ≤ top
  states : ∀ root s, d.getBeaconState root = some s → ∃ n b, d.Holds net n root b

section

variable {net : Network H} {d e : Database H} {n n' top : Nat} {root root' : H} {b b' o : SealedBeaconBlock H}

namespace Database

theorem Holds.get (h : d.Holds net n root b) : d.getSealedBeaconBlock n = some b := by
  rw [getSealedBeaconBlock, h.byNumber]
  exact h.block

theorem Holds.unique (h : d.Holds net n root b) (h' : d.Holds net n root' b') : root = root' ∧ b = b' := by
  have hroot : root = root' := Option.some.inj (h.byNumber.symm.trans h'.byNumber)
  subst hroot
  exact ⟨rfl, Option.some.inj (h.block.symm.trans h'.block)⟩

theorem Consistent.holds_of_root (hd : d.Consistent net top) (h : d.beaconBlockRootByBlockNumber n = some root) :
    ∃ b, d.Holds net n root b := by
  obtain ⟨root', b, hb⟩ := hd.stored n (hd.roots n root h)
  cases hb.byNumber.symm.trans h
  exact ⟨b, hb⟩

theorem Consistent.holds_of_get (hd : d.Consistent net top) (h : d.getSealedBeaconBlock n = some b) :
    n ≤ top ∧ ∃ root, d.Holds net n root b := by
  obtain ⟨root, hroot, -⟩ := Option.bind_eq_some_iff.1 h
  obtain ⟨b', hb'⟩ := hd.holds_of_root hroot
  cases hb'.get.symm.trans h
  exact ⟨hd.roots n root hroot, root, hb'⟩

theorem Holds.number_of_idHash (hinj : Function.Injective net.hash.headerHash) (h : d.Holds net n root b)
    (ho : net.beaconBlockIdHash o.header = some root) : o.header.number = n := by
  have hwithout := withoutRound_eq_of_idHash hinj ho h.identity
  rw [← h.number]
  exact (BeaconBlockHeader.fields_eq_of_withoutRound hwithout).1

end Database

/-! ### Importing a block -/

variable [DecidableEq H]

theorem importBlock_eq_some : net.importBlock d o = some e ↔ ∃ root, net.beaconBlockIdHash o.header = some root ∧
    (d.putBeaconState root (net.processBlock o.block)).putSealedBeaconBlock root o = e := by
  rw [Network.importBlock, Option.map_eq_some_iff]

theorem importBlock_latest (himport : net.importBlock d o = some e) :
    e.latestBeaconState = net.processBlock o.block := by
  obtain ⟨root, -, rfl⟩ := importBlock_eq_some.1 himport
  rfl

namespace Database

theorem holds_importBlock (himport : net.importBlock d o = some e) (hroot : net.beaconBlockIdHash o.header = some root)
    (hbody : o.header.bodyRoot = net.hash.bodyRoot o.block.body) : e.Holds net o.header.number root o := by
  obtain ⟨root', hroot', rfl⟩ := importBlock_eq_some.1 himport
  cases hroot.symm.trans hroot'
  exact ⟨if_pos rfl, if_pos rfl, if_pos rfl, hroot, rfl, hbody⟩

theorem Holds.importBlock_of_ne (hinj : Function.Injective net.hash.headerHash) (h : d.Holds net n root b)
    (himport : net.importBlock d o = some e) (hne : n ≠ o.header.number) : e.Holds net n root b := by
  obtain ⟨root', hroot', rfl⟩ := importBlock_eq_some.1 himport
  -- an identity is that of one number
  have hrne : root ≠ root' := by
    rintro rfl
    exact hne (h.number_of_idHash hinj hroot').symm
  exact ⟨(if_neg hne).trans h.byNumber, (if_neg hrne).trans h.block, (if_neg hrne).trans h.state,
    h.identity, h.number, h.body⟩

theorem Consistent.importBlock (hinj : Function.Injective net.hash.headerHash) (hd : d.Consistent net top)
    (himport : net.importBlock d o = some e) (hbody : o.header.bodyRoot = net.hash.bodyRoot o.block.body)
    (hnumber : o.header.number ≤ top + 1)
    (hsame : ∀ root b, d.Holds net o.header.number root b → net.beaconBlockIdHash o.header = some root) :
    e.Consistent net (max top o.header.number) := by
  obtain ⟨root, hroot, he⟩ := importBlock_eq_some.1 himport
  have ho := holds_importBlock himport hroot hbody
  refine ⟨fun n hn => ?_, fun n r hr => ?_, fun r s hs => ?_⟩
  · by_cases hno : n = o.header.number
    · exact ⟨root, o, hno ▸ ho⟩
    · obtain ⟨r, b, hb⟩ := hd.stored n (by omega)
      exact ⟨r, b, hb.importBlock_of_ne hinj himport hno⟩
  · by_cases hno : n = o.header.number
    · exact hno ▸ le_max_right ..
    · subst he
      exact (hd.roots n r ((if_neg hno).symm.trans hr)).trans (le_max_left ..)
  · by_cases hr : r = root
    · exact ⟨_, o, hr ▸ ho⟩
    · subst he
      obtain ⟨n, b, hb⟩ := hd.states r s ((if_neg hr).symm.trans hs)
      -- the state of the new block's number is not under another identity
      have hne : n ≠ o.header.number := by
        rintro rfl
        exact hr (Option.some.inj ((hsame r b hb).symm.trans hroot))
      exact ⟨n, b, hb.importBlock_of_ne hinj himport hne⟩

def initial (net : Network H) (root : H) (genesis : SealedBeaconBlock H) : Database H where
  latestBeaconState := net.processBlock genesis.block
  beaconStateByBlockRoot r := if r = root then some (net.processBlock genesis.block) else none
  sealedBeaconBlockByBlockRoot r := if r = root then some genesis else none
  beaconBlockRootByBlockNumber n := if n = 0 then some root else none

section

variable (hroot : net.beaconBlockIdHash b.header = some root) (hnumber : b.header.number = 0)
  (hbody : b.header.bodyRoot = net.hash.bodyRoot b.block.body)

include hroot hnumber hbody

theorem initial_holds : (initial net root b).Holds net 0 root b :=
  ⟨rfl, if_pos rfl, if_pos rfl, hroot, hnumber, hbody⟩

theorem initial_consistent : (initial net root b).Consistent net 0 := by
  have hholds := initial_holds hroot hnumber hbody
  refine ⟨fun n hn => ⟨root, b, Nat.le_zero.1 hn ▸ hholds⟩, fun n r hr => ?_, fun r s hs => ?_⟩
  · by_contra hn
    cases (if_neg (by omega)).symm.trans hr
  · by_cases hr : r = root
    · exact ⟨0, b, hr ▸ hholds⟩
    · cases (if_neg hr).symm.trans hs

end

end Database

end

/-! ### A free hash -/

inductive Term where
  | empty
  | body (b : BeaconBlockBody)
  | header (number round timestamp : Nat) (proposer : Validator) (parentRoot stateRoot bodyRoot : Term)
  | state (header : Term) (validators : List Validator)
deriving DecidableEq

def Term.ofHeader (h : BeaconBlockHeader Term) : Term :=
  .header h.number h.round h.timestamp h.proposer h.parentRoot h.stateRoot h.bodyRoot

def freeHashing : Hashing Term where
  headerHash := Term.ofHeader
  bodyRoot := Term.body
  stateRoot s := .state (.ofHeader s.header) s.validators
  emptyHash := .empty

theorem freeHashing_headerHash_injective : Function.Injective freeHashing.headerHash := by
  intro h h' heq
  cases h
  cases h'
  simp only [freeHashing, Term.ofHeader, Term.header.injEq] at heq
  obtain ⟨rfl, rfl, rfl, rfl, rfl, rfl, rfl⟩ := heq
  rfl

def fromPhase1 : ForksSchedule := ⟨[⟨0, .qbftPhase1⟩], List.pairwise_singleton ..⟩

def freeSuccessor (net : Network Term) (parent : BeaconBlockHeader Term) (round : Nat)
    (proposer : Validator) (seals : List Seal) :
    SealedBeaconBlock Term :=
  let body : BeaconBlockBody := ⟨[], ⟨parent.number + 1, none, [], []⟩⟩
  let header : BeaconBlockHeader Term :=
    { number := parent.number + 1
      round := round
      timestamp := parent.timestamp + 1
      proposer := proposer
      parentRoot := (net.beaconBlockIdHash parent).getD .empty
      stateRoot := .empty
      bodyRoot := net.hash.bodyRoot body }
  ⟨⟨{ header with stateRoot := (net.stateRoot ⟨header, net.validators⟩).getD .empty }, body⟩, seals⟩

theorem freeHashing_bodyRoot_injective : Function.Injective freeHashing.bodyRoot := fun _ _ h => Term.body.inj h

end Lineth.Maru
