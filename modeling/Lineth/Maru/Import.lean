import Lineth.Maru.Chain

/-!
# Three importers on one database

The pipeline that downloads blocks, the follower of the gossip and the consensus engine import blocks concurrently,
each in three steps: it reads the parent, makes its checks and writes the block. The blocks form one chain after any
interleaving; the latest state is that of the block written last, which need not be the highest. -/

namespace Lineth.Maru

open List

variable {H : Type}

/-! ### Imports in progress -/

inductive Running (H : Type) where
  /-- The parent has been read. -/
  | checking (imp : Importer) (b parent : SealedBeaconBlock H)
  /-- The block has passed and is to be written. -/
  | validated (b : SealedBeaconBlock H)

def Running.block : Running H → SealedBeaconBlock H
  | checking _ b _ => b
  | validated b => b

structure Node (H : Type) where
  db : Database H
  running : List (Running H)

def Database.headNumber (d : Database H) : Nat := d.latestBeaconState.header.number

/-- The follower is handed the block after the head (`TopicHandlerWithInOrderDelivering`), the pipeline whatever a
peer answers. -/
def Importer.Receives (d : Database H) (b : SealedBeaconBlock H) : Importer → Prop
  | sync _ => True
  | follower .. => b.header.number = succNumber d.headNumber

/-- Numbers and timestamps are 64 bits wide. -/
def BeaconBlockHeader.Fits (h : BeaconBlockHeader H) : Prop := h.number < 2 ^ 64 ∧ h.timestamp < 2 ^ 64

instance (h : BeaconBlockHeader H) : Decidable h.Fits := inferInstanceAs (Decidable (_ ∧ _))

/-- One content per height gathers a quorum, in one round where the round belongs to the identity. -/
structure Network.Agrees (net : Network H) : Prop where
  content : ∀ b b' : SealedBeaconBlock H, HasQuorum net b → HasQuorum net b' → b.header.number = b'.header.number →
    b.header.withoutRound = b'.header.withoutRound
  round : ∀ b b' : SealedBeaconBlock H, HasQuorum net b → HasQuorum net b' → b.header.number = b'.header.number →
    net.isRoundIndependent b.header.timestamp = some false → b.header = b'.header

variable [DecidableEq H]

inductive Step (net : Network H) : Node H → Node H → Prop
  | receive {d : Database H} {l : List (Running H)} (imp : Importer)
      (b parent : SealedBeaconBlock H) (hfits : b.header.Fits)
      (hreceives : imp.Receives d b) (hparent : d.getSealedBeaconBlock (prevNumber b.header.number) = some parent) :
      Step net ⟨d, l⟩ ⟨d, .checking imp b parent :: l⟩
  | accept {d : Database H} {l₁ l₂ : List (Running H)} (imp : Importer) (b parent : SealedBeaconBlock H)
      (hchecks : compositeBlockValidator (imp.validators net d parent.block) b.block = .ok)
      (hseals : verifySeals net b.commitSeals b.header = .ok ()) :
      Step net ⟨d, l₁ ++ .checking imp b parent :: l₂⟩ ⟨d, l₁ ++ .validated b :: l₂⟩
  /-- The engine hands over sealed successors of stored blocks. -/
  | engine {d : Database H} {l : List (Running H)} (b parent : SealedBeaconBlock H) (hfits : b.header.Fits) {n : Nat}
      (hparent : d.getSealedBeaconBlock n = some parent) (hextends : Extends net parent.block b.block)
      (hquorum : HasQuorum net b) :
      Step net ⟨d, l⟩ ⟨d, .validated b :: l⟩
  | write {d e : Database H} {l₁ l₂ : List (Running H)} (b : SealedBeaconBlock H)
      (himport : net.importBlock d b = some e) :
      Step net ⟨d, l₁ ++ .validated b :: l₂⟩ ⟨e, l₁ ++ l₂⟩
  /-- A rejected block, an exception, a stop. -/
  | drop {d : Database H} {l₁ l₂ : List (Running H)} (r : Running H) : Step net ⟨d, l₁ ++ r :: l₂⟩ ⟨d, l₁ ++ l₂⟩

/-! ### One chain -/

omit [DecidableEq H] in
theorem Network.Agrees.identity {net : Network H} (h : net.Agrees) {b b' : SealedBeaconBlock H} (hb : HasQuorum net b)
    (hb' : HasQuorum net b') (hnumber : b.header.number = b'.header.number) :
    net.beaconBlockIdHash b.header = net.beaconBlockIdHash b'.header := by
  have hcontent := h.content b b' hb hb' hnumber
  have htimestamp := (BeaconBlockHeader.fields_eq_of_withoutRound hcontent).2.1
  cases hfork : net.isRoundIndependent b.header.timestamp with
  | none => simp [beaconBlockIdHash, ← htimestamp, hfork]
  | some independent =>
    cases independent with
    | true => simp [beaconBlockIdHash, ← htimestamp, hfork, hcontent]
    | false => rw [h.round b b' hb hb' hnumber hfork]

omit [DecidableEq H] in
theorem Extends.congr_parent {net : Network H} (hinj : Function.Injective net.hash.headerHash)
    {p p' b : BeaconBlock H} {root : H}
    (h : Extends net p b) (hp : net.beaconBlockIdHash p.header = some root)
    (hp' : net.beaconBlockIdHash p'.header = some root) :
    Extends net p' b := by
  obtain ⟨hnumber, htimestamp, -⟩ := BeaconBlockHeader.fields_eq_of_withoutRound (withoutRound_eq_of_idHash hinj hp hp')
  exact ⟨hnumber ▸ h.number, htimestamp ▸ h.timestamp, hp'.trans (hp.symm.trans h.parentRoot), h.bodyRoot, h.identity⟩

/-- What stands below a running import: a block with the identity of the parent. -/
def Running.Ready (net : Network H) (d : Database H) : Running H → Prop
  | checking _ b parent =>
    b.header.Fits ∧ ∃ n root q, d.Holds net n root q ∧ net.beaconBlockIdHash parent.header = some root
  | validated b => b.header.Fits ∧ HasQuorum net b ∧ ∃ n root q, d.Holds net n root q ∧ Extends net q.block b.block

structure Node.Inv (net : Network H) (s : Node H) (top : Nat) : Prop where
  consistent : s.db.Consistent net top
  times : ∀ n root b, s.db.Holds net n root b → n ≤ b.header.timestamp ∧ b.header.timestamp < 2 ^ 64
  linked : ∀ n root root' b b', s.db.Holds net n root b → s.db.Holds net (n + 1) root' b' →
    Extends net b.block b'.block ∧ HasQuorum net b'
  latest : ∃ n root b, s.db.Holds net n root b ∧ s.db.latestBeaconState = net.processBlock b.block
  ready : ∀ r ∈ s.running, r.Ready net s.db

section

variable {net : Network H} {s s' : Node H} {d e : Database H} {top : Nat}

omit [DecidableEq H] in
/-- The number of a block on top of a stored one does not wrap around: the timestamps would have run out before. -/
theorem Node.Inv.number_of_extends (hs : s.Inv net top) {n : Nat} {root : H} {q b : SealedBeaconBlock H}
    (hq : s.db.Holds net n root q)
    (hextends : Extends net q.block b.block) (hfits : b.header.Fits) : b.header.number = n + 1 := by
  have hn := (hs.times n root q hq).1
  have ht : q.header.timestamp < b.header.timestamp := hextends.timestamp
  have hlast := hfits.2
  have hnumber : b.header.number = succNumber q.header.number := hextends.number
  rw [hnumber, hq.number, succNumber, Nat.mod_eq_of_lt (by omega)]

variable {o : SealedBeaconBlock H}

section

variable (hinj : Function.Injective net.hash.headerHash) (himport : net.importBlock d o = some e)
  (hbody : o.header.bodyRoot = net.hash.bodyRoot o.block.body) (hsame : ∀ root b, d.Holds net o.header.number root b →
    net.beaconBlockIdHash o.header = some root)

include hinj himport hbody hsame

theorem Database.Holds.importBlock {n : Nat} {root : H}
    {b : SealedBeaconBlock H} (h : d.Holds net n root b) : ∃ b', e.Holds net n root b' := by
  by_cases hno : n = o.header.number
  · subst hno
    exact ⟨o, holds_importBlock himport (hsame root b h) hbody⟩
  · exact ⟨b, h.importBlock_of_ne hinj himport hno⟩

theorem Running.Ready.importBlock {r : Running H}
    (h : r.Ready net d) : r.Ready net e := by
  cases r with
  | checking imp b parent =>
    obtain ⟨hfits, n, root, q, hq, hparent⟩ := h
    obtain ⟨q', hq'⟩ := hq.importBlock hinj himport hbody hsame
    exact ⟨hfits, n, root, q', hq', hparent⟩
  | validated b =>
    obtain ⟨hfits, hquorum, n, root, q, hq, hextends⟩ := h
    obtain ⟨q', hq'⟩ := hq.importBlock hinj himport hbody hsame
    exact ⟨hfits, hquorum, n, root, q', hq', hextends.congr_parent hinj hq.identity hq'.identity⟩

end

omit [DecidableEq H] in
theorem Node.Inv.same_identity (hagree : net.Agrees) (hs : s.Inv net top) {n : Nat} {root : H}
    {q o : SealedBeaconBlock H}
    (hq : s.db.Holds net n root q) (hnumber : o.header.number = n + 1) (hquorum : HasQuorum net o) :
    ∀ root b, s.db.Holds net o.header.number root b → net.beaconBlockIdHash o.header = some root := by
  intro root' b hb
  rw [hnumber] at hb
  obtain ⟨-, hquorum'⟩ := hs.linked n root root' q b hq hb
  rw [hagree.identity hquorum hquorum' (hnumber.trans hb.number.symm)]
  exact hb.identity

theorem Node.Inv.importBlock (hinj : Function.Injective net.hash.headerHash) (hagree : net.Agrees)
    {l : List (Running H)} (hs : Node.Inv net ⟨d, l⟩ top) (ho : (Running.validated o).Ready net d)
    (himport : net.importBlock d o = some e) : Node.Inv net ⟨e, l⟩ (max top o.header.number) := by
  obtain ⟨hfits, hquorum, n, root, q, hq, hextends⟩ := ho
  have hnumber := hs.number_of_extends hq hextends hfits
  have hsame := hs.same_identity hagree hq hnumber hquorum
  have hbody := hextends.bodyRoot
  obtain ⟨oroot, horoot⟩ := hextends.identity
  have hnew := Database.holds_importBlock himport horoot hbody
  have hn := hs.consistent.roots n root hq.byNumber
  -- a block that is stored now was stored before, or is the new one
  have hold : ∀ {m r b}, m ≠ o.header.number → e.Holds net m r b → d.Holds net m r b := by
    intro m r b hm hb
    obtain ⟨r', b', hb'⟩ := hs.consistent.stored m
      (by have := (hs.consistent.importBlock hinj himport hbody (by omega) hsame).roots m r hb.byNumber; omega)
    obtain ⟨rfl, rfl⟩ := (hb'.importBlock_of_ne hinj himport hm).unique hb
    exact hb'
  refine ⟨hs.consistent.importBlock hinj himport hbody (by omega) hsame, fun m r b hb => ?_,
    fun m r r' b b' hb hb' => ?_,
    ⟨_, _, _, hnew, importBlock_latest himport⟩, fun r hr => (hs.ready r hr).importBlock hinj himport hbody hsame⟩
  · by_cases hm : m = o.header.number
    · subst hm
      obtain ⟨-, rfl⟩ := hnew.unique hb
      have := (hs.times n root q hq).1
      have : q.header.timestamp < o.header.timestamp := hextends.timestamp
      exact ⟨by omega, hfits.2⟩
    · exact hs.times m r b (hold hm hb)
  · by_cases hm : m + 1 = o.header.number
    · -- the new block above a stored one
      rw [hm] at hb'
      obtain ⟨-, rfl⟩ := hnew.unique hb'
      have hmn : m = n := by omega
      subst hmn
      obtain ⟨-, rfl⟩ := (hold (by omega) hb).unique hq
      exact ⟨hextends, hquorum⟩
    · have hb' := hold hm hb'
      by_cases hm' : m = o.header.number
      · -- a stored block above the new one
        subst hm'
        obtain ⟨-, rfl⟩ := hnew.unique hb
        obtain ⟨r₁, b₁, hb₁⟩ := hs.consistent.stored o.header.number
          (by have := hs.consistent.roots _ _ hb'.byNumber; omega)
        obtain ⟨hext, hq'⟩ := hs.linked _ _ _ _ _ hb₁ hb'
        exact ⟨hext.congr_parent hinj hb₁.identity (hsame _ _ hb₁), hq'⟩
      · exact hs.linked m r r' b b' (hold hm' hb) hb'

theorem Step.inv (hinj : Function.Injective net.hash.headerHash) (hagree : net.Agrees) (hstep : Step net s s')
    (hs : s.Inv net top) : ∃ top', s'.Inv net top' := by
  cases hstep with
  | receive imp b parent hfits hreceives hparent =>
    obtain ⟨-, root, hq⟩ := hs.consistent.holds_of_get hparent
    exact ⟨top, hs.consistent, hs.times, hs.linked, hs.latest,
      forall_mem_cons.2 ⟨⟨hfits, _, root, parent, hq, hq.identity⟩, hs.ready⟩⟩
  | accept imp b parent hchecks hseals =>
    refine ⟨top, hs.consistent, hs.times, hs.linked, hs.latest, fun r hr => ?_⟩
    have hready := hs.ready
    simp only [forall_mem_append, forall_mem_cons] at hready
    obtain ⟨h₁, ⟨hfits, n, root, q, hq, hparent⟩, h₂⟩ := hready
    have hextends := Importer.extends_of_validators (composite_eq_ok.1 hchecks)
    rcases mem_append.1 hr with hr | hr
    · exact h₁ r hr
    · rcases mem_cons.1 hr with rfl | hr
      · exact ⟨hfits, hasQuorum_of_verifySeals hseals, n, root, q, hq, hextends.congr_parent hinj hparent hq.identity⟩
      · exact h₂ r hr
  | engine b parent hfits hparent hextends hquorum =>
    obtain ⟨-, root, hq⟩ := hs.consistent.holds_of_get hparent
    exact ⟨top, hs.consistent, hs.times, hs.linked, hs.latest,
      forall_mem_cons.2 ⟨⟨hfits, hquorum, _, root, parent, hq, hextends⟩, hs.ready⟩⟩
  | write b himport =>
    have hready := hs.ready
    simp only [forall_mem_append, forall_mem_cons] at hready
    obtain ⟨h₁, hb, h₂⟩ := hready
    refine ⟨_, Node.Inv.importBlock hinj hagree ⟨hs.consistent, hs.times, hs.linked, hs.latest, ?_⟩ hb himport⟩
    exact forall_mem_append.2 ⟨h₁, h₂⟩
  | drop r =>
    have hready := hs.ready
    simp only [forall_mem_append, forall_mem_cons] at hready
    exact ⟨top, hs.consistent, hs.times, hs.linked, hs.latest, forall_mem_append.2 ⟨hready.1, hready.2.2⟩⟩

structure Database.Chain (net : Network H) (d : Database H) : Prop where
  linked : ∀ n, n + 1 ≤ d.headNumber → ∃ b parent, d.getSealedBeaconBlock (n + 1) = some b ∧
    d.getSealedBeaconBlock n = some parent ∧
    b.header.number = n + 1 ∧ net.beaconBlockIdHash parent.header = some b.header.parentRoot ∧
    parent.header.timestamp < b.header.timestamp ∧ b.header.bodyRoot = net.hash.bodyRoot b.block.body ∧ HasQuorum net b
  latest : ∃ b, d.getSealedBeaconBlock d.headNumber = some b ∧ d.latestBeaconState = net.processBlock b.block

omit [DecidableEq H] in
theorem Node.Inv.chain (hs : s.Inv net top) : s.db.Chain net := by
  obtain ⟨n, root, b, hb, hlatest⟩ := hs.latest
  have hhead : s.db.headNumber = n := by
    rw [Database.headNumber, hlatest]
    exact hb.number
  have hn := hs.consistent.roots n root hb.byNumber
  refine ⟨fun m hm => ?_, b, hhead ▸ hb.get, hlatest⟩
  obtain ⟨r, p, hp⟩ := hs.consistent.stored m (by omega)
  obtain ⟨r', c, hc⟩ := hs.consistent.stored (m + 1) (by omega)
  obtain ⟨hextends, hquorum⟩ := hs.linked m r r' p c hp hc
  exact ⟨c, p, hc.get, hp.get, hc.number, hextends.parentRoot, hextends.timestamp, hextends.bodyRoot, hquorum⟩

/-! ### The head -/

/-- A step in which a block is taken only above the head, and while no other import is running. -/
structure OrderlyStep (net : Network H) (s s' : Node H) : Prop where
  step : Step net s s'
  alone : ∀ r, s'.running = r :: s.running → s.running = [] ∧ s.db.headNumber < r.block.header.number

def Node.Orderly (s : Node H) : Prop := s.running = [] ∨ ∃ r, s.running = [r] ∧ s.db.headNumber < r.block.header.number

omit [DecidableEq H] in
theorem Node.Orderly.eq_nil {l₁ l₂ : List (Running H)} {r : Running H} (h : Node.Orderly ⟨d, l₁ ++ r :: l₂⟩) :
    l₁ = [] ∧ l₂ = [] ∧ d.headNumber < r.block.header.number := by
  rcases h with h | ⟨r', h, hlt⟩
  · exact absurd h (by simp)
  · obtain ⟨rfl, h⟩ := append_eq_singleton_iff.1 h |>.resolve_right fun h => cons_ne_nil _ _ h.2
    cases h
    exact ⟨rfl, rfl, hlt⟩

theorem importBlock_headNumber (himport : net.importBlock d o = some e) :
    e.headNumber = o.header.number := by
  rw [Database.headNumber, importBlock_latest himport]
  rfl

theorem OrderlyStep.headNumber_le (hstep : OrderlyStep net s s') (hs : s.Orderly) :
    s.db.headNumber ≤ s'.db.headNumber ∧ s'.Orderly := by
  obtain ⟨hstep, halone⟩ := hstep
  cases hstep with
  | receive imp b parent hfits hreceives hparent =>
    obtain ⟨hnil, hlt⟩ := halone _ rfl
    exact ⟨le_rfl, .inr ⟨_, congrArg (_ :: ·) hnil, hlt⟩⟩
  | engine b parent hfits hparent hextends hquorum =>
    obtain ⟨hnil, hlt⟩ := halone _ rfl
    exact ⟨le_rfl, .inr ⟨_, congrArg (_ :: ·) hnil, hlt⟩⟩
  | accept imp b parent hchecks hseals =>
    obtain ⟨rfl, rfl, hlt⟩ := hs.eq_nil
    exact ⟨le_rfl, .inr ⟨_, rfl, hlt⟩⟩
  | write b himport =>
    obtain ⟨rfl, rfl, hlt⟩ := hs.eq_nil
    exact ⟨importBlock_headNumber himport ▸ hlt.le, .inl rfl⟩
  | drop r =>
    obtain ⟨rfl, rfl, -⟩ := hs.eq_nil
    exact ⟨le_rfl, .inl rfl⟩

end

/-! ### An old block from a peer -/

def unsigned : Network Term where
  hash := freeHashing
  forks := fromPhase1
  validators := [1]
  recover _ _ := none
  requiredQuorum n := (2 * n + 2) / 3
  selectProposerForRound _ _ _ validators := validators.head?

def soleGenesis : SealedBeaconBlock Term where
  block :=
    { header := ⟨0, 0, 0, 1, .empty, .empty, .body ⟨[], ⟨0, none, [], []⟩⟩⟩
      body := ⟨[], ⟨0, none, [], []⟩⟩ }
  commitSeals := []

def soleFirst : SealedBeaconBlock Term := freeSuccessor unsigned soleGenesis.header 0 1 [[1]]

def soleSecond : SealedBeaconBlock Term := freeSuccessor unsigned soleFirst.header 0 1 [[1]]

def soleValidator : Network Term :=
  { unsigned with
    recover := fun s h => if s = [1] ∧ (h = .ofHeader soleFirst.header ∨
      h = .ofHeader soleSecond.header) then some 1 else none }

theorem header_of_hasQuorum {b : SealedBeaconBlock Term} (h : HasQuorum soleValidator b) :
    b.header = soleFirst.header ∨ b.header = soleSecond.header := by
  obtain ⟨sealers, -, hlength, hsealers⟩ := h
  obtain ⟨v, hv⟩ :=
    exists_mem_of_length_pos (lt_of_lt_of_le (show 0 < soleValidator.requiredQuorum 1 by decide) hlength)
  obtain ⟨-, s, -, hrecover⟩ := hsealers v hv
  have hsigned : s = [1] ∧ (soleValidator.hash.headerHash b.header = .ofHeader soleFirst.header ∨
      soleValidator.hash.headerHash b.header = .ofHeader soleSecond.header) := by
    by_contra hnot
    cases (if_neg hnot).symm.trans hrecover
  exact hsigned.2.imp (fun h => freeHashing_headerHash_injective h) fun h => freeHashing_headerHash_injective h

theorem soleValidator_agrees : soleValidator.Agrees := by
  have heq : ∀ b b' : SealedBeaconBlock Term, HasQuorum soleValidator b → HasQuorum soleValidator b' →
      b.header.number = b'.header.number → b.header = b'.header := by
    intro b b' hb hb' hnumber
    have hne : soleFirst.header.number ≠ soleSecond.header.number := by decide
    rcases header_of_hasQuorum hb with h | h <;> rcases header_of_hasQuorum hb' with h' | h' <;> rw [h, h'] at hnumber ⊢
    · exact absurd hnumber hne
    · exact absurd hnumber.symm hne
  exact ⟨fun b b' hb hb' h => by rw [heq b b' hb hb' h], fun b b' hb hb' h _ => heq b b' hb hb' h⟩

theorem soleSecond_fits : soleSecond.header.Fits := ⟨show 2 < 2 ^ 64 by decide, show 2 < 2 ^ 64 by decide⟩

def soleInitial : Database Term := .initial soleValidator (.ofHeader soleGenesis.header.withoutRound) soleGenesis

def soleWrite (d : Database Term) (b : SealedBeaconBlock Term) : Database Term := (soleValidator.importBlock d b).getD d

theorem Step.sync {H : Type} [DecidableEq H] {net : Network H} {d : Database H} {b : SealedBeaconBlock H}
    (parent : SealedBeaconBlock H)
    (hfits : b.header.Fits) (hparent : d.getSealedBeaconBlock (prevNumber b.header.number) = some parent)
    (hchecks : compositeBlockValidator ((Importer.sync true).validators net d parent.block) b.block = .ok)
    (hseals : verifySeals net b.commitSeals b.header = .ok ()) :
    Relation.ReflTransGen (Step net) ⟨d, []⟩ ⟨d, [.validated b]⟩ :=
  .tail (.single (.receive (.sync true) b parent hfits trivial hparent))
    (@Step.accept _ _ net d [] [] (.sync true) b parent hchecks hseals)

end Lineth.Maru
