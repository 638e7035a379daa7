import Lineth.Maru.Sync

/-!
# Downloading a range of blocks

A node asks one peer after the other for the blocks of a range. A peer answers with the blocks from the first number
on, as many as fit in a message, and the next request is for the rest. Too many attempts in a row that bring no block
end the download. -/

namespace Lineth.Maru.Download

open List
open Sync (SyncTargetRange)

/-! ### The serving node -/

/-- The chain of a node. The limit and the size of a block add up to an `Int`. -/
structure Node (B : Type) where
  getSealedBeaconBlock : Nat → Option B
  serializedSize : B → Nat
  sizeLimit : Nat
  limit_pos : 0 < sizeLimit
  small b : sizeLimit + serializedSize b < 2 ^ 31

variable {B P : Type}

namespace Node

variable (c : Node B)

/-- The loop of `getBlocks`, of whose range `left` numbers are left; the error is the number of a missing block. -/
def retrieve : (left blockNumber : Nat) → (sum : Int) → List B → Except Nat (List B)
  | 0, _, _, blocks => .ok blocks
  | left + 1, blockNumber, sum, blocks =>
    if sum < c.sizeLimit then
      match c.getSealedBeaconBlock blockNumber with
      | none => .error blockNumber
      | some b =>
        let sum := (sum + c.serializedSize b).bmod (2 ^ 32)
        retrieve left (blockNumber + 1) sum (if sum ≤ c.sizeLimit then blocks ++ [b] else blocks)
    else .ok blocks

/-- `SizeLimitBlockRetrievalStrategy.getBlocks`, in which the last number of the range is a sum of 64 bits. -/
def getBlocks (startBlockNumber maxBlocks : Nat) : Except Nat (List B) :=
  let last := (startBlockNumber + maxBlocks + (2 ^ 64 - 1)) % 2 ^ 64
  c.retrieve (last + 1 - startBlockNumber) startBlockNumber 0 []

def handleIncomingMessage (startBlockNumber count : Nat) : Except Nat (List B) :=
  c.getBlocks startBlockNumber (min count 256)

def total : List B → Nat
  | [] => 0
  | b :: bs => c.serializedSize b + total bs

theorem total_concat (bs : List B) (b : B) : c.total (bs ++ [b]) = c.total bs + c.serializedSize b := by
  induction bs with
  | nil => simp [total]
  | cons b bs ih => simp [total, ih, Nat.add_assoc]

/-- The blocks from a number on, at most `m` and as many as fit, or the number of one of them that is missing. -/
def Serves (start m : Nat) : Except Nat (List B) → Prop
  | .ok bs => bs.length ≤ m ∧ bs.map some = (range' start bs.length).map c.getSealedBeaconBlock ∧
      c.total bs ≤ c.sizeLimit ∧ (bs.length = m ∨ c.total bs = c.sizeLimit ∨
        ∃ b, c.getSealedBeaconBlock (start + bs.length) = some b ∧ c.sizeLimit < c.total bs + c.serializedSize b)
  | .error n => start ≤ n ∧ n < start + m ∧ c.getSealedBeaconBlock n = none

def FirstFits (start : Nat) : Prop := ∀ b, c.getSealedBeaconBlock start = some b → c.serializedSize b ≤ c.sizeLimit

variable {c}

theorem bmod_total {blocks : List B} (h : c.total blocks ≤ c.sizeLimit) (b : B) :
    ((c.total blocks : Int) + c.serializedSize b).bmod (2 ^ 32) = c.total (blocks ++ [b]) := by
  have := c.small b
  rw [total_concat, Int.bmod_eq_of_le (by omega) (by omega), Int.natCast_add]

theorem serves_retrieve (start left : Nat) (blocks : List B)
    (hchain : blocks.map some = (range' start blocks.length).map c.getSealedBeaconBlock)
    (hfits : c.total blocks ≤ c.sizeLimit) :
    c.Serves start (blocks.length + left) (c.retrieve left (start + blocks.length) (c.total blocks) blocks) := by
  induction left generalizing blocks with
  | zero => exact ⟨le_rfl, hchain, hfits, .inl rfl⟩
  | succ left ih =>
    rw [retrieve]
    by_cases hsum : c.total blocks < c.sizeLimit
    · rw [if_pos (by omega)]
      cases hb : c.getSealedBeaconBlock (start + blocks.length) with
      | none => exact ⟨by omega, by omega, hb⟩
      | some b =>
        simp only [bmod_total hfits]
        by_cases hle : c.total (blocks ++ [b]) ≤ c.sizeLimit
        · have hrest := ih (blocks ++ [b]) (by simp [hchain, range'_1_concat, hb]) hle
          simpa [hle, Nat.add_assoc, Nat.add_comm 1] using hrest
        · -- the sum has passed the limit, so the next round is not entered
          have hstop : c.retrieve left (start + blocks.length + 1) (c.total (blocks ++ [b])) blocks = .ok blocks := by
            cases left with
            | zero => rfl
            | succ left => rw [retrieve, if_neg (by omega)]
          rw [if_neg (by omega), hstop]
          exact ⟨by omega, hchain, hfits, .inr (.inr ⟨b, hb, by rwa [total_concat, not_le] at hle⟩)⟩
    · rw [if_neg (by omega)]
      exact ⟨by omega, hchain, hfits, .inr (.inl (by omega))⟩

/-- A reply to a request for some blocks, the first of which fits, is not one to a request for none. -/
theorem Serves.eq_zero {start m : Nat} {reply : Except Nat (List B)} (hfits : c.FirstFits start)
    (h : c.Serves start 0 reply) (hm : c.Serves start m reply) : m = 0 := by
  cases reply with
  | error n => exact absurd h.2.1 (by have := h.1; omega)
  | ok bs =>
    obtain rfl := length_eq_zero_iff.mp (Nat.le_zero.mp h.1)
    obtain ⟨-, -, -, h | h | ⟨b, hb, h⟩⟩ := hm
    · exact h.symm
    · exact absurd h c.limit_pos.ne
    · simp only [total, Nat.zero_add] at h
      exact absurd (hfits b hb) (by omega)

section

variable (c) (start count : Nat)

theorem serves_range : c.Serves start ((start + min count 256 + (2 ^ 64 - 1)) % 2 ^ 64 + 1 - start)
    (c.handleIncomingMessage start count) := by
  have hserves := serves_retrieve (c := c) start
    ((start + min count 256 + (2 ^ 64 - 1)) % 2 ^ 64 + 1 - start) [] rfl (Nat.zero_le _)
  rwa [length_nil, Nat.zero_add] at hserves

theorem serves_of_bounded (h : (start ≠ 0 ∨ count ≠ 0) ∧ start + min count 256 ≤ 2 ^ 64) :
    c.Serves start (min count 256) (c.handleIncomingMessage start count) := by
  have hserves := c.serves_range start count
  rwa [show (start + min count 256 + (2 ^ 64 - 1)) % 2 ^ 64 + 1 - start = min count 256 by omega] at hserves

variable {c} in
theorem bounded_of_serves (hstart : start < 2 ^ 64) (hfits : c.FirstFits start)
    (h : c.Serves start (min count 256) (c.handleIncomingMessage start count)) :
    (start ≠ 0 ∨ count ≠ 0) ∧ start + min count 256 ≤ 2 ^ 64 := by
  have hserves := c.serves_range start count
  by_contra hcond
  by_cases hcount : count = 0
  · subst hcount
    have := Serves.eq_zero hfits h hserves
    omega
  · rw [show (start + min count 256 + (2 ^ 64 - 1)) % 2 ^ 64 + 1 - start = 0 by omega] at hserves
    have := Serves.eq_zero hfits hserves h
    omega

end

end Node

/-! ### The downloading node -/

structure DownloadState (B P : Type) where
  startBlockNumber : Nat
  remaining : Nat
  retries : Nat
  downloadedBlocks : List (B × P)
deriving DecidableEq

/-- What comes of a round: there is no peer to ask, or the peer times out, fails or answers. -/
inductive Attempt (P : Type)
  | noPeer
  | failed (peer : P)
  | answered (peer : P)
deriving DecidableEq

def Attempt.isAnswered : Attempt P → Bool
  | .answered _ => true
  | _ => false

inductive Progress (B P : Type)
  | downloading (s : DownloadState B P)
  | returned (blocks : List (B × P))
  | maxRetriesReached
deriving DecidableEq

section

variable (answer : P → Nat → Nat → Except Nat (List B))

def DownloadState.attempt (s : DownloadState B P) : Attempt P → DownloadState B P
  | .answered peer =>
    match answer peer s.startBlockNumber s.remaining with
    | .error _ => { s with retries := s.retries + 1 }
    | .ok blocks =>
      if blocks.length = 0 ∨ blocks.length > s.remaining then { s with retries := s.retries + 1 }
      else
        { startBlockNumber := s.startBlockNumber + blocks.length
          remaining := s.remaining - blocks.length
          retries := 0
          downloadedBlocks := s.downloadedBlocks ++ blocks.map (·, peer) }
  | _ => { s with retries := s.retries + 1 }

variable {answer} in
theorem DownloadState.attempt_of_ok {s : DownloadState B P} {peer : P} {blocks : List B}
    (h : answer peer s.startBlockNumber s.remaining = .ok blocks) (hne : blocks.length ≠ 0)
    (hle : blocks.length ≤ s.remaining) :
    s.attempt answer (.answered peer) =
      ⟨s.startBlockNumber + blocks.length, s.remaining - blocks.length, 0,
        s.downloadedBlocks ++ blocks.map (·, peer)⟩ := by
  simp [attempt, h, hne, hle.not_gt]

/-- The loop of `downloadBlocks`. -/
def downloadFrom (maxRetries totalCount : Nat) (s : DownloadState B P) : List (Attempt P) → Progress B P
  | [] => if s.downloadedBlocks.length < totalCount then .downloading s else .returned s.downloadedBlocks
  | a :: attempts =>
    if s.downloadedBlocks.length < totalCount then
      let s := s.attempt answer a
      if s.retries ≥ maxRetries then .maxRetriesReached else downloadFrom maxRetries totalCount s attempts
    else .returned s.downloadedBlocks

def downloadBlocks (maxRetries : Nat) (targetRange : SyncTargetRange) (attempts : List (Attempt P)) : Progress B P :=
  let totalCount := targetRange.endBlock - targetRange.startBlock + 1
  downloadFrom answer maxRetries totalCount ⟨targetRange.startBlock, totalCount, 0, []⟩ attempts

end

/-- The blocks that have been downloaded are the first ones of the range and the next request is for the rest. Each
answer has brought a block, and the last attempts, as many as are counted, have brought none. -/
structure Reached (chain : Nat → B) (r : SyncTargetRange) (past : List (Attempt P)) (s : DownloadState B P) : Prop where
  start : s.startBlockNumber = r.startBlock + s.downloadedBlocks.length
  remaining : s.startBlockNumber + s.remaining = r.endBlock + 1
  blocks : s.downloadedBlocks.map Prod.fst = (range' r.startBlock s.downloadedBlocks.length).map chain
  answers : past.countP Attempt.isAnswered ≤ s.downloadedBlocks.length
  row : ∃ q fails, past = q ++ fails ∧ fails.length = s.retries ∧ ∀ a ∈ fails, ¬a.isAnswered

/-- What a download may come to after some attempts. -/
def Outcome (chain : Nat → B) (r : SyncTargetRange) (maxRetries : Nat) (attempts : List (Attempt P)) :
    Progress B P → Prop
  | .downloading _ => attempts.countP Attempt.isAnswered < r.numbers.length
  | .returned blocks => blocks.map Prod.fst = r.numbers.map chain
  | .maxRetriesReached =>
    ∃ q fails rest, attempts = q ++ fails ++ rest ∧ maxRetries ≤ fails.length ∧ ∀ a ∈ fails, ¬a.isAnswered

/-- Nodes that hold the range, whose blocks each fit in a reply. -/
def Hold (nodes : P → Node B) (chain : Nat → B) (r : SyncTargetRange) : Prop :=
  ∀ p, ∀ n ∈ r.numbers, (nodes p).getSealedBeaconBlock n = some (chain n) ∧ (nodes p).FirstFits n

section

variable {nodes : P → Node B} {chain : Nat → B} {r : SyncTargetRange} {s : DownloadState B P} {maxRetries : Nat}
  {past : List (Attempt P)} (h : Reached chain r past s)

include h

theorem Reached.failed {a : Attempt P} (ha : a.isAnswered = false) :
    Reached chain r (past ++ [a]) { s with retries := s.retries + 1 } := by
  obtain ⟨q, fails, rfl, hlen, hnone⟩ := h.row
  refine ⟨h.start, h.remaining, h.blocks, ?_, q, fails ++ [a], by simp, by simp [hlen], ?_⟩
  · simpa [ha] using h.answers
  · simpa [or_imp, forall_and, ha] using hnone

theorem Reached.complete (hlen : ¬s.downloadedBlocks.length < r.endBlock - r.startBlock + 1) :
    s.downloadedBlocks.map Prod.fst = r.numbers.map chain := by
  have := h.start
  have := h.remaining
  rw [h.blocks, SyncTargetRange.numbers, show s.downloadedBlocks.length = r.endBlock + 1 - r.startBlock by omega]

variable (hmax : r.endBlock + 1 - r.startBlock ≤ 256) (hend : r.endBlock < 2 ^ 64) (hhold : Hold nodes chain r)

include hmax hend hhold

/-- An honest answer brings blocks, the next ones of the range. -/
theorem Reached.answered (hrem : 0 < s.remaining) (p : P) :
    Reached chain r (past ++ [.answered p]) (s.attempt (fun p => (nodes p).handleIncomingMessage) (.answered p)) := by
  have hstart := h.start
  have hlast := h.remaining
  have hserves := (nodes p).serves_of_bounded s.startBlockNumber s.remaining ⟨.inr hrem.ne', by omega⟩
  rw [show min s.remaining 256 = s.remaining by omega] at hserves
  have hmem : ∀ n, s.startBlockNumber ≤ n → n < s.startBlockNumber + s.remaining →
      (nodes p).getSealedBeaconBlock n = some (chain n) ∧ (nodes p).FirstFits n := by
    intro n hle hlt
    exact hhold p n (by simp [SyncTargetRange.numbers]; omega)
  cases hreply : (nodes p).handleIncomingMessage s.startBlockNumber s.remaining with
  | error n =>
    rw [hreply] at hserves
    exact absurd hserves.2.2 (by simp [(hmem n hserves.1 hserves.2.1).1])
  | ok bs =>
    rw [hreply] at hserves
    have hle := hserves.1
    have hne : bs.length ≠ 0 := by
      intro h
      obtain rfl := length_eq_zero_iff.mp h
      have hzero : (nodes p).Serves s.startBlockNumber 0 (.ok []) := ⟨le_rfl, rfl, Nat.zero_le _, .inl rfl⟩
      exact hrem.ne' (hzero.eq_zero (hmem _ le_rfl (by omega)).2 hserves)
    have hbs : bs = (range' s.startBlockNumber bs.length).map chain := by
      refine map_injective_iff.mpr (fun _ _ => Option.some.inj) (hserves.2.1.trans ?_)
      rw [map_map]
      refine map_congr_left fun n hn => ?_
      have := mem_range'_1.mp hn
      exact (hmem n this.1 (by omega)).1
    rw [DownloadState.attempt_of_ok hreply hne hle]
    refine ⟨?_, ?_, ?_, ?_, past ++ [.answered p], [], by simp, rfl, by simp⟩
    · simp [hstart, Nat.add_assoc]
    · simp only
      omega
    · simp [map_append, h.blocks, Function.comp_def, ← range'_append_1, ← hstart, ← hbs]
    · rw [countP_append, length_append, length_map]
      exact Nat.add_le_add h.answers (Nat.pos_of_ne_zero hne)

theorem Reached.attempt (hrem : 0 < s.remaining) (a : Attempt P) :
    Reached chain r (past ++ [a]) (s.attempt (fun p => (nodes p).handleIncomingMessage) a) := by
  cases a with
  | noPeer => exact h.failed rfl
  | failed p => exact h.failed rfl
  | answered p => exact h.answered hmax hend hhold hrem p

theorem Reached.outcome (hle : r.startBlock ≤ r.endBlock) (attempts : List (Attempt P)) : Outcome chain r maxRetries
    (past ++ attempts)
    (downloadFrom (fun p => (nodes p).handleIncomingMessage) maxRetries
      (r.endBlock - r.startBlock + 1) s attempts) := by
  induction attempts generalizing past s with
  | nil =>
    rw [downloadFrom, append_nil]
    by_cases hlt : s.downloadedBlocks.length < r.endBlock - r.startBlock + 1
    · rw [if_pos hlt]
      have := h.answers
      simp only [Outcome, SyncTargetRange.numbers, length_range']
      omega
    · rw [if_neg hlt]
      exact h.complete hlt
  | cons a attempts ih =>
    rw [downloadFrom]
    by_cases hlt : s.downloadedBlocks.length < r.endBlock - r.startBlock + 1
    · have hnext := h.attempt hmax hend hhold (by have := h.start; have := h.remaining; omega) a
      rw [if_pos hlt]
      by_cases hretries : maxRetries ≤ (s.attempt (fun p => (nodes p).handleIncomingMessage) a).retries
      · obtain ⟨q, fails, hpast, hlen, hnone⟩ := hnext.row
        simp only [ge_iff_le, hretries, if_true]
        exact ⟨q, fails, attempts, by simp [← hpast], hlen ▸ hretries, hnone⟩
      · simpa [hretries] using ih hnext
    · rw [if_neg hlt]
      exact h.complete hlt

end

/-- A request is served as it should unless it is for no block from the first one on, or for blocks past the last
number, and not otherwise if the first block fits. A range is downloaded in order and at the latest with as many
answers as it has blocks. -/
theorem handleIncomingMessage_downloadBlocks :
    (∀ (c : Node B) (start count : Nat), start < 2 ^ 64 → count < 2 ^ 64 →
      ((start ≠ 0 ∨ count ≠ 0) ∧ start + min count 256 ≤ 2 ^ 64 →
        c.Serves start (min count 256) (c.handleIncomingMessage start count)) ∧
      (c.FirstFits start → c.Serves start (min count 256) (c.handleIncomingMessage start count) →
        (start ≠ 0 ∨ count ≠ 0) ∧ start + min count 256 ≤ 2 ^ 64)) ∧
    ∀ (nodes : P → Node B) (chain : Nat → B) (r : SyncTargetRange), r.startBlock ≤ r.endBlock → r.endBlock < 2 ^ 64 →
      r.endBlock + 1 - r.startBlock ≤ 256 → Hold nodes chain r → ∀ maxRetries attempts,
        Outcome chain r maxRetries attempts
        (downloadBlocks (fun p => (nodes p).handleIncomingMessage) maxRetries r attempts) := by
  refine ⟨fun c start count hstart _ => ⟨c.serves_of_bounded start count,
    Node.bounded_of_serves start count hstart⟩, ?_⟩
  intro nodes chain r hle hend hmax hhold maxRetries attempts
  have hinit : Reached chain r [] (⟨r.startBlock, r.endBlock - r.startBlock + 1, 0, []⟩ : DownloadState B P) :=
    ⟨rfl, by simp only; omega, rfl, Nat.zero_le _, [], [], rfl, rfl, by simp⟩
  exact hinit.outcome hmax hend hhold hle attempts

/-- A chain of two blocks. -/
def twoBlocks : Node Nat where
  getSealedBeaconBlock n := if n < 2 then some (10 + n) else none
  serializedSize b := min b 11
  sizeLimit := 15
  limit_pos := by decide
  small b := by omega

theorem twoBlocks_firstFits (n : Nat) : twoBlocks.FirstFits n := fun b _ => show min b 11 ≤ 15 by omega

theorem handleIncomingMessage_zero_zero :
    ¬twoBlocks.Serves 0 (min 0 256) (twoBlocks.handleIncomingMessage 0 0) := fun h =>
  absurd (Node.bounded_of_serves 0 0 (by decide) (twoBlocks_firstFits 0) h) (by decide)

/-- A round without a peer and a failed one between the answers, each of which has room for one block. -/
theorem downloadBlocks_twoBlocks :
    let attempts := [.noPeer, .answered 7, .failed 8, .answered 8]
    let progress := downloadBlocks (fun _ => twoBlocks.handleIncomingMessage) 2 ⟨0, 1⟩ attempts
    twoBlocks.Serves 0 2 (twoBlocks.handleIncomingMessage 0 2) ∧
      progress = .returned [(10, 7), (11, 8)] ∧ Outcome (10 + ·) ⟨0, 1⟩ 2 attempts progress := by
  have hhold : Hold (fun _ : Nat => twoBlocks) (10 + ·) ⟨0, 1⟩ := by
    intro p n hn
    have hlt : n < 2 := (mem_range'_1.mp hn).2
    exact ⟨if_pos hlt, twoBlocks_firstFits n⟩
  exact ⟨((handleIncomingMessage_downloadBlocks (P := Nat)).1 twoBlocks 0 2 (by decide) (by decide)).1 (by decide),
    by decide +kernel, handleIncomingMessage_downloadBlocks.2 _ _ _ (by decide) (by decide) (by decide) hhold _ _⟩

end Lineth.Maru.Download
