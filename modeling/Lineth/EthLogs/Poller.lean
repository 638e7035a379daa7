import Lineth.EthLogs.BinarySearch

/-!
# Delivering logs exactly once

The poller asks for the logs of the blocks that it has not searched yet, chunk by chunk, and hands them to a consumer.
When a search fails or the consumer throws, the same blocks are searched again, and the logs up to the last one that
the consumer accepted are skipped. -/

namespace Lineth.EthLogs

open List Bool Nat

/-! ### Blocks -/

inductive Tag where
  | pending | latest | safe | finalized
deriving DecidableEq, Repr

inductive BlockParameter where
  | blockNumber (number : Nat)
  | earliest
  | tag (t : Tag)
deriving DecidableEq, Repr

def BlockParameter.resolve (heads : Tag → Nat) : BlockParameter → Nat
  | blockNumber number => number
  | earliest => 0
  | tag t => heads t

structure FilterOptions where
  fromBlock : BlockParameter
  toBlock : BlockParameter
  blockChunkSize : Nat

/-! ### The search -/

/-- How a request for the logs of a chunk ends, and what the clock says then. -/
inductive Attempt where
  /-- It failed; without time left, so does the search. -/
  | failed (timeLeft : Bool)
  /-- It succeeded, with all logs of the chunk, which ends at the head at most; the search stops early if its time has
  elapsed, and fails if it does not stop and no time is left. -/
  | succeeded (timeoutElapsed timeLeft : Bool)
deriving DecidableEq, Repr

structure LogSearchResult where
  logs : List EthLog
  startBlockNumber : Nat
  endBlockNumber : Nat
deriving DecidableEq, Repr

section Search

variable (logs : List EthLog)

/-- The rounds of `getLogsLoopingForward`: `chunk` is asked for, `rest` are the chunks of the cursor behind it. -/
def loopForward (startBlock : Nat) : List Attempt → Nat × Nat → List (Nat × Nat) → List EthLog → Option LogSearchResult
  | [], _, _, _ => none
  | .failed timeLeft :: attempts, chunk, rest, collected =>
    if timeLeft then loopForward startBlock attempts chunk rest collected else none
  | .succeeded timeoutElapsed timeLeft :: attempts, chunk, rest, collected =>
    let collected := collected ++ getLogs logs chunk.1 chunk.2
    match rest with
    | [] => some ⟨collected, startBlock, chunk.2⟩
    | next :: rest =>
      if timeoutElapsed then some ⟨collected, startBlock, chunk.2⟩
      else if timeLeft then loopForward startBlock attempts next rest collected else none

def getLogsLoopingForward (fromBlock toBlock chunkSize : Nat) (attempts : List Attempt) : Option LogSearchResult :=
  -- `ConsecutiveSearchCursor` takes an `Int`
  if chunkSize ≥ 2 ^ 31 then none
  else match rangeChunks fromBlock toBlock chunkSize with
    | [] => none
    | chunk :: rest => loopForward logs fromBlock attempts chunk rest []

def getLogsRollingForward (heads : Tag → Nat) (fromBlock toBlock : BlockParameter) (chunkSize : Nat)
    (attempts : List Attempt) :
    Option LogSearchResult :=
  if chunkSize = 0 then none
  else if fromBlock.resolve heads > toBlock.resolve heads then none
  else getLogsLoopingForward logs (fromBlock.resolve heads) (toBlock.resolve heads) chunkSize attempts

end Search

/-! ### The poller -/

inductive FilterState where
  | idle
  | caughtUp (lastSearchedBlockNumber : Nat)
  | searching (startBlockNumber : Nat)
deriving DecidableEq, Repr

/-- `delivered` are the logs that the consumer accepted, in order. -/
structure Poller where
  lastSearchedBlock : Option Nat
  lastProcessedPosition : Option (Nat × Nat)
  currentState : FilterState
  delivered : List EthLog
deriving DecidableEq, Repr

/-- What the node and the consumer do during a tick. The tags are resolved by the poller and again by the searcher;
`none` is a failed request. -/
structure Tick where
  heads : Option (Tag → Nat)
  searchHeads : Option (Tag → Nat)
  attempts : List Attempt
  accepts : EthLog → Bool

namespace Poller

def start : Poller := ⟨none, none, .idle, []⟩

def position (l : EthLog) : Nat × Nat := (l.blockNumber, l.logIndex)

/-- `LogPosition.compareTo` is not positive. -/
def positionLe (a b : Nat × Nat) : Bool := a.1 < b.1 ∨ (a.1 = b.1 ∧ a.2 ≤ b.2)

def isLogAlreadyProcessed (p : Poller) (l : EthLog) : Bool :=
  match p.lastProcessedPosition with
  | some last => positionLe (position l) last
  | none => false

/-- The loop over the logs of a search, and whether it came to its end. -/
def process (accepts : EthLog → Bool) : Poller → List EthLog → Bool × Poller
  | p, [] => (true, p)
  | p, l :: ls =>
    if p.isLogAlreadyProcessed l then process accepts p ls
    else if accepts l then
      process accepts { p with lastProcessedPosition := some (position l), delivered := p.delivered ++ [l] } ls
    else (false, p)

def fromBlock (options : FilterOptions) (p : Poller) : BlockParameter :=
  match p.lastSearchedBlock with
  | some block => .blockNumber (block + 1)
  | none => options.fromBlock

def action (options : FilterOptions) (logs : List EthLog) (p : Poller) (tick : Tick) : Poller :=
  match tick.heads with
  | none => p
  | some heads =>
    if (p.fromBlock options).resolve heads > options.toBlock.resolve heads then
      { p with currentState := .caughtUp (p.lastSearchedBlock.getD 0) }
    else
      let p := { p with currentState := .searching ((p.fromBlock options).resolve heads) }
      match tick.searchHeads with
      | none => p
      | some searchHeads =>
        match getLogsRollingForward logs searchHeads (p.fromBlock options) options.toBlock
          options.blockChunkSize tick.attempts with
        | none => p
        | some result =>
          match p.process tick.accepts result.logs with
          | (false, p) => p
          | (true, p) =>
            if result.logs ≠ [] ∨ result.startBlockNumber ≤ result.endBlockNumber then
              { p with lastSearchedBlock := some result.endBlockNumber }
            else p

def run (options : FilterOptions) (logs : List EthLog) (ticks : List Tick) : Poller :=
  ticks.foldl (action options logs) start

end Poller

/-! ### Logs of consecutive blocks -/

def Ordered (logs : List EthLog) : Prop :=
  logs.Pairwise fun l l' => l.blockNumber < l'.blockNumber ∨ (l.blockNumber = l'.blockNumber ∧ l.logIndex < l'.logIndex)

def between (logs : List EthLog) (a c : Nat) : List EthLog := logs.filter fun l => a ≤ l.blockNumber ∧ l.blockNumber < c

def logsFrom (logs : List EthLog) (b : Nat) : List EthLog := logs.filter fun l => b ≤ l.blockNumber

variable {logs : List EthLog}

theorem getLogs_eq_between (a e : Nat) : getLogs logs a e = between logs a (e + 1) := by
  rw [getLogs, between]
  exact filter_congr fun l _ => decide_eq_decide.2 (by omega)

theorem filter_eq_append (hlogs : Ordered logs) (p : EthLog → Bool) (m : Nat) :
    logs.filter p = logs.filter (fun l => p l && decide (l.blockNumber < m)) ++
      logs.filter fun l => p l && decide (m ≤ l.blockNumber) := by
  induction logs with
  | nil => rfl
  | cons l logs ih =>
    obtain ⟨hl, hrest⟩ := pairwise_cons.1 hlogs
    have ih := ih hrest
    by_cases hm : l.blockNumber < m
    · have hnot : ¬ m ≤ l.blockNumber := by omega
      by_cases hp : p l = true
      · simp only [filter_cons, hp, hm, hnot, decide_true, decide_false, Bool.and_true, Bool.and_false, if_true,
          Bool.false_eq_true, if_false, cons_append]
        exact congrArg (l :: ·) ih
      · simp only [filter_cons, hp, Bool.false_and, Bool.false_eq_true, if_false]
        exact ih
    · -- from here on all blocks are past the cut
      have hnil : (l :: logs).filter (fun l => p l && decide (l.blockNumber < m)) = [] := by
        refine filter_eq_nil_iff.2 fun l' hl' h => ?_
        obtain ⟨-, hlt⟩ := and_eq_true_iff.1 h
        have hlt := of_decide_eq_true hlt
        rcases mem_cons.1 hl' with rfl | hl'
        · exact hm hlt
        · rcases hl l' hl' with h | h <;> omega
      rw [hnil, nil_append]
      refine filter_congr fun l' hl' => ?_
      have : m ≤ l'.blockNumber := by
        rcases mem_cons.1 hl' with rfl | hl'
        · omega
        · rcases hl l' hl' with h | h <;> omega
      simp [this]

theorem between_append (hlogs : Ordered logs) {a m c : Nat} (ham : a ≤ m) (hmc : m ≤ c) :
    between logs a c = between logs a m ++ between logs m c := by
  rw [between, filter_eq_append hlogs _ m, between, between]
  refine congrArg₂ _ (filter_congr fun l _ => ?_) (filter_congr fun l _ => ?_)
  · rw [← decide_and]
    exact decide_eq_decide.2 (by omega)
  · rw [← decide_and]
    exact decide_eq_decide.2 (by omega)

theorem logsFrom_eq_append (hlogs : Ordered logs) {b m : Nat} (hbm : b ≤ m) :
    logsFrom logs b = between logs b m ++ logsFrom logs m := by
  rw [logsFrom, filter_eq_append hlogs _ m, between, logsFrom]
  refine congrArg₂ _ (filter_congr fun l _ => ?_) (filter_congr fun l _ => ?_)
  · rw [← decide_and]
  · rw [← decide_and]
    exact decide_eq_decide.2 (by omega)

/-! ### What a search returns -/

/-- The first interval starts at the beginning, and the others split what comes after it. -/
theorem Splits.of_cons {start stop : Nat} {p : Nat × Nat} {rest : List (Nat × Nat)}
    (h : Splits start stop (p :: rest)) :
    p.1 = start ∧ p.1 ≤ p.2 ∧ Splits (p.2 + 1) stop rest := by
  obtain ⟨⟨hstart, hle, hstop⟩, hbounds⟩ := forall_mem_cons.1 h.bounds
  obtain ⟨hlt, hordered⟩ := pairwise_cons.1 h.ordered
  refine ⟨?_, hle, fun q hq => ⟨hlt q hq, (hbounds q hq).2⟩, hordered, fun b hb hb' => ?_⟩
  · obtain ⟨q, hq, hqs, -⟩ := h.covers start le_rfl (by omega)
    rcases mem_cons.1 hq with rfl | hq
    · omega
    · have := hlt q hq
      omega
  · obtain ⟨q, hq, hqb⟩ := h.covers b (by omega) hb'
    rcases mem_cons.1 hq with rfl | hq
    · omega
    · exact ⟨q, hq, hqb⟩

theorem loopForward_spec (hlogs : Ordered logs) {startBlock : Nat} {attempts : List Attempt} {chunk : Nat × Nat}
    {rest : List (Nat × Nat)} {collected : List EthLog} {result : LogSearchResult}
    (h : loopForward logs startBlock attempts chunk rest collected = some result) {start stop : Nat}
    (hsplits : Splits start stop (chunk :: rest)) (hstart : startBlock ≤ start)
    (hcollected : collected = between logs startBlock start) :
    result.startBlockNumber = startBlock ∧ startBlock ≤ result.endBlockNumber ∧
      result.logs = between logs startBlock (result.endBlockNumber + 1) := by
  induction attempts generalizing chunk rest collected start with
  | nil => cases h
  | cons attempt attempts ih =>
    cases attempt with
    | failed timeLeft =>
      rw [loopForward] at h
      split at h
      · exact ih h hsplits hstart hcollected
      · cases h
    | succeeded timeoutElapsed timeLeft =>
      obtain ⟨rfl, hchunk, hrest⟩ := hsplits.of_cons
      have hall : collected ++ getLogs logs chunk.1 chunk.2 = between logs startBlock (chunk.2 + 1) := by
        rw [hcollected, getLogs_eq_between, ← between_append hlogs hstart (by omega)]
      cases rest with
      | nil =>
        rw [loopForward, hall] at h
        cases h
        exact ⟨rfl, hstart.trans hchunk, rfl⟩
      | cons next rest =>
        rw [loopForward, hall] at h
        split at h
        · cases h
          exact ⟨rfl, hstart.trans hchunk, rfl⟩
        · split at h
          · exact ih h hrest (by omega) rfl
          · cases h

theorem getLogsRollingForward_spec (hlogs : Ordered logs) {heads : Tag → Nat} {fromBlock toBlock : BlockParameter}
    {chunkSize : Nat} {attempts : List Attempt} {result : LogSearchResult} (hto : toBlock.resolve heads < 2 ^ 63)
    (h : getLogsRollingForward logs heads fromBlock toBlock chunkSize attempts = some result) :
    result.startBlockNumber = fromBlock.resolve heads ∧ fromBlock.resolve heads ≤ result.endBlockNumber ∧
      result.logs = between logs (fromBlock.resolve heads) (result.endBlockNumber + 1) := by
  rw [getLogsRollingForward] at h
  split at h
  · cases h
  rename_i hsize
  split at h
  · cases h
  rename_i hle
  rw [getLogsLoopingForward] at h
  split at h
  · cases h
  rename_i hsize'
  have hsplits := splits_rangeChunks (Nat.le_of_not_lt hle) hto (Nat.pos_of_ne_zero hsize) (Nat.lt_of_not_le hsize')
  cases hchunks : rangeChunks (fromBlock.resolve heads) (toBlock.resolve heads) chunkSize with
  | nil => rw [hchunks] at h; cases h
  | cons chunk rest =>
    rw [hchunks] at h hsplits
    refine loopForward_spec hlogs h hsplits le_rfl ?_
    rw [between]
    exact (filter_eq_nil_iff.2 fun l _ hl => by have := of_decide_eq_true hl; omega).symm

/-! ### Exactly once -/

namespace Poller

/-- The delivered logs are the first ones from block `b` on, and no block was passed that has a log which was not
delivered. -/
structure Exact (logs : List EthLog) (b : Nat) (p : Poller) : Prop where
  delivered_first : p.delivered <+: logsFrom logs b
  searched : ∀ s ∈ p.lastSearchedBlock, ∀ l ∈ logsFrom logs b, l.blockNumber ≤ s → l ∈ p.delivered

def AtLast (p : Poller) : Prop := p.lastProcessedPosition = p.delivered.getLast?.map position

theorem positionLe_iff {a b : Nat × Nat} : positionLe a b = true ↔ a.1 < b.1 ∨
    (a.1 = b.1 ∧ a.2 ≤ b.2) := decide_eq_true_iff

variable {l : EthLog}

theorem isLogAlreadyProcessed_iff {F A rest : List EthLog} (hF : Ordered F) {p : Poller} (hlast : p.AtLast)
    (hsplit : F = A ++ l :: rest) (hA : A <+: p.delivered) (hp : p.delivered <+: F) :
    (p.isLogAlreadyProcessed l = true ∧ A ++ [l] <+: p.delivered) ∨
      (p.isLogAlreadyProcessed l = false ∧ p.delivered = A) := by
  obtain ⟨D, hD⟩ := hA
  obtain ⟨E, hE⟩ := hp
  rw [hsplit, ← hD, append_assoc, append_cancel_left_eq] at hE
  cases D with
  | nil =>
    rw [append_nil] at hD
    refine .inr ⟨?_, hD.symm⟩
    rw [isLogAlreadyProcessed, hlast, ← hD]
    cases hlastA : A.getLast? with
    | none => rfl
    | some l' =>
      -- the logs before `l` have smaller positions
      have hmem := mem_of_getLast? hlastA
      have hlt := (pairwise_append.1 (hsplit ▸ hF)).2.2 l' hmem l mem_cons_self
      refine eq_false_iff.2 fun h => ?_
      rcases positionLe_iff.1 h with h | h
      · change l.blockNumber < l'.blockNumber at h
        omega
      · change l.blockNumber = l'.blockNumber ∧ l.logIndex ≤ l'.logIndex at h
        omega
  | cons d D =>
    obtain ⟨rfl, hrest⟩ := List.cons.inj hE
    refine .inl ⟨?_, ⟨D, by rw [← hD, append_assoc]; rfl⟩⟩
    obtain ⟨l', hl'⟩ : ∃ l', (A ++ d :: D).getLast? = some l' := ⟨_, getLast?_eq_some_getLast (by simp)⟩
    rw [isLogAlreadyProcessed, hlast, ← hD, hl']
    refine positionLe_iff.2 ?_
    have hmem : l' ∈ d :: D := by
      rw [getLast?_append_of_ne_nil _ (cons_ne_nil d D)] at hl'
      exact mem_of_getLast? hl'
    rcases mem_cons.1 hmem with rfl | hmem
    · exact .inr ⟨rfl, le_refl _⟩
    · have htail := (pairwise_append.1 (hsplit ▸ hF)).2.1
      have hlt := (pairwise_cons.1 htail).1 l' (hrest ▸ mem_append_left _ hmem)
      rcases hlt with h | h
      · exact .inl h
      · exact .inr ⟨h.1, le_of_lt h.2⟩

theorem process_spec {F : List EthLog} (hF : Ordered F) (accepts : EthLog → Bool)
    (ls : List EthLog) {A rest : List EthLog}
    {p : Poller} (hlast : p.AtLast) (hsplit : F = A ++ ls ++ rest) (hA : A <+: p.delivered) (hp : p.delivered <+: F) :
    (process accepts p ls).2.AtLast ∧ (process accepts p ls).2.delivered <+: F ∧
      p.delivered <+: (process accepts p ls).2.delivered ∧
      (process accepts p ls).2.lastSearchedBlock = p.lastSearchedBlock ∧
      ((process accepts p ls).1 = true → A ++ ls <+: (process accepts p ls).2.delivered) := by
  induction ls generalizing A p with
  | nil => exact ⟨hlast, hp, prefix_rfl, rfl, fun _ => by rwa [append_nil]⟩
  | cons l ls ih =>
    rw [process]
    have hsplit' : F = A ++ l :: (ls ++ rest) := by rw [hsplit, append_assoc, cons_append]
    have hnext : F = A ++ [l] ++ ls ++ rest := by rw [hsplit]; simp
    rcases isLogAlreadyProcessed_iff hF hlast hsplit' hA hp with ⟨hdone, hA'⟩ | ⟨hdone, hD⟩
    · rw [if_pos hdone]
      have := ih hlast hnext hA' hp
      rwa [append_assoc, singleton_append] at this
    · rw [if_neg (by rw [hdone]; exact false_ne_true)]
      by_cases hacc : accepts l = true
      · rw [if_pos hacc]
        have hdelivered : A ++ [l] <+: p.delivered ++ [l] := hD ▸ prefix_rfl
        have := ih (p := { p with lastProcessedPosition := some (position l), delivered := p.delivered ++ [l] })
          (by rw [AtLast]; simp) hnext hdelivered ⟨ls ++ rest, by rw [hD, hnext]; simp⟩
        rw [append_assoc, singleton_append] at this
        obtain ⟨h1, h2, h3, h4, h5⟩ := this
        exact ⟨h1, h2, (prefix_append _ _).trans h3, h4, h5⟩
      · rw [if_neg hacc]
        exact ⟨hlast, hp, prefix_rfl, rfl, fun h => by cases h⟩

structure Inv (logs : List EthLog) (b : Nat) (p : Poller) : Prop extends Exact logs b p where
  atLast : p.AtLast
  from_le : ∀ s ∈ p.lastSearchedBlock, b ≤ s

/-- As long as no block was searched, the filter begins at block `b`; block numbers stay away from the end of their
type. -/
structure Steady (options : FilterOptions) (b : Nat) (p : Poller) (tick : Tick) : Prop where
  from_eq : p.lastSearchedBlock = none → ∀ heads ∈ tick.searchHeads, options.fromBlock.resolve heads = b
  to_lt : ∀ heads ∈ tick.searchHeads, options.toBlock.resolve heads < 2 ^ 63

theorem Ordered.nodup {F : List EthLog} (hF : Ordered F) : F.Nodup := by
  refine hF.imp fun {l l'} h heq => ?_
  subst heq
  omega

theorem prefix_of_subset {F A D : List EthLog} (hF : F.Nodup) (hA : A <+: F) (hD : D <+: F)
    (hsub : A ⊆ D) : A <+: D := by
  rcases prefix_or_prefix_of_prefix hA hD with h | ⟨X, hX⟩
  · exact h
  · cases X with
    | nil =>
      have hAD : D = A := by rw [← hX, append_nil]
      exact hAD ▸ prefix_rfl
    | cons x X =>
      have hnodup : (D ++ x :: X).Nodup := hX ▸ hF.sublist hA.sublist
      have hx : x ∈ D := hsub (hX ▸ mem_append_right _ mem_cons_self)
      exact absurd hx fun hx => (nodup_append.1 hnodup).2.2 x hx x mem_cons_self rfl

variable {options : FilterOptions} {b : Nat} {p : Poller} {tick : Tick}

theorem mem_between {a c : Nat} : l ∈ between logs a c ↔ l ∈ logs ∧ a ≤ l.blockNumber ∧ l.blockNumber < c := by
  rw [between, mem_filter, decide_eq_true_iff]

theorem mem_logsFrom : l ∈ logsFrom logs b ↔ l ∈ logs ∧ b ≤ l.blockNumber := by
  rw [logsFrom, mem_filter, decide_eq_true_iff]

theorem action_inv (hlogs : Ordered logs) (hinv : Inv logs b p) (hsteady : Steady options b p tick) :
    Inv logs b (action options logs p tick) := by
  have hF : Ordered (logsFrom logs b) := List.Pairwise.filter _ hlogs
  rw [action]
  cases tick.heads with
  | none => exact hinv
  | some heads =>
    dsimp only
    split
    · exact ⟨⟨hinv.delivered_first, hinv.searched⟩, hinv.atLast, hinv.from_le⟩
    · cases hsearch : tick.searchHeads with
      | none => exact ⟨⟨hinv.delivered_first, hinv.searched⟩, hinv.atLast, hinv.from_le⟩
      | some searchHeads =>
        dsimp only
        generalize hstart : fromBlock options
          { p with currentState := .searching ((fromBlock options p).resolve heads) } = fromBlock'
        cases hresult : getLogsRollingForward logs searchHeads fromBlock' options.toBlock
          options.blockChunkSize tick.attempts with
        | none => exact ⟨⟨hinv.delivered_first, hinv.searched⟩, hinv.atLast, hinv.from_le⟩
        | some result =>
          obtain ⟨-, hend, hlogs'⟩ := getLogsRollingForward_spec hlogs (hsteady.to_lt _ hsearch) hresult
          -- what lies before the searched blocks was delivered
          have hbefore : b ≤ fromBlock'.resolve searchHeads ∧
              between logs b (fromBlock'.resolve searchHeads) ⊆ p.delivered := by
            rw [← hstart, fromBlock]
            cases hlast : p.lastSearchedBlock with
            | none =>
              have hb : options.fromBlock.resolve searchHeads = b := hsteady.from_eq hlast _ hsearch
              refine ⟨le_of_eq hb.symm, fun l hl => ?_⟩
              have := (mem_between.1 hl).2
              change b ≤ _ ∧ _ < options.fromBlock.resolve searchHeads at this
              omega
            | some s =>
              refine ⟨(hinv.from_le s hlast).trans (le_succ s), fun l hl => ?_⟩
              obtain ⟨hl, hb, hs⟩ := mem_between.1 hl
              exact hinv.searched s hlast l (mem_logsFrom.2 ⟨hl, hb⟩) (le_of_lt_succ hs)
          have hsplit : logsFrom logs b = between logs b (fromBlock'.resolve searchHeads) ++ result.logs ++
              logsFrom logs (result.endBlockNumber + 1) := by
            rw [hlogs', ← between_append hlogs hbefore.1 (by omega), ← logsFrom_eq_append hlogs (by omega)]
          have hA := prefix_of_subset (Ordered.nodup hF)
            ⟨_, by rw [hsplit, append_assoc]⟩ hinv.delivered_first hbefore.2
          dsimp only
          obtain ⟨h1, h2, h3, h4, h5⟩ := process_spec hF tick.accepts result.logs
            (p := { p with currentState := .searching ((fromBlock options p).resolve heads) }) hinv.atLast hsplit hA
            hinv.delivered_first
          generalize process tick.accepts
            { p with currentState := .searching ((fromBlock options p).resolve heads) }
              result.logs = r at h1 h2 h3 h4 h5 ⊢
          obtain ⟨done, p'⟩ := r
          have hsearched : ∀ s ∈ p'.lastSearchedBlock, ∀ l ∈ logsFrom logs b, l.blockNumber ≤ s → l ∈ p'.delivered :=
            fun s hs l hl hle => h3.subset (hinv.searched s (h4 ▸ hs) l hl hle)
          have hfrom : ∀ s ∈ p'.lastSearchedBlock, b ≤ s := fun s hs => hinv.from_le s (h4 ▸ hs)
          cases done with
          | false => exact ⟨⟨h2, hsearched⟩, h1, hfrom⟩
          | true =>
            dsimp only
            split
            · refine ⟨⟨h2, fun s hs l hl hle => ?_⟩, h1, fun s hs => ?_⟩
              · cases hs
                have hmem : l ∈ between logs b (fromBlock'.resolve searchHeads) ++ result.logs := by
                  rw [hlogs', ← between_append hlogs hbefore.1 (by omega)]
                  obtain ⟨hl, hb⟩ := mem_logsFrom.1 hl
                  exact mem_between.2 ⟨hl, hb, lt_succ_of_le hle⟩
                exact (h5 rfl).subset hmem
              · cases hs
                omega
            · exact ⟨⟨h2, hsearched⟩, h1, hfrom⟩

theorem run_append (ticks : List Tick) (t : Tick) :
    run options logs (ticks ++ [t]) = action options logs (run options logs ticks) t :=
  foldl_concat ..

/-- Logs are delivered exactly once and in order, as long as the filter keeps its first block. -/
theorem run_exact (hlogs : Ordered logs) (ticks : List Tick)
    (hsteady : ∀ before t, before ++ [t] <+: ticks → Steady options b (run options logs before) t) :
    Exact logs b (run options logs ticks) := by
  suffices Inv logs b (run options logs ticks) from this.toExact
  induction ticks using reverseRecOn with
  | nil => exact ⟨⟨List.nil_prefix, fun s hs => by cases hs⟩, rfl, fun s hs => by cases hs⟩
  | append_singleton ticks t ih =>
    rw [run_append]
    have hbefore := ih fun before t' h => hsteady before t' (h.trans (prefix_append _ _))
    exact action_inv hlogs hbefore (hsteady ticks t prefix_rfl)

/-- A consumer that throws at the second log of a block is given it again. -/
theorem run_exact_retry :
    let logs : List EthLog := [⟨0, 0⟩, ⟨0, 1⟩, ⟨1, 0⟩]
    let ticks : List Tick := [⟨some fun _ => 0, some fun _ => 0, [.succeeded false true], fun l => l = ⟨0, 0⟩⟩,
      ⟨some fun _ => 1, some fun _ => 1, [.failed true, .succeeded false true, .succeeded false true], fun _ => true⟩]
    (run ⟨.blockNumber 0, .tag .latest, 1⟩ logs ticks).delivered = logs ∧
      Exact logs 0 (run ⟨.blockNumber 0, .tag .latest, 1⟩ logs ticks) := by
  intro logs ticks
  refine ⟨by decide, run_exact (by unfold Ordered; decide) ticks fun before t h => ⟨fun _ _ _ => rfl, ?_⟩⟩
  have hmem : t ∈ ticks := h.subset (mem_append_right _ mem_cons_self)
  intro heads hheads
  rcases mem_pair.1 hmem with rfl | rfl
  · cases hheads
    decide
  · cases hheads
    decide

/-- A filter from the latest block on moves with it while the consumer throws, and skips the log that was not
accepted. -/
theorem run_skips :
    let logs : List EthLog := [⟨0, 0⟩, ⟨0, 1⟩, ⟨1, 0⟩]
    let ticks : List Tick := [⟨some fun _ => 0, some fun _ => 0, [.succeeded false true], fun l => l = ⟨0, 0⟩⟩,
      ⟨some fun _ => 1, some fun _ => 1, [.succeeded false true], fun _ => true⟩]
    let p := run ⟨.tag .latest, .tag .latest, 1⟩ logs ticks
    p.delivered = [⟨0, 0⟩, ⟨1, 0⟩] ∧ p.lastSearchedBlock = some 1 ∧ ¬ ∃ b, Exact logs b p := by
  intro logs ticks p
  have hdelivered : p.delivered = [⟨0, 0⟩, ⟨1, 0⟩] := by decide
  refine ⟨hdelivered, by decide, fun ⟨b, hexact⟩ => ?_⟩
  have hfirst := hdelivered ▸ hexact.delivered_first
  cases b with
  | zero => exact absurd hfirst (by decide)
  | succ b =>
    have h : (⟨0, 0⟩ : EthLog) ∈ logsFrom logs (b + 1) := hfirst.subset mem_cons_self
    exact absurd (mem_logsFrom.1 h).2 (not_succ_le_zero b)

end Poller

end Lineth.EthLogs
