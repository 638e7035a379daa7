import Mathlib.Algebra.Order.Group.Nat
import Mathlib.Data.List.Nodup
import Mathlib.Data.List.Perm.Subperm
import Mathlib.Data.List.Range

/-!
# Searching a log by bisection

The blocks are cut into chunks. A chunk with logs says in which direction the log lies; one without says nothing, and
then the last chunk that was not searched yet is taken. The chunk of the log stays between the limits until it is
reached. -/

namespace Lineth.EthLogs

structure EthLog where
  blockNumber : Nat
  logIndex : Nat
deriving DecidableEq, Repr

/-- The logs of the blocks from `fromBlock` to `toBlock`, among those that match the address and topics. -/
def getLogs (logs : List EthLog) (fromBlock toBlock : Nat) : List EthLog :=
  logs.filter fun l => fromBlock ≤ l.blockNumber ∧ l.blockNumber ≤ toBlock

inductive SearchDirection where
  | forward
  | backward
deriving DecidableEq, Repr

/-! ### The cursor -/

def addULong (a b : Nat) : Nat := (a + b) % 2 ^ 64

def subULong (a b : Nat) : Nat := (a + 2 ^ 64 - b) % 2 ^ 64

def rangeChunks (start stop chunkSize : Nat) : List (Nat × Nat) :=
  (List.range' start ((stop - start) / chunkSize + 1) chunkSize).map fun chunkStart =>
    (chunkStart, min (subULong (addULong chunkStart chunkSize) 1) stop)

structure Chunk where
  interval : Nat × Nat
  searched : Bool

structure BinarySearchCursor where
  searchChunks : List Chunk
  left : Nat
  /-- One below the first chunk, it is -1. -/
  right : Int
  prevCursor : Option Nat

namespace BinarySearchCursor

def new (start stop chunkSize : Nat) : BinarySearchCursor :=
  let chunks := rangeChunks start stop chunkSize
  { searchChunks := chunks.map fun interval => ⟨interval, false⟩
    left := 0
    right := (chunks.length : Int) - 1
    prevCursor := none }

variable (c : BinarySearchCursor)

/-- The chunk was searched; there is none behind the last. -/
def searched (i : Nat) : Bool := (c.searchChunks[i]?.map Chunk.searched).getD true

def mid : Nat := c.left + (c.right - c.left).toNat / 2

def findRightNextUnsearchedChunkAndUpdateRightLimit : Option Nat × BinarySearchCursor :=
  match (List.range' c.left (c.right + 1 - c.left).toNat).reverse.find? fun i => !c.searched i with
  | some i => (some i, { c with right := i })
  | none => (none, c)

/-- The chunk to search next, with the limits moved. -/
def choose (searchDirection : Option SearchDirection) : Option Nat × BinarySearchCursor :=
  match c.prevCursor with
  | none => (some c.mid, c)
  | some prev =>
    match searchDirection with
    | none => c.findRightNextUnsearchedChunkAndUpdateRightLimit
    | some d =>
      let c := match d with
        | .forward => { c with left := prev + 1 }
        | .backward => { c with right := (prev : Int) - 1 }
      if (c.left : Int) > c.right then (none, c)
      else if c.searched c.mid then c.findRightNextUnsearchedChunkAndUpdateRightLimit
      else (some c.mid, c)

def mark (index : Nat) : BinarySearchCursor :=
  { c with prevCursor := some index
           searchChunks := c.searchChunks.modify index fun chunk => { chunk with searched := true } }

def next (searchDirection : Option SearchDirection) : Option (Nat × Nat) × BinarySearchCursor :=
  if (c.left : Int) > c.right then (none, c)
  else match c.choose searchDirection with
    | (none, c) => (none, c)
    | (some index, c) => (c.searchChunks[index]?.map Chunk.interval, c.mark index)

end BinarySearchCursor

/-! ### The search -/

inductive SearchResult where
  | itemFound (log : EthLog)
  | keepSearching (direction : SearchDirection)
  | noResultsInInterval
deriving DecidableEq, Repr

def SearchResult.direction : SearchResult → Option SearchDirection
  | keepSearching d => some d
  | _ => none

def scan (shallContinueToSearch : EthLog → Option SearchDirection) : Option SearchDirection → List EthLog → SearchResult
  | none, [] => .noResultsInInterval
  | some d, [] => .keepSearching d
  | _, l :: ls =>
    match shallContinueToSearch l with
    | none => .itemFound l
    | some d => scan shallContinueToSearch (some d) ls

section

variable (logs : List EthLog) (shallContinueToSearch : EthLog → Option SearchDirection)

def findLogInInterval (interval : Nat × Nat) : SearchResult :=
  scan shallContinueToSearch none (getLogs logs interval.1 interval.2)

/-- The loop over the chunks: the log that was found, and the intervals that were asked for. -/
def searchLoop : Nat → BinarySearchCursor → Nat × Nat → Option (Option EthLog × List (Nat × Nat))
  | 0, _, _ => none
  | fuel + 1, cursor, interval =>
    match findLogInInterval logs shallContinueToSearch interval with
    | .itemFound log => some (some log, [interval])
    | result =>
      match cursor.next result.direction with
      | (none, _) => some (none, [interval])
      | (some interval', cursor) => do
        let (found, queries) ← searchLoop fuel cursor interval'
        return (found, interval :: queries)

def findLogWithBinarySearch (fuel fromBlock toBlock chunkSize : Nat) : Option (Option EthLog × List (Nat × Nat)) := do
  let (first, cursor) := (BinarySearchCursor.new fromBlock toBlock chunkSize).next (some .forward)
  searchLoop logs shallContinueToSearch fuel cursor (← first)

end

/-! ### The chunks -/

section Chunks

variable {start stop chunkSize : Nat}

theorem length_rangeChunks : (rangeChunks start stop chunkSize).length = (stop - start) / chunkSize + 1 := by
  rw [rangeChunks, List.length_map, List.length_range']

/-- Disjoint intervals in ascending order, for all the blocks from `start` to `stop`. -/
structure Splits (start stop : Nat) (intervals : List (Nat × Nat)) : Prop where
  bounds : ∀ p ∈ intervals, start ≤ p.1 ∧ p.1 ≤ p.2 ∧ p.2 ≤ stop
  ordered : intervals.Pairwise fun p q => p.2 < q.1
  covers : ∀ b, start ≤ b → b ≤ stop → ∃ p ∈ intervals, p.1 ≤ b ∧ b ≤ p.2

theorem splits_rangeChunks (hle : start ≤ stop) (hstop : stop < 2 ^ 63) (hsize : 0 < chunkSize)
    (hsize' : chunkSize < 2 ^ 31) : Splits start stop (rangeChunks start stop chunkSize) := by
  have hend {n : Nat} (hn : n ≤ stop) : subULong (addULong n chunkSize) 1 = n + chunkSize - 1 := by
    rw [subULong, addULong, Nat.mod_eq_of_lt (a := n + chunkSize) (by omega)]
    omega
  have hstart {i : Nat} (hi : i < (stop - start) / chunkSize + 1) : start + chunkSize * i ≤ stop := by
    have := Nat.mul_div_le (stop - start) chunkSize
    have := Nat.mul_le_mul_left chunkSize (Nat.le_of_lt_succ hi)
    omega
  refine ⟨?_, ?_, fun b hb hb' => ?_⟩
  · simp only [rangeChunks, List.mem_map, List.mem_range']
    rintro _ ⟨_, ⟨i, hi, rfl⟩, rfl⟩
    rw [hend (hstart hi)]
    exact ⟨Nat.le_add_right _ _, Nat.le_min.2 ⟨by omega, hstart hi⟩, Nat.min_le_right _ _⟩
  · rw [rangeChunks, List.pairwise_map, List.pairwise_iff_getElem]
    intro i j hi hj hij
    rw [List.length_range'] at hi
    rw [List.getElem_range', List.getElem_range', hend (hstart hi)]
    have := Nat.mul_le_mul_left chunkSize hij
    rw [Nat.mul_succ] at this
    refine lt_of_le_of_lt (Nat.min_le_left _ _) ?_
    omega
  · have hi := Nat.lt_succ_of_le (Nat.div_le_div_right (c := chunkSize) (Nat.sub_le_sub_right hb' start))
    refine ⟨_, List.mem_map_of_mem (List.mem_range'.2 ⟨(b - start) / chunkSize, hi, rfl⟩), ?_⟩
    rw [hend (hstart hi)]
    have := Nat.div_add_mod (b - start) chunkSize
    have := Nat.mod_lt (b - start) hsize
    exact ⟨by omega, Nat.le_min.2 ⟨by omega, hb'⟩⟩

theorem Splits.lt {intervals : List (Nat × Nat)} (h : Splits start stop intervals) {i j : Nat} {p q : Nat × Nat}
    (hi : intervals[i]? = some p) (hj : intervals[j]? = some q) (hij : i < j) : p.2 < q.1 := by
  obtain ⟨hi', rfl⟩ := List.getElem?_eq_some_iff.1 hi
  obtain ⟨hj', rfl⟩ := List.getElem?_eq_some_iff.1 hj
  exact List.pairwise_iff_getElem.1 h.ordered i j hi' hj' hij

end Chunks

/-! ### The cursor keeps the chunk of the log between its limits -/

namespace BinarySearchCursor

variable {c : BinarySearchCursor}

theorem searched_mark {i : Nat} (hi : c.searched i = false) (j : Nat) :
    (c.mark i).searched j = if j = i then true else c.searched j := by
  rw [searched, mark]
  simp only [List.getElem?_modify]
  by_cases h : j = i
  · subst h
    cases hget : c.searchChunks[j]? with
    | none => simp
    | some chunk => simp
  · have hne : i ≠ j := fun h' => h h'.symm
    simp only [if_neg h, if_neg hne, id_map', searched]

theorem intervals_mark (i : Nat) : (c.mark i).searchChunks.map Chunk.interval = c.searchChunks.map Chunk.interval := by
  refine List.ext_getElem? fun j => ?_
  rw [mark]
  simp only [List.getElem?_map, List.getElem?_modify]
  cases c.searchChunks[j]? with
  | none => rfl
  | some chunk => by_cases h : i = j <;> simp [h]

theorem exists_interval {i : Nat} (hi : c.searched i = false) :
    ∃ interval, c.searchChunks[i]?.map Chunk.interval = some interval := by
  rw [searched] at hi
  cases h : c.searchChunks[i]? with
  | none => rw [h] at hi; cases hi
  | some chunk => exact ⟨chunk.interval, rfl⟩

/-- The chunks where the log can be are between the limits, and none of them was searched. -/
def Keeps (c : BinarySearchCursor) (P : Nat → Prop) : Prop :=
  ∀ i, P i → c.left ≤ i ∧ (i : Int) ≤ c.right ∧ c.searched i = false

variable {P : Nat → Prop}

/-- A choice is a chunk that was not searched, and the log stays between the limits; nothing is chosen only if the log
is in no chunk. -/
structure Chosen (c : BinarySearchCursor) (P : Nat → Prop) (r : Option Nat × BinarySearchCursor) : Prop where
  chunks_eq : r.2.searchChunks = c.searchChunks
  none : r.1 = none → ∀ i, ¬ P i
  some : ∀ i, r.1 = some i → c.searched i = false ∧ r.2.Keeps P

theorem chosen_findRight (hkeeps : c.Keeps P) : c.Chosen P c.findRightNextUnsearchedChunkAndUpdateRightLimit := by
  rw [findRightNextUnsearchedChunkAndUpdateRightLimit]
  have hmem (j) : j ∈ (List.range' c.left (c.right + 1 - c.left).toNat).reverse ↔ c.left ≤ j ∧ (j : Int) ≤ c.right := by
    rw [List.mem_reverse, List.mem_range'_1]
    omega
  cases hfind : (List.range' c.left (c.right + 1 - c.left).toNat).reverse.find? fun i => !c.searched i with
  | none =>
    refine ⟨rfl, fun _ i hi => ?_, fun i hi => by cases hi⟩
    obtain ⟨hl, hr, hs⟩ := hkeeps i hi
    have := List.find?_eq_none.1 hfind i ((hmem i).2 ⟨hl, hr⟩)
    simp [hs] at this
  | some i =>
    obtain ⟨hi, as, bs, hsplit, has⟩ := List.find?_eq_some_iff_append.1 hfind
    refine ⟨rfl, fun h => (by cases h), fun i' hi' => ?_⟩
    cases hi'
    refine ⟨by simpa using hi, fun j hj => ?_⟩
    obtain ⟨hl, hr, hsj⟩ := hkeeps j hj
    refine ⟨hl, ?_, hsj⟩
    -- behind `i` everything was searched
    have hpair : (as ++ i :: bs).Pairwise (· > ·) := by
      rw [← hsplit, List.pairwise_reverse]
      exact List.pairwise_lt_range'
    have hjmem : j ∈ as ++ i :: bs := hsplit ▸ (hmem j).2 ⟨hl, hr⟩
    rcases List.mem_append.1 hjmem with hja | hja
    · have := has j hja
      simp [hsj] at this
    · rcases List.mem_cons.1 hja with rfl | hjb
      · exact Int.le_refl _
      · have := List.rel_of_pairwise_cons (List.pairwise_append.1 hpair).2.1 hjb
        change (j : Int) ≤ i
        omega

theorem chosen_mid (hkeeps : c.Keeps P) : c.Chosen P (if (c.left : Int) > c.right then (none, c) else
    if c.searched c.mid then c.findRightNextUnsearchedChunkAndUpdateRightLimit else (some c.mid, c)) := by
  by_cases hcross : (c.left : Int) > c.right
  · rw [if_pos hcross]
    refine ⟨rfl, fun _ i hi => ?_, fun i hi => by cases hi⟩
    obtain ⟨hl, hr, -⟩ := hkeeps i hi
    omega
  · rw [if_neg hcross]
    by_cases hmid : c.searched c.mid = true
    · rw [if_pos hmid]
      exact chosen_findRight hkeeps
    · rw [if_neg hmid]
      refine ⟨rfl, fun h => (by cases h), fun i hi => ?_⟩
      cases hi
      exact ⟨Bool.eq_false_iff.2 hmid, hkeeps⟩

theorem keeps_mark {i : Nat} (hi : c.searched i = false) (hkeeps : c.Keeps P) :
    ∀ j, P j → (c.mark i).left ≤ j ∧ (j : Int) ≤ (c.mark i).right ∧ ((c.mark i).searched j = true → j = i) := by
  intro j hj
  obtain ⟨hl, hr, hs⟩ := hkeeps j hj
  refine ⟨hl, hr, fun h => ?_⟩
  rw [searched_mark hi] at h
  by_contra hne
  rw [if_neg hne, hs] at h
  cases h

inductive Answer (P : Nat → Prop) (prev : Nat) : Option SearchDirection → Prop
  | nothing : ¬ P prev → Answer P prev none
  | forward : (∀ i, P i → prev < i) → Answer P prev (some .forward)
  | backward : (∀ i, P i → i < prev) → Answer P prev (some .backward)

theorem chosen_choose {prev : Nat} (hprev : c.prevCursor = some prev)
    (hinv : ∀ i, P i → c.left ≤ i ∧ (i : Int) ≤ c.right ∧ (c.searched i = true → i = prev)) {d : Option SearchDirection}
    (hanswer : Answer P prev d) : c.Chosen P (c.choose d) := by
  have hnot {i : Nat} (hi : P i) (hne : i ≠ prev) : c.searched i = false :=
    Bool.eq_false_iff.2 fun h => hne ((hinv i hi).2.2 h)
  obtain ⟨chunks, left, right, _⟩ := c
  cases hprev
  cases hanswer with
  | nothing hP =>
    refine chosen_findRight fun i hi => ?_
    obtain ⟨hl, hr, -⟩ := hinv i hi
    exact ⟨hl, hr, hnot hi fun h => hP (h ▸ hi)⟩
  | forward hP =>
    have hkeeps : Keeps ⟨chunks, prev + 1, right, some prev⟩ P := fun i hi =>
      ⟨hP i hi, (hinv i hi).2.1, hnot hi (Nat.ne_of_gt (hP i hi))⟩
    exact ⟨(chosen_mid hkeeps).chunks_eq, (chosen_mid hkeeps).none, (chosen_mid hkeeps).some⟩
  | backward hP =>
    have hkeeps : Keeps ⟨chunks, left, (prev : Int) - 1, some prev⟩ P := fun i hi =>
      ⟨(hinv i hi).1, by have := hP i hi; change (i : Int) ≤ prev - 1; omega, hnot hi (Nat.ne_of_lt (hP i hi))⟩
    exact ⟨(chosen_mid hkeeps).chunks_eq, (chosen_mid hkeeps).none, (chosen_mid hkeeps).some⟩

theorem next_spec {prev : Nat} (hprev : c.prevCursor = some prev)
    (hinv : ∀ i, P i → c.left ≤ i ∧ (i : Int) ≤ c.right ∧ (c.searched i = true → i = prev)) {d : Option SearchDirection}
    (hanswer : Answer P prev d) : ((c.next d).1 = none ∧ ∀ i, ¬ P i) ∨
      ∃ (i : Nat) (c' : BinarySearchCursor) (interval : Nat × Nat), c.next d = (some interval, c'.mark i) ∧
        c.searched i = false ∧ c'.searchChunks = c.searchChunks ∧
        c.searchChunks[i]?.map Chunk.interval = some interval ∧ c'.Keeps P := by
  rw [next]
  by_cases hlimits : (c.left : Int) > c.right
  · rw [if_pos hlimits]
    refine .inl ⟨rfl, fun i hi => ?_⟩
    obtain ⟨hl, hr, -⟩ := hinv i hi
    omega
  rw [if_neg hlimits]
  have hchosen := chosen_choose hprev hinv hanswer
  generalize c.choose d = r at hchosen ⊢
  obtain ⟨index, c'⟩ := r
  cases index with
  | none => exact .inl ⟨rfl, hchosen.none rfl⟩
  | some i =>
    obtain ⟨hs, hkeeps⟩ := hchosen.some i rfl
    obtain ⟨interval, hinterval⟩ := exists_interval hs
    refine .inr ⟨i, c', interval, ?_, hs, hchosen.chunks_eq, hinterval, hkeeps⟩
    change (c'.searchChunks[i]?.map Chunk.interval, c'.mark i) = _
    rw [show c'.searchChunks = c.searchChunks from hchosen.chunks_eq, hinterval]

end BinarySearchCursor

open BinarySearchCursor List

/-! ### The loop -/

/-- What asking for the logs of a chunk tells about the chunks where the log is. -/
def Informs (logs : List EthLog) (pred : EthLog → Option SearchDirection)
    (intervals : List (Nat × Nat)) (target : Option EthLog) (P : Nat → Prop) : Prop :=
  ∀ (k : Nat) (interval : Nat × Nat), intervals[k]? = some interval →
    (P k ∧ ∃ log, target = some log ∧ findLogInInterval logs pred interval = .itemFound log) ∨
      (¬ P k ∧ (∀ log, findLogInInterval logs pred interval ≠ .itemFound log) ∧
        Answer P k (findLogInInterval logs pred interval).direction)

def BinarySearchCursor.remaining (c : BinarySearchCursor) : Nat := c.searchChunks.countP fun chunk => !chunk.searched

theorem countP_modify_searched {chunks : List Chunk} {i : Nat} {chunk : Chunk} (h : chunks[i]? = some chunk)
    (hs : chunk.searched = false) :
    (chunks.modify i fun chunk => { chunk with searched := true }).countP (fun chunk => !chunk.searched) <
      chunks.countP fun chunk => !chunk.searched := by
  induction chunks generalizing i with
  | nil => cases h
  | cons head chunks ih =>
    cases i with
    | zero =>
      cases h
      simp [hs]
    | succ i =>
      have := ih (i := i) h
      rw [modify_succ_cons, countP_cons, countP_cons]
      omega

theorem BinarySearchCursor.remaining_mark {c : BinarySearchCursor} {i : Nat} (hi : c.searched i = false) :
    (c.mark i).remaining < c.remaining := by
  rw [searched] at hi
  cases h : c.searchChunks[i]? with
  | none => rw [h] at hi; cases hi
  | some chunk =>
    rw [h] at hi
    exact countP_modify_searched h hi

open Classical in
theorem searchLoop_spec {logs : List EthLog} {pred : EthLog → Option SearchDirection} {intervals : List (Nat × Nat)}
    {target : Option EthLog} {P : Nat → Prop} (hinforms : Informs logs pred intervals target P) (fuel : Nat)
    {c : BinarySearchCursor} {k : Nat} {interval : Nat × Nat} (hchunks : c.searchChunks.map Chunk.interval = intervals)
    (hk : intervals[k]? = some interval) (hprev : c.prevCursor = some k) (hsearched : c.searched k = true)
    (hinv : ∀ i, P i → c.left ≤ i ∧ (i : Int) ≤ c.right ∧ (c.searched i = true → i = k)) (hfuel : c.remaining < fuel) :
    ∃ is : List Nat, searchLoop logs pred fuel c interval =
        some (if ∃ i, P i then target else none, (k :: is).filterMap (intervals[·]?)) ∧
      is.Nodup ∧ ∀ i ∈ is, c.searched i = false := by
  induction fuel generalizing c k interval with
  | zero => omega
  | succ fuel ih =>
    have hquery : [k].filterMap (intervals[·]?) = [interval] := by rw [filterMap_cons_some hk, filterMap_nil]
    rw [searchLoop]
    rcases hinforms k interval hk with ⟨hP, log, rfl, hfound⟩ | ⟨hP, hnot, hanswer⟩
    · refine ⟨[], ?_, nodup_nil, by simp⟩
      rw [hfound, hquery, if_pos ⟨k, hP⟩]
    · have hloop : searchLoop logs pred (fuel + 1) c interval =
          match c.next (findLogInInterval logs pred interval).direction with
          | (none, _) => some (none, [interval])
          | (some interval', cursor) => do
            let (found, queries) ← searchLoop logs pred fuel cursor interval'
            return (found, interval :: queries) := by
        rw [searchLoop]
        cases hresult : findLogInInterval logs pred interval with
        | itemFound log => exact absurd hresult (hnot log)
        | keepSearching d => rfl
        | noResultsInInterval => rfl
      rw [← searchLoop, hloop]
      rcases next_spec hprev hinv hanswer with ⟨hnone, hP⟩ | ⟨i, c', interval', hnext, hs, hc', hi, hkeeps⟩
      · refine ⟨[], ?_, nodup_nil, by simp⟩
        rw [hquery, if_neg (by simpa using hP)]
        generalize c.next (findLogInInterval logs pred interval).direction = r at hnone ⊢
        obtain ⟨_, _⟩ := r
        cases hnone
        rfl
      · have hs' : c'.searched i = false := by rw [searched, hc']; exact hs
        have hsame (j) : (c'.mark i).searched j = if j = i then true else c.searched j := by
          rw [searched_mark hs', searched, hc', searched]
        have hremaining : (c'.mark i).remaining < c.remaining := by
          have hc : c'.remaining = c.remaining := by rw [remaining, hc', remaining]
          exact hc ▸ remaining_mark hs'
        obtain ⟨is, his, hnodup, hunsearched⟩ := @ih (c'.mark i) i interval'
          (by rw [intervals_mark, hc', hchunks])
          (by rw [← hchunks, getElem?_map]; exact hi) rfl (by rw [hsame, if_pos rfl])
          (keeps_mark hs' hkeeps) (by omega)
        refine ⟨i :: is, ?_, ?_, ?_⟩
        · rw [hnext]
          change (searchLoop logs pred fuel (c'.mark i) interval' >>= fun r => some (r.1, interval :: r.2)) = _
          rw [his, filterMap_cons_some hk]
          rfl
        · refine nodup_cons.2 ⟨fun hmem => ?_, hnodup⟩
          have := hunsearched i hmem
          rw [hsame, if_pos rfl] at this
          cases this
        · intro j hj
          rcases mem_cons.1 hj with rfl | hj
          · exact hs
          · have := hunsearched j hj
            rw [hsame] at this
            split at this
            · cases this
            · exact this

/-! ### The logs of a chunk -/

section Logs

variable {pred : EthLog → Option SearchDirection}

theorem scan_append {e : SearchDirection} {xs : List EthLog} (hxs : ∀ l ∈ xs, pred l = some e)
    (d : Option SearchDirection)
    (ys : List EthLog) : scan pred d (xs ++ ys) = scan pred (if xs = [] then d else some e) ys := by
  induction xs generalizing d with
  | nil => rfl
  | cons x xs ih =>
    rw [forall_mem_cons] at hxs
    rw [cons_append, scan, hxs.1, if_neg (cons_ne_nil x xs)]
    change scan pred (some e) (xs ++ ys) = _
    rw [ih hxs.2, ite_self]

/-- The predicate tells the logs before the target from those after it. -/
structure Monotone (pred : EthLog → Option SearchDirection) (before : List EthLog) (target : Option EthLog)
    (after : List EthLog) : Prop where
  of_before : ∀ l ∈ before, pred l = some .forward
  of_target : ∀ l ∈ target, pred l = none
  of_after : ∀ l ∈ after, pred l = some .backward
  ordered : (before ++ target.toList ++ after).Pairwise fun l l' => l.blockNumber ≤ l'.blockNumber

variable {before after : List EthLog} {target : Option EthLog} {start stop chunkSize : Nat}
  {intervals : List (Nat × Nat)}

def InChunk (target : Option EthLog) (intervals : List (Nat × Nat)) (i : Nat) : Prop :=
  ∃ log interval, target = some log ∧ intervals[i]? = some interval ∧ interval.1 ≤ log.blockNumber ∧
    log.blockNumber ≤ interval.2

theorem informs (hmono : Monotone pred before target after) (hsplits : Splits start stop intervals) :
    Informs (before ++ target.toList ++ after) pred intervals target (InChunk target intervals) := by
  intro k interval hk
  have hget : getLogs (before ++ target.toList ++ after) interval.1 interval.2 =
      getLogs before interval.1 interval.2 ++ getLogs target.toList interval.1 interval.2 ++
        getLogs after interval.1 interval.2 := by
    rw [getLogs, filter_append, filter_append, getLogs, getLogs, getLogs]
  have hbefore : ∀ l ∈ getLogs before interval.1 interval.2, pred l = some .forward :=
    fun l hl => hmono.of_before l (mem_filter.1 hl).1
  have hafter : ∀ l ∈ getLogs after interval.1 interval.2, pred l = some .backward :=
    fun l hl => hmono.of_after l (mem_filter.1 hl).1
  by_cases hP : InChunk target intervals k
  · obtain ⟨log, interval', rfl, hk', hlo, hhi⟩ := hP
    cases hk.symm.trans hk'
    have htarget : getLogs (some log).toList interval.1 interval.2 = [log] := by
      simp [getLogs, hlo, hhi]
    refine .inl ⟨⟨log, interval, rfl, hk, hlo, hhi⟩, log, rfl, ?_⟩
    rw [findLogInInterval, hget, htarget, append_assoc, scan_append hbefore, singleton_append, scan,
      hmono.of_target log rfl]
  · have htarget : getLogs target.toList interval.1 interval.2 = [] := by
      cases target with
      | none => rfl
      | some log =>
        refine filter_eq_nil_iff.2 fun l hl hin => hP ?_
        cases mem_singleton.1 hl
        obtain ⟨hlo, hhi⟩ := of_decide_eq_true hin
        exact ⟨log, interval, rfl, hk, hlo, hhi⟩
    have hresult : findLogInInterval (before ++ target.toList ++ after) pred interval =
        scan pred (if getLogs after interval.1 interval.2 = [] then
          (if getLogs before interval.1 interval.2 = [] then none else some .forward) else some .backward) [] := by
      rw [findLogInInterval, hget, htarget, append_nil, scan_append hbefore, ← append_nil (getLogs after _ _),
        scan_append hafter, append_nil]
    refine .inr ⟨hP, ?_, ?_⟩
    · intro log hlog
      rw [hresult] at hlog
      split at hlog
      · split at hlog <;> cases hlog
      · cases hlog
    · rw [hresult]
      by_cases ha : getLogs after interval.1 interval.2 = []
      · rw [if_pos ha]
        by_cases hb : getLogs before interval.1 interval.2 = []
        · rw [if_pos hb]
          exact .nothing hP
        · rw [if_neg hb]
          refine .forward fun i hi => ?_
          have hne : i ≠ k := fun h => hP (h ▸ hi)
          obtain ⟨log, interval', rfl, hi', -, hhi⟩ := hi
          obtain ⟨l, hl⟩ := exists_mem_of_ne_nil _ hb
          obtain ⟨hl, hin⟩ := mem_filter.1 hl
          obtain ⟨hlo, -⟩ := of_decide_eq_true hin
          have hord : l.blockNumber ≤ log.blockNumber := by
            have := hmono.ordered
            rw [append_assoc] at this
            exact (pairwise_append.1 this).2.2 l hl log (by simp)
          by_contra hik
          have := hsplits.lt hi' hk (by omega)
          omega
      · rw [if_neg ha]
        refine .backward fun i hi => ?_
        have hne : i ≠ k := fun h => hP (h ▸ hi)
        obtain ⟨log, interval', rfl, hi', hlo, -⟩ := hi
        obtain ⟨l, hl⟩ := exists_mem_of_ne_nil _ ha
        obtain ⟨hl, hin⟩ := mem_filter.1 hl
        obtain ⟨-, hhi⟩ := of_decide_eq_true hin
        have hord : log.blockNumber ≤ l.blockNumber := (pairwise_append.1 hmono.ordered).2.2 log (by simp) l hl
        by_contra hik
        have := hsplits.lt hk hi' (by omega)
        omega

theorem exists_inChunk_iff (hsplits : Splits start stop intervals) {log : EthLog} :
    (∃ i, InChunk (some log) intervals i) ↔ start ≤ log.blockNumber ∧ log.blockNumber ≤ stop := by
  constructor
  · rintro ⟨i, _, interval, hlog, hi, hlo, hhi⟩
    cases hlog
    obtain ⟨hstart, -, hstop⟩ := hsplits.bounds interval (mem_of_getElem? hi)
    exact ⟨hstart.trans hlo, hhi.trans hstop⟩
  · rintro ⟨hlo, hhi⟩
    obtain ⟨interval, hmem, h⟩ := hsplits.covers _ hlo hhi
    obtain ⟨i, hi⟩ := getElem?_of_mem hmem
    exact ⟨i, log, interval, rfl, hi, h⟩

theorem Splits.inj (hsplits : Splits start stop intervals) {i j : Nat} {p : Nat × Nat} (hi : intervals[i]? = some p)
    (hj : intervals[j]? = some p) : i = j := by
  have hwf := (hsplits.bounds p (mem_of_getElem? hi)).2.1
  rcases Nat.lt_trichotomy i j with h | h | h
  · have := hsplits.lt hi hj h
    omega
  · exact h
  · have := hsplits.lt hj hi h
    omega

theorem getElem?_new {i : Nat} : (new start stop chunkSize).searchChunks[i]? =
    (rangeChunks start stop chunkSize)[i]?.map fun interval => ⟨interval, false⟩ := by
  rw [new, getElem?_map]

theorem searched_new {i : Nat} (hi : i < (rangeChunks start stop chunkSize).length) :
    (new start stop chunkSize).searched i = false := by
  rw [searched, getElem?_new, getElem?_eq_getElem hi]
  rfl

theorem next_new (start stop chunkSize : Nat) : ∃ (mid : Nat) (interval : Nat × Nat),
    (rangeChunks start stop chunkSize)[mid]? = some interval ∧
    (new start stop chunkSize).next (some .forward) =
      (some interval, (new start stop chunkSize).mark mid) := by
  have hpos : 0 < (rangeChunks start stop chunkSize).length := by rw [length_rangeChunks]; exact Nat.succ_pos _
  have hmid : (new start stop chunkSize).mid < (rangeChunks start stop chunkSize).length := by
    rw [mid, new]
    dsimp only
    omega
  refine ⟨_, _, getElem?_eq_getElem hmid, ?_⟩
  have hlimits : ¬ ((new start stop chunkSize).left : Int) >
      (new start stop chunkSize).right := by
    rw [new]
    dsimp only
    omega
  rw [BinarySearchCursor.next, if_neg hlimits]
  change ((new start stop chunkSize).searchChunks[_]?.map Chunk.interval, _) = _
  rw [getElem?_new, getElem?_eq_getElem hmid]
  rfl

/-- The search finds the target if it is in the range, and asks for every chunk at most once. -/
theorem findLog_correct (hmono : Monotone pred before target after) (hle : start ≤ stop) (hstop : stop < 2 ^ 63)
    (hsize : 0 < chunkSize) (hsize' : chunkSize < 2 ^ 31) {fuel : Nat}
    (hfuel : (rangeChunks start stop chunkSize).length ≤ fuel) :
    ∃ queries, findLogWithBinarySearch (before ++ target.toList ++ after) pred fuel start stop chunkSize =
        some (target.filter fun l => start ≤ l.blockNumber ∧ l.blockNumber ≤ stop, queries) ∧
      queries.Nodup ∧ queries ⊆ rangeChunks start stop chunkSize ∧
      queries.length ≤ (rangeChunks start stop chunkSize).length := by
  classical
  have hsplits := splits_rangeChunks hle hstop hsize hsize'
  obtain ⟨mid, interval, hmid, hnext⟩ := next_new start stop chunkSize
  obtain ⟨hmid', -⟩ := List.getElem?_eq_some_iff.1 hmid
  have hunsearched := searched_new hmid'
  have hkeeps : (new start stop chunkSize).Keeps (InChunk target (rangeChunks start stop chunkSize)) := by
    rintro i ⟨log, interval, -, hi, -⟩
    obtain ⟨hi, -⟩ := List.getElem?_eq_some_iff.1 hi
    refine ⟨Nat.zero_le i, ?_, searched_new hi⟩
    change (i : Int) ≤ ((rangeChunks start stop chunkSize).length : Int) - 1
    omega
  have hremaining : ((new start stop chunkSize).mark mid).remaining < fuel := by
    have hlt := remaining_mark hunsearched
    have hle : (new start stop chunkSize).remaining ≤ (rangeChunks start stop chunkSize).length := by
      refine countP_le_length.trans ?_
      rw [new, length_map]
    omega
  have hmarked : ((new start stop chunkSize).mark mid).searched mid = true := by
    rw [searched_mark hunsearched, if_pos rfl]
  have hintervals : ((new start stop chunkSize).mark mid).searchChunks.map Chunk.interval =
      rangeChunks start stop chunkSize := by
    rw [intervals_mark, new, map_map]
    exact map_id _
  obtain ⟨is, hloop, hnodup, his⟩ := searchLoop_spec (informs hmono hsplits) fuel hintervals hmid rfl hmarked
    (keeps_mark hunsearched hkeeps) hremaining
  have hqueries : ((mid :: is).filterMap ((rangeChunks start stop chunkSize)[·]?)).Nodup := by
    refine List.Nodup.filterMap (fun i j interval hi hj => hsplits.inj hi hj) ?_
    refine nodup_cons.2 ⟨fun hmem => ?_, hnodup⟩
    rw [his mid hmem] at hmarked
    cases hmarked
  have hsub : (mid :: is).filterMap ((rangeChunks start stop chunkSize)[·]?) ⊆ rangeChunks start stop chunkSize := by
    intro interval hinterval
    obtain ⟨i, -, hi⟩ := mem_filterMap.1 hinterval
    exact mem_of_getElem? hi
  refine ⟨_, ?_, hqueries, hsub, (hqueries.subperm hsub).length_le⟩
  rw [findLogWithBinarySearch, hnext]
  change searchLoop _ _ _ _ _ = _
  rw [hloop]
  refine congrArg some (Prod.ext ?_ rfl)
  cases target with
  | none => exact ite_self _
  | some log =>
    change (if _ then _ else _) = _
    rw [Option.filter_some]
    refine if_congr ?_ rfl rfl
    rw [exists_inChunk_iff hsplits, decide_eq_true_iff]

/-- Three blocks with a log in the first two; the second is looked for. -/
theorem findLog_correct_middle :
    Monotone (fun l => if l.blockNumber = 1 then none else if l.blockNumber < 1 then some .forward else some .backward)
        [⟨0, 0⟩] (some ⟨1, 0⟩) [] ∧ ∃ queries, findLogWithBinarySearch [⟨0, 0⟩, ⟨1, 0⟩]
          (fun l => if l.blockNumber = 1 then none
            else if l.blockNumber < 1 then some .forward else some .backward) 3 0 2 1 =
        some (some ⟨1, 0⟩, queries) ∧ queries.Nodup ∧ queries.length ≤ 3 := by
  have hmono : Monotone (fun l => if l.blockNumber = 1 then none else if l.blockNumber < 1 then some .forward
    else some .backward)
      [⟨0, 0⟩] (some ⟨1, 0⟩) [] := ⟨by decide, by decide, by decide, by decide⟩
  obtain ⟨queries, hfind, hnodup, -, hlength⟩ :=
    findLog_correct hmono (show 0 ≤ 2 by decide) (by decide) (show 0 < 1 by decide) (by decide)
      (show (rangeChunks 0 2 1).length ≤ 3 by decide)
  exact ⟨hmono, queries, hfind, hnodup, hlength⟩

end Logs

end Lineth.EthLogs
