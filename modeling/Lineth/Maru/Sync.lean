import Mathlib.Data.List.Basic
import Mathlib.Algebra.Order.Group.Nat

/-!
# Syncing the beacon chain

The service downloads the blocks up to a target with a pipeline: a sequence of ranges that follows the target while it
moves, the download of each range, and the import of the blocks. Callers, the pipeline and the handler of its
completion share the target, the reference to the pipeline and the head of the chain. -/

namespace Lineth.Maru.Sync

open List Nat

/-! ### The pipeline -/

structure SyncTargetRange where
  startBlock : Nat
  endBlock : Nat
deriving DecidableEq, Repr

def SyncTargetRange.numbers (r : SyncTargetRange) : List Nat := range' r.startBlock (r.endBlock + 1 - r.startBlock)

def clampedAdd (a b : Nat) : Nat := min (a + b) (2 ^ 64 - 1)

structure Pipeline where
  startBlock : Nat
  currentStart : Nat
  latestEndBlock : Nat
  /-- Whether the sequence has yielded a range. -/
  yielded : Bool
  /-- Whether the sequence has ended. -/
  ended : Bool
  /-- The ranges that were yielded and are not being imported. -/
  queue : List SyncTargetRange
  /-- The numbers of the blocks that were downloaded for the range that is being imported. -/
  importing : List Nat
deriving DecidableEq, Repr

namespace Pipeline

def create (startBlock : Nat) : Pipeline := ⟨startBlock, startBlock, startBlock, false, false, [], []⟩

def yield (p : Pipeline) (rangeSize syncTarget : Nat) : Pipeline :=
  let nextEnd := clampedAdd p.currentStart rangeSize - 1
  let currentEnd := min nextEnd syncTarget
  { p with
    latestEndBlock := currentEnd
    currentStart := (currentEnd + 1) % 2 ^ 64
    yielded := true
    queue := p.queue ++ [⟨p.currentStart, currentEnd⟩] }

def target (p : Pipeline) (currentSyncTarget : Nat) : Nat :=
  if p.startBlock > currentSyncTarget then currentSyncTarget else p.latestEndBlock

def Done (p : Pipeline) : Prop := p.ended = true ∧ p.queue = [] ∧ p.importing = []

end Pipeline

/-! ### The service -/

inductive ValidationResultCode where
  | accept
  | reject
  | ignore
deriving DecidableEq, Repr

/-- What threads are about to do. Each task is up to the next access to what the threads share. -/
inductive Task where
  | pipeline (id : Nat) (p : Pipeline)
  /-- `setSyncTarget`, after the target has been set. -/
  | checkPipeline
  /-- `startSync`, before it has the lock, and with the lock. -/
  | startSync
  | register (startBlock : Nat)
  /-- The handler of a pipeline that failed. -/
  | failed (id : Nat)
  /-- The handler of a pipeline that completed or was cancelled. -/
  | completed (id : Nat) (p : Pipeline)
  | clear (id completedSyncTarget : Nat)
  | compare (completedSyncTarget : Nat)
  | readTarget
  | setTarget (syncTarget : Nat)
  | notify (completedSyncTarget : Nat)
  /-- `stop`, after the service has been marked as stopped. -/
  | abort
deriving DecidableEq, Repr

structure State where
  started : Bool
  syncTarget : Nat
  /-- The target that was set last by a caller. -/
  requested : Nat
  /-- The reference to the pipeline, the pipelines being numbered. -/
  pipeline : Option Nat
  nextId : Nat
  /-- Whether a thread is in `startSync`. -/
  locked : Bool
  aborted : List Nat
  /-- The number of the latest beacon state. -/
  head : Nat
  /-- The targets that subscribers were notified of, each with the head at that moment. -/
  notified : List (Nat × Nat)
deriving DecidableEq, Repr

structure Config where
  state : State
  tasks : List Task
deriving DecidableEq, Repr

/-- What a step does that depends on peers, on verdicts or on when it happens. -/
inductive Label where
  | quiet
  | download (r : SyncTargetRange) (blocks : List Nat)
  | verdict (number : Nat) (code : ValidationResultCode)
  | complete (p : Pipeline)
  | cancel
  | refuse
  | set
  | other (number : Nat)
deriving DecidableEq, Repr

variable (rangeSize : Nat)

inductive TaskStep : State → Task → Label → State → List Task → Prop
  | yield {s : State} {id : Nat} {p : Pipeline} (hended : p.ended = false) (htarget : p.currentStart ≤ s.syncTarget) :
      TaskStep s (.pipeline id p) .quiet s [.pipeline id (p.yield rangeSize s.syncTarget)]
  | ended {s : State} {id : Nat} {p : Pipeline} (hended : p.ended = false) (htarget : s.syncTarget < p.currentStart) :
      TaskStep s (.pipeline id p) .quiet s [.pipeline id { p with ended := true }]
  /-- Peers may answer with any blocks, in the number that was requested. -/
  | download {s : State} {id : Nat} {p : Pipeline} {r : SyncTargetRange}
    {queue : List SyncTargetRange} {blocks : List Nat}
      (himporting : p.importing = []) (hqueue : p.queue = r :: queue) (hlength : blocks.length = r.numbers.length) :
      TaskStep s (.pipeline id p) (.download r blocks) s [.pipeline id { p with queue := queue, importing := blocks }]
  | accept {s : State} {id : Nat} {p : Pipeline} {number : Nat} {blocks : List Nat}
    (himporting : p.importing = number :: blocks) :
      TaskStep s (.pipeline id p) (.verdict number .accept) { s with head := number }
        [.pipeline id { p with importing := blocks }]
  /-- The other blocks of the range are dropped. -/
  | drop {s : State} {id : Nat} {p : Pipeline} {number : Nat} {blocks : List Nat} {code : ValidationResultCode}
      (himporting : p.importing = number :: blocks) (hcode : code ≠ .accept) :
      TaskStep s (.pipeline id p) (.verdict number code) s [.pipeline id { p with importing := [] }]
  /-- A download runs out of retries, or an import throws. -/
  | fail {s : State} {id : Nat} {p : Pipeline} : TaskStep s (.pipeline id p) .quiet s [.failed id]
  | finish {s : State} {id : Nat} {p : Pipeline} (hdone : p.Done) : TaskStep s
    (.pipeline id p) .quiet s [.completed id p]
  | cancel {s : State} {id : Nat} {p : Pipeline} (haborted : id ∈ s.aborted) :
      TaskStep s (.pipeline id p) .cancel s [.completed id p]
  | checkPipeline_none {s : State} (hpipeline : s.pipeline = none) : TaskStep s .checkPipeline .quiet s [.startSync]
  | checkPipeline_some {s : State} (hpipeline : s.pipeline ≠ none) : TaskStep s .checkPipeline .quiet s []
  | startSync {s : State} (hlocked : s.locked = false) :
      TaskStep s .startSync .quiet { s with locked := true } [.register ((s.head + 1) % 2 ^ 64)]
  | register_none {s : State} {startBlock : Nat} (hpipeline : s.pipeline = none) :
      TaskStep s (.register startBlock) .quiet
        { s with locked := false, pipeline := some s.nextId, nextId := s.nextId + 1 }
        [.pipeline s.nextId (.create startBlock)]
  | register_some {s : State} {startBlock : Nat} (hpipeline : s.pipeline ≠ none) :
      TaskStep s (.register startBlock) .quiet { s with locked := false } []
  | restart {s : State} {id : Nat} (hpipeline : s.pipeline = some id) :
      TaskStep s (.failed id) .quiet { s with pipeline := none } [.startSync]
  | restart_other {s : State} {id : Nat} (hpipeline : s.pipeline ≠ some id) : TaskStep s (.failed id) .quiet s []
  | completed {s : State} {id : Nat} {p : Pipeline} :
      TaskStep s (.completed id p) (.complete p) s [.clear id (p.target s.syncTarget)]
  | clear {s : State} {id c : Nat} :
      TaskStep s (.clear id c) .quiet
        { s with pipeline := if s.pipeline = some id then none else s.pipeline } [.compare c]
  | compare_lt {s : State} {c : Nat} (hlt : c < s.syncTarget) : TaskStep s (.compare c) .quiet s [.readTarget]
  | compare_ge {s : State} {c : Nat} (hge : s.syncTarget ≤ c) : TaskStep s (.compare c) .quiet s [.notify c]
  | readTarget {s : State} : TaskStep s .readTarget .quiet s [.setTarget s.syncTarget]
  | setTarget {s : State} {t : Nat} (hstarted : s.started = true) :
      TaskStep s (.setTarget t) .quiet { s with syncTarget := t } [.checkPipeline]
  | setTarget_stopped {s : State} {t : Nat} (hstarted : s.started = false) : TaskStep s (.setTarget t) .refuse s []
  | notify {s : State} {c : Nat} : TaskStep s (.notify c) .quiet { s with notified := (c, s.head) :: s.notified } []
  | abort_some {s : State} {id : Nat} (hpipeline : s.pipeline = some id) :
      TaskStep s .abort .quiet { s with aborted := id :: s.aborted } []
  | abort_none {s : State} (hpipeline : s.pipeline = none) : TaskStep s .abort .quiet s []

inductive Step : Config → Label → Config → Prop
  | task {s s' : State} {l₁ l₂ ts : List Task} {t : Task} {label : Label} (h : TaskStep rangeSize s t label s' ts) :
      Step ⟨s, l₁ ++ t :: l₂⟩ label ⟨s', l₁ ++ (ts ++ l₂)⟩
  | setSyncTarget {s : State} {l : List Task} (t : Nat) (ht : t < 2 ^ 64) (hstarted : s.started = true) :
      Step ⟨s, l⟩ .set ⟨{ s with syncTarget := t, requested := t }, .checkPipeline :: l⟩
  | start {s : State} {l : List Task} : Step ⟨s, l⟩ .quiet ⟨{ s with started := true }, l⟩
  | stop {s : State} {l : List Task} (hstarted : s.started = true) :
      Step ⟨s, l⟩ .quiet ⟨{ s with started := false }, .abort :: l⟩
  /-- The follower or the consensus engine imports a block. -/
  | otherImport {s : State} {l : List Task} (number : Nat) : Step ⟨s, l⟩ (.other number) ⟨{ s with head := number }, l⟩

def init (head : Nat) : Config := ⟨⟨false, 0, 0, none, 0, false, [], head, []⟩, []⟩

/-! ### One pipeline at a time -/

/-- The pipeline that the reference must hold while the task is not done. -/
def Task.owner : Task → Option Nat
  | pipeline id _ | failed id | completed id _ | clear id _ => some id
  | _ => none

def Task.isPipeline : Task → Bool
  | pipeline .. => true
  | _ => false

/-- The reference holds the pipeline that runs or whose handler has not cleared it. -/
def Config.Owned (c : Config) : Prop := c.tasks.filterMap Task.owner = c.state.pipeline.toList

variable {rangeSize} {label : Label} {s s' : State} {t : Task}

theorem TaskStep.owner_cases {ts : List Task} (h : TaskStep rangeSize s t label s' ts) :
    (ts.filterMap Task.owner = t.owner.toList ∧ s'.pipeline = s.pipeline) ∨
      (t.owner = none ∧ s.pipeline = none ∧ ts.filterMap Task.owner = s'.pipeline.toList) ∨
      ∃ id, t.owner = some id ∧ ts.filterMap Task.owner = [] ∧
        s'.pipeline = if s.pipeline = some id then none else s.pipeline := by
  cases h with
  | register_none hpipeline => exact .inr (.inl ⟨rfl, hpipeline, rfl⟩)
  | restart hpipeline => exact .inr (.inr ⟨_, rfl, rfl, (if_pos hpipeline).symm⟩)
  | restart_other hpipeline => exact .inr (.inr ⟨_, rfl, rfl, (if_neg hpipeline).symm⟩)
  | clear => exact .inr (.inr ⟨_, rfl, rfl, rfl⟩)
  | _ => exact .inl ⟨rfl, rfl⟩

theorem TaskStep.owned {l₁ l₂ ts : List Task} (h : TaskStep rangeSize s t label s' ts)
    (howned : Config.Owned ⟨s, l₁ ++ t :: l₂⟩) : Config.Owned ⟨s', l₁ ++ (ts ++ l₂)⟩ := by
  have hcons : (t :: l₂).filterMap Task.owner = t.owner.toList ++ l₂.filterMap Task.owner := by
    cases ht : t.owner <;> simp [ht]
  rw [Config.Owned, filterMap_append, hcons] at howned
  rw [Config.Owned, filterMap_append, filterMap_append]
  dsimp only at howned ⊢
  rcases h.owner_cases with ⟨hts, hpipeline⟩ | ⟨ht, hnone, hts⟩ | ⟨id, ht, hts, hpipeline⟩
  · rw [hts, hpipeline, howned]
  · rw [ht, hnone] at howned
    obtain ⟨h₁, h₂⟩ := append_eq_nil_iff.1 howned
    rw [h₁, hts, show l₂.filterMap Task.owner = [] from h₂, append_nil, nil_append]
  · -- the task is the only one that owns a pipeline, and the reference holds it
    have hid : id ∈ s.pipeline.toList := by
      rw [← howned, ht]
      simp
    have hsome : s.pipeline = some id := Option.mem_toList.1 hid
    rw [ht, hsome] at howned
    obtain ⟨h₁, h₂⟩ | ⟨-, h₂⟩ := append_eq_singleton_iff.1 howned
    · have h₂ : l₂.filterMap Task.owner = [] := (List.cons.inj h₂).2
      rw [h₁, hts, h₂, hpipeline, if_pos hsome]
      rfl
    · cases h₂

variable {c c' : Config}

theorem Step.owned (h : Step rangeSize c label c') (howned : c.Owned) : c'.Owned := by
  cases h with
  | task h => exact h.owned howned
  | _ => exact howned

/-- At most one pipeline runs at a time. -/
theorem Config.Owned.pipelines {c : Config} (h : c.Owned) : c.tasks.countP Task.isPipeline ≤ 1 := by
  have hle : ∀ l : List Task, l.countP Task.isPipeline ≤ (l.filterMap Task.owner).length := by
    intro l
    induction l with
    | nil => rfl
    | cons t l ih =>
      cases t <;> simp only [countP_cons, filterMap_cons, Task.isPipeline, Task.owner, length_cons] <;> simp <;> omega
  refine (hle _).trans ?_
  rw [h]
  cases c.state.pipeline <;> simp

/-! ### Caught up -/

/-- Peers answer with the blocks of the range, and each is accepted or throws; no import moves the head back; a
pipeline without a range completes below its start; no pipeline is cancelled and no restart refused; and no target is
set while a handler writes back the one it has read. -/
def Config.Permits (c : Config) : Label → Prop
  | .quiet => True
  | .download r blocks => blocks = r.numbers
  | .verdict number code => code = .accept ∧ c.state.head < number
  | .complete p => p.yielded = true ∨ c.state.syncTarget < p.startBlock
  | .cancel | .refuse => False
  | .set => ∀ t, Task.setTarget t ∉ c.tasks
  | .other number => c.state.head ≤ number

namespace Pipeline

def pending (p : Pipeline) : List Nat := p.importing ++ p.queue.flatMap SyncTargetRange.numbers

/-- The ranges that were yielded are imported up to the latest end, or it is still to be. -/
structure Inv (head : Nat) (p : Pipeline) : Prop where
  start : p.startBlock ≤ head + 1
  width : p.currentStart < 2 ^ 64
  fresh : p.yielded = false → p.currentStart = p.startBlock
  next : p.yielded = true → p.latestEndBlock < 2 ^ 64 ∧ p.currentStart = (p.latestEndBlock + 1) % 2 ^ 64
  covered : p.yielded = true → p.latestEndBlock ≤ head ∨ p.latestEndBlock ∈ p.pending

variable {head : Nat} {p : Pipeline}

theorem create_inv {startBlock : Nat} (hwidth : startBlock < 2 ^ 64) (h : startBlock ≤ head + 1) :
    (create startBlock).Inv head :=
  ⟨h, hwidth, fun _ => rfl, fun h => Bool.noConfusion h, fun h => Bool.noConfusion h⟩

section

variable (h : p.Inv head)

include h

theorem Inv.mono {head' : Nat} (hle : head ≤ head') : p.Inv head' :=
  ⟨h.start.trans (by omega), h.width, h.fresh, h.next, fun hy => (h.covered hy).imp_left (·.trans hle)⟩

/-- A range is empty only when there is no number left above what was yielded before. -/
theorem Inv.yield {rangeSize t : Nat} (ht : p.currentStart ≤ t) : (p.yield rangeSize t).Inv head := by
  have hwidth := h.width
  obtain ⟨e, he⟩ : ∃ e, e = min (clampedAdd p.currentStart rangeSize - 1) t := ⟨_, rfl⟩
  have hclamped : clampedAdd p.currentStart rangeSize = min (p.currentStart + rangeSize) (2 ^ 64 - 1) := rfl
  have hpending : (p.yield rangeSize t).pending = p.pending ++ SyncTargetRange.numbers ⟨p.currentStart, e⟩ := by
    simp [pending, Pipeline.yield, he]
  have hlatest : (p.yield rangeSize t).latestEndBlock = e := he.symm
  refine ⟨h.start, mod_lt _ (by decide), fun hy => Bool.noConfusion hy, fun _ => ?_, fun _ => ?_⟩
  · rw [hlatest]
    refine ⟨by omega, ?_⟩
    rw [he]
    rfl
  · rw [hpending, hlatest]
    by_cases hempty : p.currentStart ≤ e
    · refine .inr (mem_append_right _ ?_)
      rw [SyncTargetRange.numbers, mem_range'_1]
      dsimp only
      omega
    · have hlast : e + 1 = p.currentStart := by omega
      cases hy : p.yielded with
      | false =>
        have := h.fresh hy
        have := h.start
        exact .inl (by omega)
      | true =>
        obtain ⟨hlt, hnext⟩ := h.next hy
        have hsame : p.latestEndBlock = e := by omega
        exact hsame ▸ (h.covered hy).imp_right (mem_append_left _)

theorem Inv.download {r : SyncTargetRange} {queue : List SyncTargetRange} (himporting : p.importing = [])
    (hqueue : p.queue = r :: queue) : Inv head { p with queue := queue, importing := r.numbers } := by
  refine ⟨h.start, h.width, h.fresh, h.next, fun hy => (h.covered hy).imp_right fun hmem => ?_⟩
  rw [pending, himporting, hqueue] at hmem
  exact hmem

theorem Inv.accept {number : Nat} {blocks : List Nat} (himporting : p.importing = number :: blocks)
    (hlt : head < number) : Inv number { p with importing := blocks } := by
  refine ⟨h.start.trans (by omega), h.width, h.fresh, h.next, fun hy => ?_⟩
  rcases h.covered hy with hle | hmem
  · exact .inl (hle.trans hlt.le)
  · rw [pending, himporting, cons_append, mem_cons] at hmem
    exact hmem.imp_left le_of_eq

theorem Inv.latestEnd_le (hdone : p.Done) (hy : p.yielded = true) : p.latestEndBlock ≤ head := by
  obtain ⟨-, hqueue, himporting⟩ := hdone
  refine (h.covered hy).resolve_right ?_
  rw [pending, hqueue, himporting]
  exact not_mem_nil

end

end Pipeline

def Task.Inv (s : State) : Task → Prop
  | pipeline _ p => p.Inv s.head
  | register startBlock => startBlock < 2 ^ 64 ∧ startBlock ≤ s.head + 1
  | completed _ p => p.startBlock ≤ s.head + 1 ∧ (p.yielded = true → p.latestEndBlock ≤ s.head)
  | clear _ c | compare c | notify c => c ≤ s.head
  | setTarget t => t = s.syncTarget
  | _ => True

theorem Task.Inv.mono (h : t.Inv s) (hhead : s.head ≤ s'.head)
    (htarget : s'.syncTarget = s.syncTarget ∨ ∀ x, t ≠ .setTarget x) : t.Inv s' := by
  cases t with
  | pipeline id p => exact Pipeline.Inv.mono h hhead
  | register startBlock => exact ⟨h.1, h.2.trans (by omega)⟩
  | completed id p => exact ⟨h.1.trans (by omega), fun hy => (h.2 hy).trans hhead⟩
  | clear id c => exact le_trans h hhead
  | compare c => exact le_trans h hhead
  | notify c => exact le_trans h hhead
  | setTarget x => exact Eq.trans h (htarget.resolve_right fun hne => hne x rfl).symm
  | _ => trivial

/-- What one task does to the state when its step is permitted. -/
structure State.Follows (s s' : State) : Prop where
  head : s.head ≤ s'.head
  target : s'.syncTarget = s.syncTarget
  requested : s'.requested = s.requested
  notified : (∀ n ∈ s.notified, n.1 ≤ n.2) → ∀ n ∈ s'.notified, n.1 ≤ n.2

theorem State.Follows.rfl (s : State) : s.Follows s := ⟨le_rfl, Eq.refl _, Eq.refl _, id⟩

theorem TaskStep.inv {l ts : List Task} (h : TaskStep rangeSize s t label s' ts)
    (hpermits : Config.Permits ⟨s, l⟩ label) (ht : t.Inv s) : (∀ t' ∈ ts, t'.Inv s') ∧ s.Follows s' := by
  cases h with
  | yield hended htarget => exact ⟨forall_mem_singleton.2 (Pipeline.Inv.yield ht htarget), .rfl s⟩
  | ended hended htarget => exact ⟨forall_mem_singleton.2 ⟨ht.start, ht.width, ht.fresh, ht.next, ht.covered⟩, .rfl s⟩
  | download himporting hqueue hlength =>
    cases hpermits
    exact ⟨forall_mem_singleton.2 (Pipeline.Inv.download ht himporting hqueue), .rfl s⟩
  | accept himporting =>
    exact ⟨forall_mem_singleton.2 (Pipeline.Inv.accept ht himporting hpermits.2), hpermits.2.le, rfl, rfl, id⟩
  | drop himporting hcode => exact absurd hpermits.1 hcode
  | fail => exact ⟨forall_mem_singleton.2 trivial, .rfl s⟩
  | finish hdone => exact ⟨forall_mem_singleton.2 ⟨ht.start, Pipeline.Inv.latestEnd_le ht hdone⟩, .rfl s⟩
  | cancel haborted => exact hpermits.elim
  | checkPipeline_none hpipeline => exact ⟨forall_mem_singleton.2 trivial, .rfl s⟩
  | checkPipeline_some hpipeline => exact ⟨forall_mem_nil _, .rfl s⟩
  | startSync hlocked =>
    exact ⟨forall_mem_singleton.2 ⟨mod_lt _ (by decide), mod_le _ _⟩, le_rfl, rfl, rfl, id⟩
  | register_none hpipeline => exact ⟨forall_mem_singleton.2 (Pipeline.create_inv ht.1 ht.2), le_rfl, rfl, rfl, id⟩
  | register_some hpipeline => exact ⟨forall_mem_nil _, le_rfl, rfl, rfl, id⟩
  | restart hpipeline => exact ⟨forall_mem_singleton.2 trivial, le_rfl, rfl, rfl, id⟩
  | restart_other hpipeline => exact ⟨forall_mem_nil _, .rfl s⟩
  | @completed id p =>
    refine ⟨forall_mem_singleton.2 ?_, .rfl s⟩
    have hstart := ht.1
    change (if p.startBlock > s.syncTarget then s.syncTarget else p.latestEndBlock) ≤ s.head
    split
    · omega
    · rename_i hge
      exact ht.2 (hpermits.resolve_right hge)
  | clear => exact ⟨forall_mem_singleton.2 ht, le_rfl, rfl, rfl, id⟩
  | compare_lt hlt => exact ⟨forall_mem_singleton.2 trivial, .rfl s⟩
  | compare_ge hge => exact ⟨forall_mem_singleton.2 ht, .rfl s⟩
  | readTarget => exact ⟨forall_mem_singleton.2 rfl, .rfl s⟩
  | setTarget hstarted => exact ⟨forall_mem_singleton.2 trivial, le_rfl, ht, rfl, id⟩
  | setTarget_stopped hstarted => exact hpermits.elim
  | notify => exact ⟨forall_mem_nil _, le_rfl, rfl, rfl, fun hn => forall_mem_cons.2 ⟨ht, hn⟩⟩
  | abort_some hpipeline => exact ⟨forall_mem_nil _, le_rfl, rfl, rfl, id⟩
  | abort_none hpipeline => exact ⟨forall_mem_nil _, .rfl s⟩

/-! ### No target is forgotten -/

/-- The tasks that run a pipeline, start one, or will compare the target with what was reached. -/
def Task.pursues : Task → Bool
  | notify _ | abort => false
  | _ => true

def Config.Pursued (c : Config) : Prop :=
  c.state.syncTarget ≤ c.state.head ∨ c.state.pipeline ≠ none ∨ ∃ t ∈ c.tasks, t.pursues = true

theorem TaskStep.pursued {l ts : List Task} (h : TaskStep rangeSize s t label s' ts)
    (hpermits : Config.Permits ⟨s, l⟩ label) (ht : t.Inv s) (howner : ∀ id, t.owner = some id → s.pipeline = some id)
    (hpursues : t.pursues = true) : Config.Pursued ⟨s', ts⟩ := by
  cases h with
  | checkPipeline_some hpipeline => exact .inr (.inl hpipeline)
  | register_some hpipeline => exact .inr (.inl hpipeline)
  | restart_other hpipeline => exact absurd (howner _ rfl) hpipeline
  | compare_ge hge => exact .inl (le_trans hge ht)
  | setTarget_stopped hstarted => exact hpermits.elim
  | notify => cases hpursues
  | abort_some hpipeline => cases hpursues
  | abort_none hpipeline => cases hpursues
  | _ => exact .inr (.inr ⟨_, mem_singleton_self _, rfl⟩)

theorem TaskStep.pipeline_or_pursues {ts : List Task}
    (h : TaskStep rangeSize s t label s' ts) (hpipeline : s.pipeline ≠ none) :
    s'.pipeline ≠ none ∨ ∃ t' ∈ ts, t'.pursues = true := by
  cases h with
  | register_none hnone => exact absurd hnone hpipeline
  | restart hsome => exact .inr ⟨_, mem_singleton_self _, rfl⟩
  | clear => exact .inr ⟨_, mem_singleton_self _, rfl⟩
  | _ => exact .inl hpipeline

structure Config.Inv (c : Config) : Prop where
  owned : c.Owned
  tasks : ∀ t ∈ c.tasks, t.Inv c.state
  target : c.state.syncTarget = c.state.requested
  notified : ∀ n ∈ c.state.notified, n.1 ≤ n.2
  pursued : c.Pursued

theorem Config.Owned.pipeline_eq {s : State} {l : List Task} (h : Config.Owned ⟨s, l⟩) (ht : t ∈ l) {id : Nat}
    (hid : t.owner = some id) : s.pipeline = some id := by
  have hmem : id ∈ l.filterMap Task.owner := mem_filterMap.2 ⟨t, ht, hid⟩
  rw [show l.filterMap Task.owner = s.pipeline.toList from h] at hmem
  exact Option.mem_toList.1 hmem

theorem TaskStep.config_inv {l₁ l₂ ts : List Task}
    (h : TaskStep rangeSize s t label s' ts) (hpermits : Config.Permits ⟨s, l₁ ++ t :: l₂⟩ label)
    (hc : Config.Inv ⟨s, l₁ ++ t :: l₂⟩) : Config.Inv ⟨s', l₁ ++ (ts ++ l₂)⟩ := by
  have htasks := hc.tasks
  simp only [forall_mem_append, forall_mem_cons] at htasks
  obtain ⟨h₁, ht, h₂⟩ := htasks
  obtain ⟨hts, hfollows⟩ := h.inv hpermits ht
  have hkeep : ∀ {t' : Task}, t'.Inv s → t'.Inv s' := fun ht' => ht'.mono hfollows.head (.inl hfollows.target)
  refine ⟨h.owned hc.owned, ?_, hfollows.target.trans (hc.target.trans hfollows.requested.symm),
    hfollows.notified hc.notified, ?_⟩
  · simp only [forall_mem_append]
    exact ⟨fun t' ht' => hkeep (h₁ t' ht'), hts, fun t' ht' => hkeep (h₂ t' ht')⟩
  · -- what the task pursued, its successors do
    have hsub : ∀ {t'}, t' ∈ ts → t' ∈ l₁ ++ (ts ++ l₂) := fun ht' => mem_append_right _ (mem_append_left _ ht')
    rcases hc.pursued with hle | hpipeline | ⟨t', ht', hpursues⟩
    · exact .inl ((hfollows.target.trans_le hle).trans hfollows.head)
    · exact .inr ((h.pipeline_or_pursues hpipeline).imp_right fun ⟨t', ht', hp⟩ => ⟨t', hsub ht', hp⟩)
    · rcases mem_append.1 ht' with hmem | hmem
      · exact .inr (.inr ⟨t', mem_append_left _ hmem, hpursues⟩)
      · rcases mem_cons.1 hmem with rfl | hmem
        · exact (h.pursued hpermits ht (fun id hid => hc.owned.pipeline_eq ht' hid) hpursues).imp_right
            (Or.imp_right fun ⟨t'', ht'', hp⟩ => ⟨t'', hsub ht'', hp⟩)
        · exact .inr (.inr ⟨t', mem_append_right _ (mem_append_right _ hmem), hpursues⟩)

theorem Step.inv (h : Step rangeSize c label c') (hpermits : c.Permits label) (hc : c.Inv) :
    c'.Inv := by
  cases h with
  | task h => exact h.config_inv hpermits hc
  | setSyncTarget t ht hstarted =>
    refine ⟨hc.owned, forall_mem_cons.2 ⟨trivial, fun t' ht' => ?_⟩, rfl, hc.notified,
      .inr (.inr ⟨_, mem_cons_self, rfl⟩)⟩
    exact (hc.tasks t' ht').mono le_rfl (.inr fun x hx => hpermits x (hx ▸ ht'))
  | start => exact ⟨hc.owned, fun t ht => (hc.tasks t ht).mono le_rfl (.inl rfl), hc.target, hc.notified, hc.pursued⟩
  | stop hstarted =>
    refine ⟨hc.owned, forall_mem_cons.2 ⟨trivial, fun t ht => (hc.tasks t ht).mono le_rfl (.inl rfl)⟩,
      hc.target, hc.notified, ?_⟩
    exact hc.pursued.imp_right (Or.imp_right fun ⟨t, ht, hp⟩ => ⟨t, mem_cons_of_mem _ ht, hp⟩)
  | otherImport number =>
    exact ⟨hc.owned, fun t ht => (hc.tasks t ht).mono hpermits (.inl rfl), hc.target, hc.notified,
      hc.pursued.imp_left fun hle => le_trans hle hpermits⟩

/-- A step of any kind, and one that is permitted. -/
def Any (rangeSize : Nat) (c c' : Config) : Prop := ∃ label, Step rangeSize c label c'

def Permitted (rangeSize : Nat) (c c' : Config) : Prop := ∃ label, Step rangeSize c label c' ∧ c.Permits label

/-- At most one pipeline runs at a time. In runs of permitted steps, the targets that subscribers are notified of have
been reached, and between calls and handlers the last target has been reached or a pipeline runs that reads it. -/
theorem sync_complete_caught_up (rangeSize head : Nat) :
    (∀ c, Relation.ReflTransGen (Any rangeSize) (init head) c → c.tasks.countP Task.isPipeline ≤ 1) ∧
      ∀ c, Relation.ReflTransGen (Permitted rangeSize) (init head) c →
        (∀ n ∈ c.state.notified, n.1 ≤ n.2) ∧ c.state.syncTarget = c.state.requested ∧
          ((∀ t ∈ c.tasks, t.isPipeline = true) → c.state.requested ≤ c.state.head ∨
            ∃ t ∈ c.tasks, t.isPipeline = true) := by
  constructor
  · intro c hrun
    have howned : c.Owned := by
      induction hrun with
      | refl => rfl
      | tail _ hstep ih =>
        obtain ⟨label, hstep⟩ := hstep
        exact hstep.owned ih
    exact howned.pipelines
  · intro c hrun
    have hinv : c.Inv := by
      induction hrun with
      | refl => exact ⟨rfl, forall_mem_nil _, rfl, forall_mem_nil _, .inl (zero_le _)⟩
      | tail _ hstep ih =>
        obtain ⟨label, hstep, hpermits⟩ := hstep
        exact hstep.inv hpermits ih
    refine ⟨hinv.notified, hinv.target, fun hall => ?_⟩
    rw [← hinv.target]
    refine hinv.pursued.imp_right fun h => ?_
    rcases h with hpipeline | ⟨t, ht, -⟩
    · -- the reference holds a pipeline, so there is a task that owns it
      obtain ⟨id, hid⟩ := Option.ne_none_iff_exists'.1 hpipeline
      have hmem : id ∈ c.tasks.filterMap Task.owner := by
        rw [show c.tasks.filterMap Task.owner = c.state.pipeline.toList from hinv.owned, hid]
        exact mem_singleton_self id
      obtain ⟨t, ht, -⟩ := mem_filterMap.1 hmem
      exact ⟨t, ht, hall t ht⟩
    · exact ⟨t, ht, hall t ht⟩

/-! ### A rejected block, and a target that is written back -/

section

variable {s s' : State} {t u : Task} {l ts : List Task} {label : Label}

theorem Step.first (h : TaskStep rangeSize s t label s' ts) : Step rangeSize ⟨s, t :: l⟩ label ⟨s', ts ++ l⟩ :=
  @Step.task _ s s' [] l ts t label h

theorem Step.second (h : TaskStep rangeSize s t label s' ts) :
    Step rangeSize ⟨s, u :: t :: l⟩ label ⟨s', u :: (ts ++ l)⟩ :=
  @Step.task _ s s' [u] l ts t label h

end

/-- The state when the pipeline of a service with the target 1 has downloaded the block. -/
def downloaded : Config :=
  ⟨⟨true, 1, 1, some 0, 1, false, [], 0, []⟩, [.pipeline 0 ⟨1, 2, 1, true, true, [], [1]⟩]⟩

theorem downloaded_run : Relation.ReflTransGen (Permitted 10) (init 0) downloaded := by
  refine .head ⟨_, .start, trivial⟩ ?_
  refine .head ⟨_, .setSyncTarget 1 (by decide) rfl, fun _ => not_mem_nil⟩ ?_
  refine .head ⟨_, .first (.checkPipeline_none rfl), trivial⟩ ?_
  refine .head ⟨_, .first (.startSync rfl), trivial⟩ ?_
  refine .head ⟨_, .first (.register_none rfl), trivial⟩ ?_
  refine .head ⟨_, .first (.yield rfl (by decide)), trivial⟩ ?_
  refine .head ⟨_, .first (.ended rfl (by decide)), trivial⟩ ?_
  exact .single ⟨.download ⟨1, 1⟩ [1], .first (.download rfl rfl rfl), rfl⟩

theorem Permitted.any (h : Permitted rangeSize c c') : Any rangeSize c c' := h.imp fun _ h => h.1

/-- The only block of the range is rejected, and the subscribers are notified of the target 1 at the head 0. In
another run the target 2 is set while the handler writes back the target 1: the service ends at the head 1 with no
pipeline. -/
theorem notified_below_target :
    (∃ c, Relation.ReflTransGen (Any 10) (init 0) c ∧ c.state.notified = [(1, 0)]) ∧
      ∃ c, Relation.ReflTransGen (Any 10) (init 0) c ∧ c.tasks = [] ∧ c.state.requested = 2 ∧ c.state.head = 1 := by
  constructor
  · refine ⟨⟨⟨true, 1, 1, none, 1, false, [], 0, [(1, 0)]⟩, []⟩,
      (Relation.ReflTransGen.mono (fun _ _ => Permitted.any) _ _ downloaded_run).trans ?_, rfl⟩
    refine .head ⟨.verdict 1 .reject, .first (.drop rfl (by decide))⟩ ?_
    refine .head ⟨_, .first (.finish ⟨rfl, rfl, rfl⟩)⟩ ?_
    refine .head ⟨_, .first .completed⟩ ?_
    refine .head ⟨_, .first .clear⟩ ?_
    refine .head ⟨_, .first (.compare_ge (by decide))⟩ ?_
    exact .single ⟨_, .first .notify⟩
  · refine ⟨⟨⟨true, 1, 2, none, 2, false, [], 1, [(1, 1)]⟩, []⟩, ?_, rfl, rfl, rfl⟩
    -- a first sync, to the target 0
    refine .head ⟨_, .start⟩ ?_
    refine .head ⟨_, .setSyncTarget 0 (by decide) rfl⟩ ?_
    refine .head ⟨_, .first (.checkPipeline_none rfl)⟩ ?_
    refine .head ⟨_, .first (.startSync rfl)⟩ ?_
    refine .head ⟨_, .first (.register_none rfl)⟩ ?_
    refine .head ⟨_, .first (.ended rfl (by decide))⟩ ?_
    refine .head ⟨_, .first (.finish ⟨rfl, rfl, rfl⟩)⟩ ?_
    refine .head ⟨_, .first .completed⟩ ?_
    refine .head ⟨_, .first .clear⟩ ?_
    -- the target is raised to 1, and the handler reads it
    refine .head ⟨_, .setSyncTarget 1 (by decide) rfl⟩ ?_
    refine .head ⟨_, .second (.compare_lt (by decide))⟩ ?_
    refine .head ⟨_, .second .readTarget⟩ ?_
    refine .head ⟨_, .first (.checkPipeline_none rfl)⟩ ?_
    refine .head ⟨_, .first (.startSync rfl)⟩ ?_
    refine .head ⟨_, .first (.register_none rfl)⟩ ?_
    -- it is raised to 2 while a pipeline runs, and written back
    refine .head ⟨_, .setSyncTarget 2 (by decide) rfl⟩ ?_
    refine .head ⟨_, .first (.checkPipeline_some (by decide))⟩ ?_
    refine .head ⟨_, .second (.setTarget rfl)⟩ ?_
    refine .head ⟨_, .second (.checkPipeline_some (by decide))⟩ ?_
    refine .head ⟨_, .first (.yield rfl (by decide))⟩ ?_
    refine .head ⟨_, .first (.ended rfl (by decide))⟩ ?_
    refine .head ⟨.download ⟨1, 1⟩ [1], .first (.download rfl rfl rfl)⟩ ?_
    refine .head ⟨_, .first (.accept rfl)⟩ ?_
    refine .head ⟨_, .first (.finish ⟨rfl, rfl, rfl⟩)⟩ ?_
    refine .head ⟨_, .first .completed⟩ ?_
    refine .head ⟨_, .first .clear⟩ ?_
    refine .head ⟨_, .first (.compare_ge (by decide))⟩ ?_
    exact .single ⟨_, .first .notify⟩

theorem sync_complete_caught_up_one :
    ∃ c, Relation.ReflTransGen (Permitted 10) (init 0) c ∧ c.state.notified = [(1, 1)] ∧
      ∀ n ∈ c.state.notified, n.1 ≤ n.2 := by
  have hrun : Relation.ReflTransGen (Permitted 10) (init 0) ⟨⟨true, 1, 1, none, 1, false, [], 1, [(1, 1)]⟩, []⟩ := by
    refine downloaded_run.trans ?_
    refine .head ⟨_, .first (.accept rfl), rfl, by decide⟩ ?_
    refine .head ⟨_, .first (.finish ⟨rfl, rfl, rfl⟩), trivial⟩ ?_
    refine .head ⟨_, .first .completed, .inl rfl⟩ ?_
    refine .head ⟨_, .first .clear, trivial⟩ ?_
    refine .head ⟨_, .first (.compare_ge (by decide)), trivial⟩ ?_
    exact .single ⟨_, .first .notify, trivial⟩
  exact ⟨_, hrun, rfl, ((sync_complete_caught_up 10 0).2 _ hrun).1⟩

end Lineth.Maru.Sync
