import OceanBase.Lib.History
import OceanBase.Palf.Scn

/-!
# The replay status of a log stream

A follower replays its log with one submit task and 32 replay queues. The submit task takes
the logs from an iterator and pushes each to the queue its replay hint selects; each queue is
handled by at most one worker, which replays the head and pops it when the replay has succeeded.

Two kinds of barrier restrict this parallelism. A log with a *pre barrier* is pushed to every
queue. The copies share a buffer with a reference count, every worker that meets its copy
decrements the count and drops the copy, and the worker of the log's own queue waits until its
copy is the last one. While a log with a *post barrier* is submitted and not replayed, its LSN
stands in `post_barrier_lsn_` and no log is submitted.

The model gives each thread a program counter and makes every access to shared data one step:
`fetch_and_submit_single_log_` is cut at each push and at each access of `post_barrier_lsn_`,
`do_replay_task_` at the barrier check, at the replay and at the two updates after it. The state
carries three fields the program has not: the position of a task's log in the log sequence, the
bound below which a queue's logs are popped, and the successful replays in order.
-/

namespace OceanBase.Replay

open Palf Function

/-! ## Logs and tasks -/

def replayTaskQueueSize : ℕ := 32

instance : NeZero replayTaskQueueSize := ⟨by decide⟩

abbrev QueueIdx := Fin replayTaskQueueSize

/-- `sizeof(LogEntryHeader)` -/
def logEntryHeaderSize : ℕ := 32

def invalidLsnVal : ℕ := 2 ^ 64 - 1

/-- A log as `get_log` returns it, with what its `ObLogBaseHeader` says. -/
structure ReplayEntry where
  lsn : ℕ
  scn : ℕ
  logSize : ℕ
  replayHint : ℤ
  needPreReplayBarrier : Bool
  needPostReplayBarrier : Bool
  /-- the log type is `PADDING_LOG_BASE_TYPE` -/
  isPadding : Bool

/-- `cur_lsn + log_size + sizeof(LogEntryHeader)` -/
def ReplayEntry.endLsn (e : ReplayEntry) : ℕ := e.lsn + e.logSize + logEntryHeaderSize

/-- The log sequence from the base LSN on, together with the base the status was enabled with.
PALF hands out SCNs above `SCN::min_scn`. -/
structure ReplayLog where
  entries : List ReplayEntry
  baseLsn : ℕ
  baseScn : ℕ
  baseLsn_le : ∀ e ∈ entries, baseLsn ≤ e.lsn
  valid : ∀ e ∈ entries, lsnIsValid e.lsn ∧ scnIsValid e.scn ∧ 0 < e.logSize ∧ minScn < e.scn
  sorted : entries.Pairwise fun a b => a.endLsn ≤ b.lsn ∧ a.scn < b.scn

/-- `ObLogReplayTask`; the hint is the absolute value of the header's. -/
structure ObLogReplayTask where
  /-- the position of the log in the log sequence -/
  serial : ℕ
  lsn : ℕ
  scn : ℕ
  isPreBarrier : Bool
  isPostBarrier : Bool
  readLogSize : ℕ
  replayHint : ℕ
deriving DecidableEq

def ReplayEntry.toTask (e : ReplayEntry) (serial : ℕ) : ObLogReplayTask where
  serial := serial
  lsn := e.lsn
  scn := e.scn
  isPreBarrier := e.needPreReplayBarrier
  isPostBarrier := e.needPostReplayBarrier
  readLogSize := e.logSize
  replayHint := e.replayHint.natAbs

def ObLogReplayTask.isValid (t : ObLogReplayTask) : Prop :=
  scnIsValid t.scn ∧ lsnIsValid t.lsn ∧ 0 < t.readLogSize
  deriving Decidable

/-- `calc_replay_queue_idx`: the low bits of the hint. -/
def calcReplayQueueIdx (replayHint : ℕ) : QueueIdx := Fin.ofNat _ replayHint

def ObLogReplayTask.queueIdx (t : ObLogReplayTask) : QueueIdx := calcReplayQueueIdx t.replayHint

/-! ## State -/

/-- Where `handle_submit_task_` stands. -/
inductive SubmitPc
  /-- at the head of the loop -/
  | fetch
  /-- a task is built, before `check_can_submit_log_replay_task_` -/
  | check (t : ObLogReplayTask)
  /-- before `set_post_barrier_submitted` -/
  | mark (t : ObLogReplayTask)
  /-- in `push_log_replay_task`, with that many copies pushed -/
  | push (t : ObLogReplayTask) (copies : ℕ)
  /-- before `update_submit_log_meta_info` -/
  | update
  /-- before `next_log` -/
  | next
  /-- a fatal error is recorded, and `pre_check_` lets the task run no more -/
  | halt
deriving DecidableEq

/-- Where the worker of a queue stands in `handle_replay_task_`. -/
inductive WorkerPc
  /-- before it looks at the head -/
  | idle
  /-- the barrier check passed and the head is to be replayed -/
  | replay
  /-- the head is replayed, before `set_post_barrier_finished` -/
  | finish
  /-- before `pop` -/
  | pop
deriving DecidableEq

/-- `ObReplayStatus` with its submit task and its queues. -/
structure ReplayState where
  /-- the log the iterator stands on, or comes to next -/
  cur : ℕ
  /-- `iterator_.is_valid()` -/
  iterValid : Bool
  nextToSubmitLsn : ℕ
  nextToSubmitScn : ℕ
  submit : SubmitPc
  postBarrierLsn : ℕ
  /-- `ref_` of the `ObLogReplayBuffer` of a pre barrier log, while it is allocated -/
  replayLogBuf : ℕ → Option ℤ
  taskQueues : QueueIdx → List ObLogReplayTask
  worker : QueueIdx → WorkerPc
  /-- the logs of a queue below this position are popped -/
  popped : QueueIdx → ℕ
  /-- the successful replays: which log, in which queue -/
  replayed : List (ℕ × QueueIdx)
  /-- a barrier check has reported `OB_ERR_UNEXPECTED` -/
  unexpected : Bool

/-- The state after `ObReplayServiceSubmitTask::init`. -/
def ReplayState.init (L : ReplayLog) (iterValid : Bool) : ReplayState where
  cur := 0
  iterValid := iterValid
  nextToSubmitLsn := L.baseLsn
  nextToSubmitScn := minScn
  submit := .fetch
  postBarrierLsn := invalidLsnVal
  replayLogBuf := fun _ => none
  taskQueues := fun _ => []
  worker := fun _ => .idle
  popped := fun _ => 0
  replayed := []
  unexpected := false

namespace ReplayState

variable (L : ReplayLog) (s : ReplayState)

/-! ## The submit task -/

inductive IterNext
  | entry
  | iterEnd (nextMinScn : ℕ)
  | fail
deriving DecidableEq

/-- The iterator delivers the logs in order, and the `next_min_scn` of `OB_ITER_END` is a lower
bound for the logs that follow. -/
def Delivers (cur : ℕ) : IterNext → Prop
  | .entry => cur < L.entries.length
  | .iterEnd nextMinScn => scnIsValid nextMinScn → ∀ e ∈ L.entries.drop cur, nextMinScn ≤ e.scn
  | .fail => True

instance (cur : ℕ) (r : IterNext) : Decidable (Delivers L cur r) := by
  cases r <;> unfold Delivers <;> infer_instance

/-- What `next_log` does to the next SCN when the iterator is at its end. The source sets a fatal
error where `next_min_scn` is smaller, and leaves the SCN. -/
def nextScnAtEnd (pointValid : Bool) (nextMinScn : ℕ) : ℕ :=
  if nextMinScn = s.nextToSubmitScn ∨ ¬ pointValid ∨ ¬ scnIsValid nextMinScn ∨
      nextMinScn < s.nextToSubmitScn then s.nextToSubmitScn
  else nextMinScn

/-- `next_log`, called after a log was submitted and by `has_remained_submit_log`. -/
def nextLog (pointValid : Bool) (r : IterNext) : Option ReplayState :=
  if s.submit = .next ∨ (s.submit = .fetch ∧ s.iterValid = false) then
    some { s with
      submit := .fetch
      iterValid := r = .entry
      nextToSubmitScn := match r with
        | .iterEnd nextMinScn => s.nextScnAtEnd pointValid nextMinScn
        | _ => s.nextToSubmitScn }
  else none

/-- `free_replay_task_log_buf` and `free_replay_task` of a task that could not be submitted; the
log is fetched again. -/
def freeTask (t : ObLogReplayTask) : ReplayState :=
  { s with
    submit := .fetch
    replayLogBuf := if t.isPreBarrier then update s.replayLogBuf t.serial none
      else s.replayLogBuf }

/-- The first part of `fetch_and_submit_single_log_`: logs below the base SCN and padding logs are
passed over, for the others a task is built. -/
def fetchLog (alloc : Bool) : Option ReplayState :=
  match s.submit, L.entries[s.cur]? with
  | .fetch, some e =>
    if s.iterValid = false then none
    else if e.scn < L.baseScn ∨ e.isPadding then some { s with submit := .update }
    else if alloc = false then some s
    else some { s with
      submit := .check (e.toTask s.cur)
      replayLogBuf := if e.needPreReplayBarrier then
          update s.replayLogBuf s.cur (some replayTaskQueueSize)
        else s.replayLogBuf }
  | _, _ => none

def checkCanSubmitLogReplayTask (outOfMemory : Bool) : Option ReplayState :=
  match s.submit with
  | .check t =>
    if s.postBarrierLsn ≠ invalidLsnVal ∨ outOfMemory then some (s.freeTask t)
    else some { s with submit := .mark t }
  | _ => none

/-- `submit_log_replay_task_` up to the push. -/
def setPostBarrierSubmitted : Option ReplayState :=
  match s.submit with
  | .mark t =>
    if ¬ t.isValid then some (s.freeTask t)
    else some { s with
      submit := .push t 0
      postBarrierLsn := if t.isPostBarrier then t.lsn else s.postBarrierLsn }
  | _ => none

def setPostBarrierFinished (lsn : ℕ) : ReplayState :=
  if s.postBarrierLsn ≠ lsn then { s with unexpected := true }
  else { s with postBarrierLsn := invalidLsnVal }

def pushTo (q : QueueIdx) (t : ObLogReplayTask) : ReplayState :=
  { s with taskQueues := update s.taskQueues q (s.taskQueues q ++ [t]) }

/-- One push of `push_log_replay_task`. The copies of a pre barrier log are allocated before the
first of them is pushed; if that fails the submission is revoked. -/
def pushLogReplayTask (alloc : Bool) : Option ReplayState :=
  match s.submit with
  | .push t copies =>
    if t.isPreBarrier then
      if copies = 0 ∧ alloc = false then
        some ((if t.isPostBarrier then s.setPostBarrierFinished t.lsn else s).freeTask t)
      else if h : copies < replayTaskQueueSize then
        some { s.pushTo ⟨copies, h⟩ t with
          submit := if copies + 1 = replayTaskQueueSize then .update else .push t (copies + 1) }
      else none
    else some { s.pushTo t.queueIdx t with submit := .update }
  | _ => none

/-- `update_submit_log_meta_info`; when it fails a fatal error is recorded. The LSN is updated
before the SCN is looked at. -/
def updateSubmitLogMetaInfo : Option ReplayState :=
  match s.submit, L.entries[s.cur]? with
  | .update, some e =>
    if e.endLsn ≤ s.nextToSubmitLsn then some { s with submit := .halt }
    else if scnLe (scnInc e.scn) s.nextToSubmitScn then
      some { s with submit := .halt, nextToSubmitLsn := e.endLsn }
    else some { s with
      submit := .next
      cur := s.cur + 1
      nextToSubmitLsn := e.endLsn
      nextToSubmitScn := scnInc e.scn }
  | _, _ => none

/-! ## The workers -/

/-- `check_replay_barrier`: whether the task is to be replayed in queue `q`, and the reference
count after the check. -/
def checkReplayBarrier (t : ObLogReplayTask) (buf : Option ℤ) (q : QueueIdx) :
    Except ObErr Bool × Option ℤ :=
  if t.isPreBarrier then
    match buf with
    | none => (.error .errUnexpected, none)
    | some ref =>
      if q = calcReplayQueueIdx t.replayHint ∧ ref ≠ 1 then (.error .eagain, some ref)
      else if ref - 1 = 0 then
        if q ≠ calcReplayQueueIdx t.replayHint then (.error .errUnexpected, some (ref - 1))
        else (.ok true, some (ref - 1))
      else if ref - 1 < 0 then (.error .errUnexpected, some (ref - 1))
      else (.ok false, some (ref - 1))
  else (.ok true, buf)

section

variable (q : QueueIdx)

/-- `do_replay_task_` up to the replay; `canReplay` is the answer of `check_can_replay`. -/
def checkHead (canReplay : Bool) : Option ReplayState :=
  match s.worker q, s.taskQueues q with
  | .idle, t :: _ =>
    if canReplay = false then some s
    else
      let (r, buf) := checkReplayBarrier t (s.replayLogBuf t.serial) q
      let s' := { s with replayLogBuf := update s.replayLogBuf t.serial buf }
      match r with
      | .ok needReplay =>
        some { s' with worker := update s.worker q (if needReplay then .replay else .pop) }
      | .error e => some { s' with unexpected := s.unexpected || e == .errUnexpected }
  | _, _ => none

/-- `ls_adapter_->replay`: a pre barrier log gives its reference back when it fails, and frees the
buffer when it succeeds. -/
def replayHead (ok : Bool) : Option ReplayState :=
  match s.worker q, s.taskQueues q with
  | .replay, t :: _ =>
    if ok then
      some { s with
        worker := update s.worker q .finish
        replayLogBuf := if t.isPreBarrier then update s.replayLogBuf t.serial none
          else s.replayLogBuf
        replayed := s.replayed ++ [(t.serial, q)] }
    else
      some { s with
        worker := update s.worker q .idle
        replayLogBuf := if t.isPreBarrier then
            update s.replayLogBuf t.serial ((s.replayLogBuf t.serial).map (· + 1))
          else s.replayLogBuf }
  | _, _ => none

/-- The end of `do_replay_task_`; when the check of the post barrier fails the task stays at the
head of the queue. -/
def finishHead : Option ReplayState :=
  match s.worker q, s.taskQueues q with
  | .finish, t :: _ =>
    if t.isPostBarrier then
      some { s.setPostBarrierFinished t.lsn with
        worker := update s.worker q (if s.postBarrierLsn ≠ t.lsn then .idle else .pop) }
    else some { s with worker := update s.worker q .pop }
  | _, _ => none

def popHead : Option ReplayState :=
  match s.worker q, s.taskQueues q with
  | .pop, t :: rest =>
    some { s with
      worker := update s.worker q .idle
      taskQueues := update s.taskQueues q rest
      popped := update s.popped q (t.serial + 1) }
  | _, _ => none

end

/-! ## The machine -/

/-- One step of one thread, with the answers the step gets from outside. -/
inductive Act
  | nextLog (pointValid : Bool) (r : IterNext)
  | fetchLog (alloc : Bool)
  | checkCanSubmit (outOfMemory : Bool)
  | setPostBarrier
  | push (alloc : Bool)
  | updateMetaInfo
  | checkHead (q : QueueIdx) (canReplay : Bool)
  | replayHead (q : QueueIdx) (ok : Bool)
  | finishHead (q : QueueIdx)
  | popHead (q : QueueIdx)

/-- The state after a step, or `none` when the thread does not stand there. -/
def step : Act → Option ReplayState
  | .nextLog pointValid r => if Delivers L s.cur r then s.nextLog pointValid r else none
  | .fetchLog alloc => s.fetchLog L alloc
  | .checkCanSubmit outOfMemory => s.checkCanSubmitLogReplayTask outOfMemory
  | .setPostBarrier => s.setPostBarrierSubmitted
  | .push alloc => s.pushLogReplayTask alloc
  | .updateMetaInfo => s.updateSubmitLogMetaInfo L
  | .checkHead q canReplay => s.checkHead q canReplay
  | .replayHead q ok => s.replayHead q ok
  | .finishHead q => s.finishHead q
  | .popHead q => s.popHead q

def run : List Act → ReplayState → Option ReplayState
  | [], s => some s
  | a :: as, s => (s.step L a).bind (run as)

end ReplayState

/-- All interleavings of the submit task and the workers. -/
def replayStatus (L : ReplayLog) : Machine ReplayState where
  init s := ∃ v, (v = true → L.entries ≠ []) ∧ s = ReplayState.init L v
  step s s' := ∃ a, s.step L a = some s'

theorem ReplayState.reachable_run {L as s s'}
    (hs : (replayStatus L).Reachable s) (h : run L as s = some s') :
    (replayStatus L).Reachable s' :=
  hs.of_run (f := fun s as => run L as s) h (fun _ => rfl) (fun _ _ _ => rfl) fun _ a _
    ha => ⟨a, ha⟩

end OceanBase.Replay
