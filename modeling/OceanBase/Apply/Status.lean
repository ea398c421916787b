import OceanBase.Palf.Scn

/-!
# The apply status of a log stream

A replica that appends a log leaves a callback with its apply status. The callbacks wait in queues,
chosen by the low bits of the SCN, until PALF has reported their logs as committed, and are then
executed with `on_success`. If the replica becomes a follower first, those that are not below the
reported end are executed with `on_failure`.

The queues count callbacks at three points: before a callback is pushed, after it was executed, and,
as a snapshot of the first count, whenever the position up to which callbacks are complete is looked
for. The counts are read and written without a lock that spans the queues.

`stop`, `reset_meta` and `reset_proposal_id`, which belong to a log stream that goes offline, are
not modelled, and neither is a queue that refuses a callback, as it only refuses a null pointer.
-/

namespace OceanBase.Apply

open Palf

inductive ObRole
  | leader
  | follower
deriving DecidableEq

inductive ApplyRet
  | success
  | errUnexpected
  | invalidArgument
  | stateNotMatch
deriving DecidableEq

/-- A log entry with the term it was written in. An `AppendCb` holds LSN and SCN of its entry. -/
structure PalfEntry where
  lsn : ℕ
  endLsn : ℕ
  scn : ℕ
  proposalId : ℤ
deriving DecidableEq

abbrev applyTaskQueueSize : ℕ := 32

abbrev CbQueueIdx := Fin applyTaskQueueSize

/-- The queue of a callback: the low bits of its SCN. -/
def PalfEntry.queueIdx (cb : PalfEntry) : CbQueueIdx := Fin.ofNat _ cb.scn

/-! ## The queues -/

/-- Where a worker stands in a round of `try_handle_cb_queue`. -/
inductive CbWorker
  | idle
  /-- a callback is popped, and `on_success` or `on_failure` runs -/
  | run (cb : PalfEntry) (success : Bool)
  /-- the callback was executed and is not counted yet -/
  | ran
deriving DecidableEq

/-- `ObApplyServiceQueueTask` -/
structure CbQueue where
  totalSubmitCbCnt : ℕ
  lastCheckSubmitCbCnt : ℕ
  totalApplyCbCnt : ℕ
  queue : List PalfEntry
  worker : CbWorker
  /-- the callbacks that were executed, and whether it was `on_success` -/
  executed : List (PalfEntry × Bool)

namespace CbQueue

variable (x : CbQueue)

def init : CbQueue := ⟨0, 0, 0, [], .idle, []⟩

def running : List PalfEntry :=
  match x.worker with
  | .run cb _ => [cb]
  | _ => []

/-- The callbacks that were pushed and are not executed. -/
def pending : List PalfEntry := x.running ++ x.queue

/-- All callbacks that were pushed, in this order. -/
def pushed : List PalfEntry := x.executed.map Prod.fst ++ x.pending

def incTotalSubmitCbCnt : CbQueue := { x with totalSubmitCbCnt := x.totalSubmitCbCnt + 1 }

def push (cb : PalfEntry) : CbQueue := { x with queue := x.queue ++ [cb] }

/-- A round of `try_handle_cb_queue` up to the callback: logs below the committed end are
successful, the others fail on a follower and wait on a leader. -/
def take (palfCommittedEndLsn : ℕ) (role : ObRole) : Option CbQueue :=
  match x.worker, x.queue with
  | .idle, cb :: rest =>
    if cb.lsn < palfCommittedEndLsn then some { x with queue := rest, worker := .run cb true }
    else if role = .follower then some { x with queue := rest, worker := .run cb false }
    else none
  | _, _ => none

def execute : Option CbQueue :=
  match x.worker with
  | .run cb success =>
    some { x with worker := .ran, executed := x.executed ++ [(cb, success)] }
  | _ => none

def incTotalApplyCbCnt : Option CbQueue :=
  match x.worker with
  | .ran => some { x with worker := .idle, totalApplyCbCnt := x.totalApplyCbCnt + 1 }
  | _ => none

def setSnapshotCheckSubmitCbCnt : CbQueue := { x with lastCheckSubmitCbCnt := x.totalSubmitCbCnt }

def isSnapshotApplyDone : Bool := x.lastCheckSubmitCbCnt ≤ x.totalApplyCbCnt

end CbQueue

/-! ## The status -/

/-- `ObApplyStatus` -/
structure ApplyStatus where
  role : ObRole
  proposalId : ℤ
  palfCommittedEndLsn : ℕ
  palfCommittedEndScn : ℕ
  lastCheckScn : ℕ
  maxAppliedCbScn : ℕ
  cbQueues : CbQueueIdx → CbQueue

namespace ApplyStatus

variable (st : ApplyStatus)

def init : ApplyStatus := ⟨.follower, -1, 0, invalidScn, invalidScn, invalidScn, fun _ => .init⟩

def setQueue (q : CbQueueIdx) (x : CbQueue) : ApplyStatus :=
  { st with cbQueues := Function.update st.cbQueues q x }

def switchToLeader (newProposalId : ℤ) : ApplyRet × ApplyStatus :=
  if newProposalId < st.proposalId then (.invalidArgument, st)
  else if st.role = .leader then (.stateNotMatch, st)
  else (.success, { st with proposalId := newProposalId, role := .leader })

def switchToFollower : ApplyStatus :=
  if st.role = .follower then st
  else { st with lastCheckScn := invalidScn, role := .follower }

/-- `update_palf_committed_end_lsn` up to the store of the LSN: the SCN is stored first. Reports of
terms the apply status has not come to are passed over, others are refused with an error, and both
leave it as it is. -/
def startReport (endLsn endScn : ℕ) (proposalId : ℤ) : Option ApplyStatus :=
  if proposalId = st.proposalId ∧ st.role = .leader ∧ st.palfCommittedEndLsn < endLsn then
    some { st with palfCommittedEndScn := endScn }
  else none

/-- The callbacks that were pushed and are not executed. -/
def Pending (cb : PalfEntry) : Prop := ∃ q, cb ∈ (st.cbQueues q).pending

def Executed (cb : PalfEntry) : Prop := ∃ q success, (cb, success) ∈ (st.cbQueues q).executed

def Pushed (cb : PalfEntry) : Prop := ∃ q, cb ∈ (st.cbQueues q).pushed

/-- No worker is between popping a callback and counting it, so the write lock can be taken. -/
def WorkersIdle : Prop := ∀ q, (st.cbQueues q).worker = .idle
  deriving Decidable

end ApplyStatus

/-! ## What a queue holds -/

namespace CbQueue

variable {x y : CbQueue} {cb : PalfEntry} {endLsn : ℕ} {role : ObRole}

@[simp] theorem pushed_incTotalSubmitCbCnt : x.incTotalSubmitCbCnt.pushed = x.pushed := rfl

@[simp] theorem pending_incTotalSubmitCbCnt : x.incTotalSubmitCbCnt.pending = x.pending := rfl

@[simp] theorem totalSubmitCbCnt_inc :
    x.incTotalSubmitCbCnt.totalSubmitCbCnt = x.totalSubmitCbCnt + 1 := rfl

@[simp] theorem totalSubmitCbCnt_push : (x.push cb).totalSubmitCbCnt = x.totalSubmitCbCnt := rfl

@[simp] theorem pushed_setSnapshot : x.setSnapshotCheckSubmitCbCnt.pushed = x.pushed := rfl

@[simp] theorem pending_setSnapshot : x.setSnapshotCheckSubmitCbCnt.pending = x.pending := rfl

@[simp] theorem pending_push : (x.push cb).pending = x.pending ++ [cb] :=
  (List.append_assoc _ _ _).symm

@[simp] theorem pushed_push : (x.push cb).pushed = x.pushed ++ [cb] := by
  unfold pushed
  rw [pending_push, List.append_assoc]
  rfl

theorem take_eq_some (h : x.take endLsn role = some y) :
    ∃ cb rest success, x.worker = .idle ∧ x.queue = cb :: rest ∧
      y = { x with queue := rest, worker := .run cb success } ∧
      (success = true ∧ cb.lsn < endLsn ∨ success = false ∧ ¬ cb.lsn < endLsn ∧
        role = .follower) := by
  unfold take at h
  split at h
  case h_2 => exact nomatch h
  case h_1 cb rest hw hq =>
  split_ifs at h with hlt hrole
  · exact ⟨cb, rest, true, hw, hq, (Option.some.inj h).symm, .inl ⟨rfl, hlt⟩⟩
  · exact ⟨cb, rest, false, hw, hq, (Option.some.inj h).symm, .inr ⟨rfl, hlt, hrole⟩⟩

theorem execute_eq_some (h : x.execute = some y) : ∃ cb success, x.worker = .run cb success ∧
      y = { x with worker := .ran, executed := x.executed ++ [(cb, success)] } := by
  unfold execute at h
  split at h
  case h_1 cb success hw => exact ⟨cb, success, hw, (Option.some.inj h).symm⟩
  case h_2 => exact nomatch h

theorem incTotalApplyCbCnt_eq_some (h : x.incTotalApplyCbCnt = some y) :
    x.worker = .ran ∧ y = { x with worker := .idle, totalApplyCbCnt := x.totalApplyCbCnt + 1 } := by
  unfold incTotalApplyCbCnt at h
  split at h
  case h_1 hw => exact ⟨hw, (Option.some.inj h).symm⟩
  case h_2 => exact nomatch h

theorem pushed_take (h : x.take endLsn role = some y) :
    y.pushed = x.pushed ∧ y.pending = x.pending := by
  obtain ⟨cb, rest, success, hw, hq, rfl, -⟩ := take_eq_some h
  simp [pushed, pending, running, hw, hq]

theorem pushed_execute (h : x.execute = some y) :
    y.pushed = x.pushed ∧ ∃ cb, x.pending = cb :: y.pending := by
  obtain ⟨cb, success, hw, rfl⟩ := execute_eq_some h
  simp [pushed, pending, running, hw]

theorem pushed_incTotalApplyCbCnt (h : x.incTotalApplyCbCnt = some y) :
    y.pushed = x.pushed ∧ y.pending = x.pending := by
  obtain ⟨hw, rfl⟩ := incTotalApplyCbCnt_eq_some h
  simp [pushed, pending, running, hw]

end CbQueue

end OceanBase.Apply
