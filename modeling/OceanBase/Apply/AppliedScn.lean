import OceanBase.Apply.CommittedEnd

/-!
# `get_max_applied_scn`

The position up to which the callbacks of a replica are complete is a cached SCN that each call
tries to move on. On a leader a call takes a snapshot: PALF's largest SCN, and the count of
submitted callbacks of each queue after the appends that already had an SCN are through. A later
call that finds all queues have executed that many callbacks adopts the SCN. On a follower there are
no new callbacks, and once all are executed the SCN of the last committed log is adopted.

A call holds the read lock of the apply status and a mutex, so calls and role changes exclude each
other. It does not exclude the appenders, the workers and the reports, and the counters of the
queues are read one after the other: the call is modelled step by step.
-/

namespace OceanBase.Apply

open Palf

/-- Where a call of `get_max_applied_scn` stands. -/
inductive ReadPc
  | idle
  /-- `is_apply_done` is about to read the count of executed callbacks of queue `i` -/
  | applyCnt (i cur : ℕ)
  /-- `is_apply_done` is about to read the count of submitted callbacks of queue `i` -/
  | submitCnt (i cur totalApplyCbCnt : ℕ)
  /-- `is_snapshot_apply_done` of queue `i` -/
  | snapshotDone (i : ℕ)
  /-- `update_last_check_scn_` is about to call `get_max_scn` -/
  | getMaxScn
  /-- `update_last_check_scn_` is about to call `get_role` -/
  | getRole (palfMaxScn : ℕ)
  /-- `wait_append_sync` waits for the appends that have an SCN -/
  | waitAppendSync (palfMaxScn : ℕ) (appends : List PalfEntry)
  /-- `set_snapshot_check_submit_cb_cnt` of queue `i` -/
  | setSnapshot (palfMaxScn i : ℕ)
  | done (ret : ApplyRet)
deriving DecidableEq

/-- A bound on the steps the call has still to make. -/
def ReadPc.rank : ReadPc → ℕ
  | .idle => 0
  | .done _ => 1
  | .setSnapshot _ i => applyTaskQueueSize - i + 2
  | .waitAppendSync _ _ => applyTaskQueueSize + 3
  | .getRole _ => applyTaskQueueSize + 4
  | .getMaxScn => applyTaskQueueSize + 5
  | .snapshotDone i => applyTaskQueueSize - i + (applyTaskQueueSize + 6)
  | .submitCnt i _ _ => 2 * (applyTaskQueueSize - i) + 1
  | .applyCnt i _ => 2 * (applyTaskQueueSize - i) + 2

/-- A replica, a call of `get_max_applied_scn` and the results of the calls before it. -/
structure AppliedState where
  replica : Replica
  pc : ReadPc
  results : List (ApplyRet × ℕ)

namespace AppliedState

variable (s : AppliedState)

def status : ApplyStatus := s.replica.status

def setStatus (st : ApplyStatus) : AppliedState :=
  { s with replica := { s.replica with status := st } }

def goto (pc : ReadPc) : AppliedState := { s with pc := pc }

/-- The first branch of `get_max_applied_scn`. -/
def enter : AppliedState :=
  if s.status.role = .follower then
    if scnLt s.status.palfCommittedEndScn s.status.maxAppliedCbScn then
      s.goto (.done .errUnexpected)
    else if s.status.maxAppliedCbScn = s.status.palfCommittedEndScn then s.goto (.done .success)
    else s.goto (.applyCnt 0 s.status.palfCommittedEndScn)
  else if ¬ scnIsValid s.status.lastCheckScn ∨ s.status.lastCheckScn = s.status.maxAppliedCbScn then
    s.goto .getMaxScn
  else if ¬ scnIsValid s.status.maxAppliedCbScn ∨
      scnLt s.status.maxAppliedCbScn s.status.lastCheckScn then
    s.goto (.snapshotDone 0)
  else s.goto (.done .errUnexpected)

/-- `is_apply_done` with its count of executed callbacks; behind the last queue all callbacks are
executed. -/
def applyCnt (i cur : ℕ) : AppliedState :=
  if h : i < applyTaskQueueSize then
    s.goto (.submitCnt i cur (s.status.cbQueues ⟨i, h⟩).totalApplyCbCnt)
  else if scnLt s.status.maxAppliedCbScn cur then
    (s.setStatus { s.status with maxAppliedCbScn := cur }).goto (.done .success)
  else s.goto (.done .success)

/-- `is_apply_done` with its count of submitted callbacks. -/
def submitCnt (i cur totalApplyCbCnt : ℕ) : AppliedState :=
  if h : i < applyTaskQueueSize then
    if (s.status.cbQueues ⟨i, h⟩).totalSubmitCbCnt < totalApplyCbCnt then
      s.goto (.done .errUnexpected)
    else if totalApplyCbCnt = (s.status.cbQueues ⟨i, h⟩).totalSubmitCbCnt then
      s.goto (.applyCnt (i + 1) cur)
    else s.goto (.done .success)
  else s

/-- The loop over `is_snapshot_apply_done`; behind the last queue the snapshot is adopted. -/
def snapshotDone (i : ℕ) : AppliedState :=
  if h : i < applyTaskQueueSize then
    if (s.status.cbQueues ⟨i, h⟩).isSnapshotApplyDone then s.goto (.snapshotDone (i + 1))
    else s.goto (.done .success)
  else (s.setStatus { s.status with maxAppliedCbScn := s.status.lastCheckScn }).goto .getMaxScn

/-- `update_last_check_scn_` between `get_role` and `wait_append_sync`. PALF calls itself leader
only after its reconfirmation. -/
def getRole (palfMaxScn : ℕ) (isLeader : Bool) : AppliedState :=
  if scnIsValid s.status.maxAppliedCbScn ∧ scnLt palfMaxScn s.status.maxAppliedCbScn then
    s.goto (.done .errUnexpected)
  else if s.replica.palf.proposalId ≠ s.status.proposalId ∨ isLeader = false then
    if s.replica.palf.proposalId < s.status.proposalId then s.goto (.done .errUnexpected)
    else s.goto (.done .success)
  else s.goto (.waitAppendSync palfMaxScn (s.replica.inFlight.map Prod.fst))

/-- The loop over `set_snapshot_check_submit_cb_cnt`, and the new snapshot. -/
def setSnapshot (palfMaxScn i : ℕ) : AppliedState :=
  if h : i < applyTaskQueueSize then
    (s.setStatus (s.status.setQueue ⟨i, h⟩
      (s.status.cbQueues ⟨i, h⟩).setSnapshotCheckSubmitCbCnt)).goto
        (.setSnapshot palfMaxScn (i + 1))
  else (s.setStatus { s.status with lastCheckScn := palfMaxScn }).goto (.done .success)

/-- The next step of the call. What PALF answers when asked for its role comes from outside. -/
def read (isLeader : Bool) : Option AppliedState :=
  match s.pc with
  | .idle => some s.enter
  | .applyCnt i cur => some (s.applyCnt i cur)
  | .submitCnt i cur totalApplyCbCnt => some (s.submitCnt i cur totalApplyCbCnt)
  | .snapshotDone i => some (s.snapshotDone i)
  | .getMaxScn => some (s.goto (.getRole s.replica.palf.maxScn))
  | .getRole palfMaxScn =>
    if isLeader = true → s.replica.palf.isLeader = true then some (s.getRole palfMaxScn isLeader)
    else none
  | .waitAppendSync palfMaxScn appends =>
    if ∀ e ∈ appends, e ∉ s.replica.inFlight.map Prod.fst then
      some (s.goto (.setSnapshot palfMaxScn 0))
    else none
  | .setSnapshot palfMaxScn i => some (s.setSnapshot palfMaxScn i)
  | .done ret =>
    some { s with pc := .idle, results := s.results ++ [(ret, s.status.maxAppliedCbScn)] }

/-- One step of the replica, of a role change or of a call. -/
inductive Act
  | replica (a : Replica.Act)
  | switchToLeader (pid : ℤ)
  | switchToFollower
  | openHandler
  | closeHandler
  | read (isLeader : Bool)

def LockFree : Prop := s.pc = .idle ∧ s.replica.LockFree
  deriving Decidable

/-- The state after a step, if it can happen. The terms of the apply status grow, and are terms this
replica became leader of. The write lock of the log handler waits for the appends. -/
def step : Act → Option AppliedState
  | .replica a => (s.replica.step a).map fun r => { s with replica := r }
  | .switchToLeader pid =>
    if s.LockFree ∧ s.status.proposalId < pid ∧ (s.replica.palf.termStart pid).isSome then
      some (s.setStatus (s.status.switchToLeader pid).2)
    else none
  | .switchToFollower => if s.LockFree then some (s.setStatus s.status.switchToFollower) else none
  | .openHandler =>
    if s.status.role = .leader ∧ s.replica.inFlight = [] then
      some { s with replica := { s.replica with
        handlerRole := .leader, handlerProposalId := s.status.proposalId } }
    else none
  | .closeHandler =>
    if s.replica.inFlight = [] then
      some { s with replica := { s.replica with handlerRole := .follower } }
    else none
  | .read isLeader => s.read isLeader

def run (ok : AppliedState → Act → Prop) [∀ s, DecidablePred (ok s)] (s : AppliedState) :
    List Act → Option AppliedState
  | [] => some s
  | a :: as => if ok s a then (s.step a).bind fun s' => s'.run ok as else none

def AwaitsAppend : Prop :=
  match s.pc with
  | .waitAppendSync _ appends => ∃ e ∈ appends, e ∈ s.replica.inFlight.map Prod.fst
  | _ => False

structure Init (s : AppliedState) : Prop where
  palf : s.replica.palf.Init
  handlerRole : s.replica.handlerRole = .follower
  handlerProposalId : s.replica.handlerProposalId ≤ s.replica.palf.proposalId
  inFlight : s.replica.inFlight = []
  status : s.replica.status = .init
  reporting : s.replica.reporting = none
  pc : s.pc = .idle
  results : s.results = []

end AppliedState

/-- A replica with its role changes and the calls of `get_max_applied_scn`, in which all steps meet
`ok`. -/
def appliedScn (ok : AppliedState → AppliedState.Act → Prop) : Machine AppliedState where
  init := AppliedState.Init
  step s s' := ∃ a, ok s a ∧ s.step a = some s'

theorem AppliedState.run_reachable {ok : AppliedState → AppliedState.Act → Prop}
    [∀ s, DecidablePred (ok s)] {as s s'}
    (hs : (appliedScn ok).Reachable s) (h : s.run ok as = some s') :
    (appliedScn ok).Reachable s' :=
  hs.of_run (g := fun s a => if ok s a then s.step a else none) h (fun _ => rfl)
    (fun s a _ => by rw [run]; split <;> rfl) fun _ a _ ha =>
    ⟨a, Option.ite_none_right_eq_some.mp ha⟩

/-! ## Role changes -/

namespace AppliedState

variable (s : AppliedState)

/-- What the role change service sees to before it makes the apply status a follower: the log
handler cannot append any more, and all appends have pushed their callbacks. -/
def AppendsDone : Prop := s.replica.inFlight = [] ∧ ¬ s.replica.AppendOpen
  deriving Decidable

/-- A report has covered the log the term began with. -/
def TermReported : Prop :=
  scnIsValid s.status.palfCommittedEndScn ∧
    ∀ n ∈ s.replica.palf.termStart s.status.proposalId,
      s.replica.palf.endLsnAt n ≤ s.status.palfCommittedEndLsn
  deriving Decidable

/-- A leader becomes follower only with `p`. -/
def FollowerIf (p : AppliedState → Prop) (s : AppliedState) : Act → Prop
  | .switchToFollower => s.status.role = .leader → p s
  | _ => True

instance (p : AppliedState → Prop) [DecidablePred p] (s : AppliedState) :
    DecidablePred (FollowerIf p s)
  | .switchToFollower => inferInstanceAs (Decidable (_ → _))
  | .replica _ | .switchToLeader _ | .openHandler | .closeHandler | .read _ => .isTrue trivial

end AppliedState

end OceanBase.Apply
