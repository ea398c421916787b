import OceanBase.Lib.Machine

/-!
# Table locks on one object

An object's locks (`ObOBJLock`) are counters for the locks that DML statements take in the two row
modes, and for each of the five modes a list of the other locks, which also holds the records of
transactions that are about to unlock. A transaction keeps the locks it took in a list of its own
(`ObLockMemCtx`). A request is checked against the modes that others hold, found by subtracting from
each mode's count what the transaction holds itself.

A lock inside a transaction is released by its end or by a rollback to a savepoint. A lock outside
of transactions (`OUT_TRANS_LOCK`) stays when its transaction commits, until a transaction that
unlocks it commits. Lock and unlock records are then compacted away.

Requests, removals and status updates run under the object's latch, and each is one step. The status
update of an unlock record and the compaction that follows it take the latch separately, so they are
two steps. A transaction that rolls back or ends does so lock by lock. An object without locks may
be dropped and created anew, which gives it another number; a compaction that is still to come does
nothing to the new object.
-/

namespace OceanBase.Tablelock

/-! ## Modes -/

inductive LockMode
  | rowShare
  | rowExclusive
  | share
  | shareRowExclusive
  | exclusive
  deriving DecidableEq

/-- The mode as a set of bits. `SHARE_ROW_EXCLUSIVE` is `SHARE | ROW_EXCLUSIVE`. -/
def LockMode.bits : LockMode → ℕ
  | .rowShare => 0x8
  | .rowExclusive => 0x4
  | .share => 0x2
  | .shareRowExclusive => 0x6
  | .exclusive => 0x1

/-- The compatibility matrix, as the table over the code has it. -/
def LockMode.compatible : LockMode → LockMode → Bool
  | .exclusive, _ => false
  | _, .exclusive => false
  | .rowShare, _ => true
  | _, .rowShare => true
  | .rowExclusive, .rowExclusive => true
  | .share, .share => true
  | _, _ => false

/-- `compatibility_matrix`, one row of bits for each of `EXCLUSIVE`, `SHARE`, `ROW EXCLUSIVE`, `ROW
SHARE` -/
def compatibilityMatrix : List ℕ := [0x0, 0xa, 0xc, 0xe]

/-- The loop of `request_lock` over the bits of the current mode. -/
def requestLockLoop : List ℕ → ℕ → ℕ → ℕ
  | [], _, compat => compat
  | row :: rows, currLock, compat =>
    if currLock > 0 ∧ compat > 0 then
      requestLockLoop rows (currLock / 2) (if currLock % 2 = 1 then compat &&& row else compat)
    else compat

def requestLock (currLock newLock : ℕ) : Bool :=
  currLock < 0xf ∧ newLock < 0xf ∧
    newLock = requestLockLoop compatibilityMatrix currLock 0xf &&& newLock

/-! ## Lock operations -/

inductive OpType
  | inTransDmlLock
  | outTransLock
  | outTransUnlock
  | inTransCommonLock
  deriving DecidableEq

inductive OpStatus
  | doing
  | complete
  deriving DecidableEq

/-- `ObTableLockOp` on the object. -/
structure TableLockOp where
  lockMode : LockMode
  ownerId : ℕ
  createTransId : ℕ
  opType : OpType
  lockSeqNo : ℕ
  branch : ℕ
  lockOpStatus : OpStatus
  deriving DecidableEq

namespace TableLockOp

/-- `need_record_lock_op`: all but DML locks in the row modes have a node in a list. -/
def needRecordLockOp (op : TableLockOp) : Bool :=
  match op.opType with
  | .outTransLock | .outTransUnlock | .inTransCommonLock => true
  | .inTransDmlLock =>
    match op.lockMode with
    | .share | .shareRowExclusive | .exclusive => true
    | .rowShare | .rowExclusive => false

/-- What removals and status updates find a node by, inside the list of its mode. -/
def sameNode (curr op : TableLockOp) : Bool :=
  curr.createTransId = op.createTransId ∧ curr.ownerId = op.ownerId ∧ curr.opType = op.opType

def isCompleteOuttransLock (op : TableLockOp) : Bool :=
  op.opType = .outTransLock ∧ op.lockOpStatus = .complete

def isCompleteOuttransUnlock (op : TableLockOp) : Bool :=
  op.opType = .outTransUnlock ∧ op.lockOpStatus = .complete

end TableLockOp

/-- The codes that checks return. -/
inductive Ret
  | success
  /-- `OB_TRY_LOCK_ROW_CONFLICT` -/
  | tryLockRowConflict
  /-- `OB_OBJ_LOCK_EXIST` -/
  | objLockExist
  /-- `OB_OBJ_LOCK_NOT_EXIST` -/
  | objLockNotExist
  /-- `OB_OBJ_LOCK_NOT_COMPLETED` -/
  | objLockNotCompleted
  /-- `OB_OBJ_UNLOCK_CONFLICT` -/
  | objUnlockConflict
  /-- `OB_ERR_UNEXPECTED` -/
  | errUnexpected
  deriving DecidableEq

/-- `check_op_allow_lock_from_list_`, from a node on. `dbms` says that the object is a
`DBMS_LOCK`. -/
def checkOpAllowLockFromList (dbms : Bool) (op : TableLockOp) : List TableLockOp → Ret → Ret
  | [], ret => ret
  | curr :: rest, ret =>
    match op.opType with
    | .inTransDmlLock | .inTransCommonLock =>
      if curr.createTransId = op.createTransId ∧
          (curr.opType = .inTransDmlLock ∨ curr.opType = .inTransCommonLock) then
        if dbms then checkOpAllowLockFromList dbms op rest .objLockExist
        else if curr.lockOpStatus ≠ .doing then .errUnexpected
        else checkOpAllowLockFromList dbms op rest ret
      else checkOpAllowLockFromList dbms op rest ret
    | .outTransLock =>
      if curr.ownerId = op.ownerId then
        match curr.opType with
        | .outTransLock =>
          match curr.lockOpStatus with
          | .doing => .tryLockRowConflict
          | .complete => checkOpAllowLockFromList dbms op rest .objLockExist
        | .outTransUnlock => .tryLockRowConflict
        | .inTransCommonLock =>
          if curr.createTransId = op.createTransId then checkOpAllowLockFromList dbms op rest ret
          else .errUnexpected
        | .inTransDmlLock => .errUnexpected
      else checkOpAllowLockFromList dbms op rest ret
    | .outTransUnlock => .errUnexpected

/-- The loop of `check_op_allow_unlock_from_list_`, which stops at the first error. -/
def checkOpAllowUnlockLoop (op : TableLockOp) : List TableLockOp → Bool → Ret
  | [], lockExist => if lockExist then .success else .objLockNotExist
  | curr :: rest, lockExist =>
    if curr.ownerId = op.ownerId then
      match curr.lockOpStatus, curr.opType with
      | .doing, .outTransLock => .objLockNotCompleted
      | .doing, .outTransUnlock => .objUnlockConflict
      | .doing, _ => .errUnexpected
      | .complete, .outTransUnlock => .objLockNotExist
      | .complete, .outTransLock => checkOpAllowUnlockLoop op rest true
      | .complete, _ => .errUnexpected
    else checkOpAllowUnlockLoop op rest lockExist

def checkOpAllowUnlockFromList (op : TableLockOp) (opList : List TableLockOp) : Ret :=
  checkOpAllowUnlockLoop op opList false

/-! ## The locks of the object -/

/-- `ObOBJLock`. A list that is not there is an empty one. -/
structure ObOBJLock where
  rowShare : ℤ := 0
  rowExclusive : ℤ := 0
  map : LockMode → List TableLockOp := fun _ => []
  /-- Which object this is: an empty one may be deleted and another one created. -/
  number : ℕ := 0

namespace ObOBJLock

variable (o : ObOBJLock)

def counter : LockMode → ℤ
  | .rowShare => o.rowShare
  | .rowExclusive => o.rowExclusive
  | .share | .shareRowExclusive | .exclusive => 0

def existLockModeCntWithoutCurrTrans (cnt : LockMode → ℕ) (m : LockMode) : ℤ :=
  (o.map m).length - cnt m + o.counter m

/-- The modes that others should not have while the transaction has this one. -/
def othersShouldNotHave : LockMode → List LockMode
  | .rowShare => [.exclusive]
  | .rowExclusive => [.share, .shareRowExclusive, .exclusive]
  | .share => [.rowExclusive, .shareRowExclusive, .exclusive]
  | .shareRowExclusive => [.rowExclusive, .share, .shareRowExclusive, .exclusive]
  | .exclusive => [.rowShare, .rowExclusive, .share, .shareRowExclusive, .exclusive]

/-- The five modes. -/
def lockModes : List LockMode := [.rowShare, .rowExclusive, .share, .shareRowExclusive, .exclusive]

/-- `get_exist_lock_mode_without_curr_trans`; nothing if the counts are wrong. -/
def existLockModeWithoutCurrTrans (cnt : LockMode → ℕ) : Option ℕ :=
  let others := o.existLockModeCntWithoutCurrTrans cnt
  if lockModes.any fun m => others m < 0 then none
  else if lockModes.any fun m => cnt m > 0 && (othersShouldNotHave m).any fun m' =>
    others m' > 0 then none
  else some (lockModes.foldl (fun bits m => bits ||| if others m = 0 then 0 else m.bits) 0)

def checkAllowLock (dbms : Bool) (op : TableLockOp) (cnt : LockMode → ℕ) : Ret :=
  let ret := if op.needRecordLockOp then
    checkOpAllowLockFromList dbms op (o.map op.lockMode) .success else .success
  if ret ≠ .success then ret
  else match o.existLockModeWithoutCurrTrans cnt with
    | none => .errUnexpected
    | some currLock =>
      if requestLock currLock op.lockMode.bits then .success else .tryLockRowConflict

def setList (m : LockMode) (l : List TableLockOp) : ObOBJLock :=
  { o with map := Function.update o.map m l }

def addCounter (m : LockMode) (k : ℤ) : ObOBJLock :=
  match m with
  | .rowShare => { o with rowShare := o.rowShare + k }
  | .rowExclusive => { o with rowExclusive := o.rowExclusive + k }
  | .share | .shareRowExclusive | .exclusive => o

/-- Records an operation: `try_fast_lock_` counts, `slow_lock` and `unlock_` append a node. -/
def record (op : TableLockOp) : ObOBJLock :=
  if op.needRecordLockOp then o.setList op.lockMode (o.map op.lockMode ++ [op])
  else o.addCounter op.lockMode 1

/-- `remove_lock_op`, with `delete_lock_op_from_list_` -/
def removeLockOp (op : TableLockOp) : ObOBJLock :=
  if op.needRecordLockOp then
    o.setList op.lockMode ((o.map op.lockMode).filter fun curr => !curr.sameNode op)
  else o.addCounter op.lockMode (-1)

end ObOBJLock

/-- `update_lock_status_`: the first node that matches becomes complete. -/
def updateLockStatusInList (op : TableLockOp) : List TableLockOp → Option (List TableLockOp)
  | [] => none
  | curr :: rest =>
    if curr.sameNode op then some ({ curr with lockOpStatus := .complete } :: rest)
    else (updateLockStatusInList op rest).map (curr :: ·)

/-- The first critical section of `update_lock_status`, or nothing if it fails. -/
def ObOBJLock.updateLockStatus (o : ObOBJLock) (op : TableLockOp) : Option ObOBJLock :=
  (updateLockStatusInList op (o.map op.lockMode)).map (o.setList op.lockMode)

/-- The lock and the unlock operation that `compact_tablelock_` finds. -/
def findForCompact (unlockOp : TableLockOp) :
    List TableLockOp → Option TableLockOp → Option TableLockOp →
    Option TableLockOp × Option TableLockOp
  | [], lockPtr, unlockPtr => (lockPtr, unlockPtr)
  | curr :: rest, lockPtr, unlockPtr =>
    if curr.ownerId = unlockOp.ownerId ∧ curr.lockMode = unlockOp.lockMode then
      let lockPtr := if curr.isCompleteOuttransLock then some curr else lockPtr
      let unlockPtr := if curr.isCompleteOuttransUnlock then some curr else unlockPtr
      if lockPtr.isSome ∧ unlockPtr.isSome then (lockPtr, unlockPtr)
      else findForCompact unlockOp rest lockPtr unlockPtr
    else findForCompact unlockOp rest lockPtr unlockPtr

def removeNode (l : List TableLockOp) (ptr : Option TableLockOp) : List TableLockOp :=
  match ptr with
  | none => l
  | some curr => l.erase curr

def compactTablelockInList (unlockOp : TableLockOp) (isForce : Bool) (l : List TableLockOp) :
    List TableLockOp :=
  let found := findForCompact unlockOp l none none
  if found.1.isSome ∨ isForce then removeNode (removeNode l found.1) found.2
    else removeNode l found.1

/-- `compact_tablelock_` in the list of the operation's mode -/
def ObOBJLock.compactTablelock (o : ObOBJLock) (unlockOp : TableLockOp) (isForce : Bool) :
    ObOBJLock :=
  o.setList unlockOp.lockMode (compactTablelockInList unlockOp isForce (o.map unlockOp.lockMode))

/-! ## Transactions -/

/-- What a transaction is doing with its locks. -/
inductive Phase
  | running
  /-- `rollback_table_lock_`, with the locks that are still to be removed -/
  | rollingBack (todo : List TableLockOp)
  /-- `abort_table_lock_` -/
  | aborting
  /-- `commit_table_lock_` -/
  | committing
  /-- Between the two critical sections of `update_lock_status`, with the object of the first
  one. -/
  | compacting (unlockOp : TableLockOp) (number : ℕ)
  | ended
  deriving DecidableEq

/-- `ObLockMemCtx`, as far as the object is concerned. -/
structure ObLockMemCtx where
  lockList : List TableLockOp := []
  phase : Phase := .running

def lockModeCntInSameTrans (lockList : List TableLockOp) (m : LockMode) : ℕ :=
  lockList.countP fun curr => curr.lockMode = m

def checkLockExist (dbms : Bool) (lockList : List TableLockOp) (op : TableLockOp) : Bool :=
  lockList.any fun curr => curr.ownerId = op.ownerId ∧ curr.opType = op.opType ∧
    curr.lockOpStatus = .doing ∧ (dbms ∨ curr.lockMode = op.lockMode)

/-- What `rollback_table_lock_` removes. -/
def inScope (toSeqNo toBranch fromSeqNo : ℕ) (op : TableLockOp) : Bool :=
  toSeqNo < op.lockSeqNo ∧ op.lockSeqNo ≤ fromSeqNo ∧ (toBranch = 0 ∨ op.branch = toBranch)

structure State where
  obj : ObOBJLock := {}
  ctx : ℕ → ObLockMemCtx := fun _ => {}
  /-- The locks that were granted and have not been released. -/
  granted : List TableLockOp := []

namespace State

variable (s : State)

def setCtx (t : ℕ) (c : ObLockMemCtx) : State := { s with ctx := Function.update s.ctx t c }

def setPhase (t : ℕ) (p : Phase) : State := s.setCtx t { s.ctx t with phase := p }

/-- Records an operation in the object and in its transaction. -/
def record (op : TableLockOp) : State :=
  { s.setCtx op.createTransId
      { s.ctx op.createTransId with lockList := (s.ctx op.createTransId).lockList ++ [op] } with
    obj := s.obj.record op }

def lock (dbms : Bool) (op : TableLockOp) : State :=
  let lockList := (s.ctx op.createTransId).lockList
  if checkLockExist dbms lockList op then s
  else if s.obj.checkAllowLock dbms op (lockModeCntInSameTrans lockList) = .success then
    { s.record op with granted := s.granted ++ [op] }
  else s

def unlock (dbms : Bool) (op : TableLockOp) : State :=
  if checkLockExist dbms (s.ctx op.createTransId).lockList op then s
  else if checkOpAllowUnlockFromList op (s.obj.map op.lockMode) = .success then s.record op
  else s

/-- `remove_lock_record` for a lock in the list of its transaction, which goes on with the phase.
The lock is released. -/
def remove (op : TableLockOp) (p : Phase) : State :=
  { s.setCtx op.createTransId ⟨(s.ctx op.createTransId).lockList.erase op, p⟩ with
    obj := s.obj.removeLockOp op
    granted := s.granted.filter fun g => !(g.sameNode op && g.lockMode = op.lockMode) }

/-- The commit of an operation outside of transactions. An unlock operation releases the lock of its
owner and mode, and has a compaction ahead. The loop over the list ends if the update fails. -/
def complete (op : TableLockOp) : State :=
  let lockList := (s.ctx op.createTransId).lockList.erase op
  match s.obj.updateLockStatus op with
  | none => s.setCtx op.createTransId ⟨lockList, .ended⟩
  | some obj =>
    if op.opType = .outTransUnlock then
      { s.setCtx op.createTransId ⟨lockList, .compacting op obj.number⟩ with
        obj := obj
        granted := s.granted.filter fun g =>
          !(g.opType = .outTransLock && g.ownerId = op.ownerId && g.lockMode = op.lockMode) }
    else { s.setCtx op.createTransId ⟨lockList, .committing⟩ with obj := obj }

/-- One iteration of a transaction's loop over its locks. -/
def work (t : ℕ) : State :=
  match (s.ctx t).phase with
  | .rollingBack (op :: todo) => s.remove op (.rollingBack todo)
  | .rollingBack [] => s.setPhase t .running
  | .aborting =>
    match (s.ctx t).lockList with
    | [] => s.setPhase t .ended
    | op :: _ => s.remove op .aborting
  | .committing =>
    match (s.ctx t).lockList with
    | [] => s.setPhase t .ended
    | op :: _ =>
      match op.opType with
      | .inTransDmlLock | .inTransCommonLock => s.remove op .committing
      | .outTransLock | .outTransUnlock => s.complete op
  | .compacting unlockOp number =>
    let s' := s.setPhase t .committing
    if number = s.obj.number then { s' with obj := s.obj.compactTablelock unlockOp false } else s'
  | .running | .ended => s

/-- One iteration of the compaction of a list: with the first complete unlock operation. -/
def compact (m : LockMode) (isForce : Bool) : State :=
  match (s.obj.map m).find? (·.isCompleteOuttransUnlock) with
  | none => s
  | some unlockOp => { s with obj := s.obj.compactTablelock unlockOp isForce }

end State

inductive Act
  /-- A request of a transaction for a lock or, with `outTransUnlock`, to unlock. -/
  | request (t : ℕ) (m : LockMode) (owner : ℕ) (opType : OpType) (seqNo branch : ℕ)
  /-- The beginning of a rollback to a savepoint. -/
  | rollback (t toSeqNo toBranch fromSeqNo : ℕ)
  | abort (t : ℕ)
  | commit (t : ℕ)
  | work (t : ℕ)
  | compact (m : LockMode) (isForce : Bool)
  /-- `drop_obj_lock_if_empty_` -/
  | drop

def requestOp (t : ℕ) (m : LockMode) (owner : ℕ) (opType : OpType) (seqNo branch : ℕ) :
    TableLockOp :=
  ⟨m, owner, t, opType, seqNo, branch, .doing⟩

/-- The transaction can make requests, roll back and end. -/
def Phase.isRunning : Phase → Bool
  | .running => true
  | _ => false

def ObOBJLock.isEmpty (o : ObOBJLock) : Bool :=
  (ObOBJLock.lockModes.all fun m => (o.map m).isEmpty) && o.rowShare = 0 && o.rowExclusive = 0

/-- One step. Requests that fail change nothing. -/
def State.step (dbms : Bool) (s : State) : Act → Option State
  | .request t m owner opType seqNo branch =>
    if (s.ctx t).phase.isRunning then
      let op := requestOp t m owner opType seqNo branch
      if opType = .outTransUnlock then some (s.unlock dbms op) else some (s.lock dbms op)
    else none
  | .rollback t toSeqNo toBranch fromSeqNo =>
    if (s.ctx t).phase.isRunning then
      some (s.setPhase t (.rollingBack
        ((s.ctx t).lockList.filter (inScope toSeqNo toBranch fromSeqNo))))
    else none
  | .abort t => if (s.ctx t).phase.isRunning then some (s.setPhase t .aborting) else none
  | .commit t => if (s.ctx t).phase.isRunning then some (s.setPhase t .committing) else none
  | .work t => some (s.work t)
  | .compact m isForce => some (s.compact m isForce)
  | .drop => if s.obj.isEmpty then some { s with obj := { number := s.obj.number + 1 } } else none

/-- The transactions on an object that nobody has locked. -/
def tableLocks (dbms : Bool) : Machine State where
  init s := s = {}
  step s s' := ∃ a, s.step dbms a = some s'

def State.run (dbms : Bool) (s : State) : List Act → Option State
  | [] => some s
  | a :: as => (s.step dbms a).bind fun s' => s'.run dbms as

theorem State.run_reachable {dbms as} : ∀ {s s'},
    (tableLocks dbms).Reachable s → s.run dbms as = some s' → (tableLocks dbms).Reachable s' :=
  fun hs h => hs.of_run h (fun _ => rfl) (fun _ _ _ => rfl) fun _ a _ ha => ⟨a, ha⟩

end OceanBase.Tablelock
