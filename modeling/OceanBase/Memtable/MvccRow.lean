import OceanBase.Lib.Chain
import OceanBase.Lib.Machine

/-!
# Writing a row of a memtable

The versions of a row are the nodes of a chain, the newest one at its head. An undecided node is a
lock: `mvcc_write` puts a new node above the head only if the head is committed or the writer's own.
A node is decided by its callback when its transaction commits, aborts or rolls back to a savepoint;
a node whose callback has been removed is decided by whoever meets it, from the transaction table.

Every latch section of the row and every load of one of its two versions is one step. The callbacks
that end or roll back a transaction run while it has no write in progress, which `pending_write_`
ensures.
-/

namespace OceanBase.Memtable

open Function

/-! ## The row -/

inductive ObDmlFlag where
  | lock
  | insert
  | update
  | delete
  deriving DecidableEq

def ObDmlFlag.exists_ : ObDmlFlag → Bool
  | .lock | .insert | .update => true
  | .delete => false

structure TransNode where
  txId : ℕ
  seqNo : ℕ
  dmlFlag : ObDmlFlag
  committed : Bool := false
  aborted : Bool := false
  delayedCleanout : Bool := false
  transVersion : ℕ := 0

def TransNode.undecided (x : TransNode) : Bool :=
  !x.committed && !x.aborted

/-- A rollback to the savepoint `toSeq` undoes what was written after it, up to `fromSeq`. -/
structure ObUndoAction where
  fromSeq : ℕ
  toSeq : ℕ

/-- The state of a transaction in the transaction table. -/
inductive TxState where
  | running
  | commit (version : ℕ)
  | abort
  deriving DecidableEq

/-- What the transaction table knows of a transaction. -/
structure TxData where
  state : TxState
  undo : List ObUndoAction

/-- `is_contain` of the undo status list. -/
def TxData.isContain (d : TxData) (seqNo : ℕ) : Bool :=
  d.undo.any fun u => u.toSeq < seqNo && seqNo ≤ u.fromSeq

/-- A row: the pointers of its chain, its nodes and its versions. -/
structure ObMvccRow where
  links : Links ℕ
  node : ℕ → TransNode
  maxTransVersion : ℕ
  maxElrTransVersion : ℕ
  totalTransNodeCnt : ℤ

namespace ObMvccRow

section

variable (r : ObMvccRow)

def setNode (n : ℕ) (x : TransNode) : ObMvccRow :=
  { r with node := update r.node n x }

/-- `unlink_trans_node`, which fails for a node outside the chain. -/
def unlinkTransNode (n : ℕ) : Option ObMvccRow :=
  (r.links.unlink n).map fun L =>
    { r with links := L, totalTransNodeCnt := r.totalTransNodeCnt - 1 }

def transCommit (version : ℕ) : ObMvccRow :=
  { r with maxTransVersion := max r.maxTransVersion version
           maxElrTransVersion := max r.maxElrTransVersion version }

/-- A commit is written back to a node. A lock is gone with its transaction. -/
def commitNode (n version : ℕ) : ObMvccRow :=
  let r := (r.transCommit version).setNode n
    { r.node n with transVersion := version, committed := true }
  if (r.node n).dmlFlag = .lock then (r.unlinkTransNode n).getD r else r

/-- An abort is written back to a node, which is unlinked. -/
def abortNode (n : ℕ) : ObMvccRow :=
  let r := r.setNode n { r.node n with aborted := true }
  (r.unlinkTransNode n).getD r

end

/-- `ObCleanoutTxNodeOperation`: the state of an undecided node without a callback is taken from the
transaction table. -/
def cleanout (tx : ℕ → TxData) (r : ObMvccRow) (n : ℕ) : ObMvccRow :=
  let x := r.node n
  let d := tx x.txId
  if x.undecided && x.delayedCleanout then
    if d.isContain x.seqNo then
      match r.unlinkTransNode n with
      | none => r
      | some r => r.setNode n { x with aborted := true }
    else match d.state with
      | .running => r
      | .commit version => r.commitNode n version
      | .abort =>
        match r.unlinkTransNode n with
        | none => r
        | some r => r.setNode n { x with aborted := true }
  else r

end ObMvccRow

/-! ## The write -/

/-- The flags of a write that `check_sequence_set_violation` looks at. -/
structure ObWriteFlag where
  isTableApi : Bool := false
  isDmlBatchOpt : Bool := false
  isInsertUp : Bool := false
  isWriteOnlyIndex : Bool := false

/-- A call of `mvcc_write`: the writer, its snapshot and what it writes. -/
structure WriteArg where
  txId : ℕ
  snapshotVersion : ℕ
  readerSeqNo : ℕ
  seqNo : ℕ
  dmlFlag : ObDmlFlag
  writeFlag : ObWriteFlag := {}

inductive WriteError where
  | transactionSetViolation
  | tryLockRowConflict
  | primaryKeyDuplicate
  | batchedMultiStmtRollback
  | seqNoReorderUnderPdml
  | errUnexpected
  deriving DecidableEq

/-- The part of `ObMvccWriteResult` that the write goes on with. -/
structure WriteResult where
  canInsert : Bool
  needInsert : Bool
  /-- the exist flag is `EXIST` -/
  rowExist : Bool
  /-- the node that was put into the chain -/
  txNode : Option ℕ := none

/-- The first part of `check_sequence_set_violation`, for a statement that reads before the last
write of its own transaction. -/
def checkReaderSeqNo (flag : ObWriteFlag) (writer locker : ObDmlFlag) : Option WriteError :=
  if writer = .insert ∧ (locker = .insert ∨ locker = .update) then some .primaryKeyDuplicate
  else if locker = .lock then none
  else if writer = .insert ∧ locker = .delete then none
  else if (writer = .update ∨ writer = .delete) ∧ locker = .insert then none
  else if flag.isTableApi then none
  else if writer = .delete ∧ locker = .delete then none
  else if flag.isDmlBatchOpt then some .batchedMultiStmtRollback
  else if flag.isInsertUp then none
  else if flag.isWriteOnlyIndex then some .primaryKeyDuplicate
  else some .errUnexpected

/-- `check_sequence_set_violation` against the head of the chain. -/
def checkSequenceSetViolation (q : WriteArg) (head : TransNode) : Option WriteError :=
  if q.txId = head.txId then
    match if q.readerSeqNo < head.seqNo then checkReaderSeqNo q.writeFlag q.dmlFlag head.dmlFlag
      else none with
    | some e => some e
    | none => if q.seqNo < head.seqNo then some .seqNoReorderUnderPdml else none
  else none

/-- `check_double_insert_` against the head of the chain. -/
def checkDoubleInsert (q : WriteArg) (head : TransNode) : Option WriteError :=
  if q.dmlFlag = .insert ∧ head.dmlFlag ≠ .delete ∧ head.committed = true ∧
      head.transVersion ≤ q.snapshotVersion then some .primaryKeyDuplicate
  else none

namespace ObMvccRow

/-- The loop of `mvcc_write_`: the newest node that counts decides whether the writer may insert.
The number bounds the nodes it may have to pass. -/
def mvccWriteLoop (tx : ℕ → TxData) (q : WriteArg) :
    ℕ → ObMvccRow → Option ℕ → Option (ObMvccRow × WriteResult)
  | _, r, none => some (r, { canInsert := true, needInsert := true, rowExist := false })
  | 0, _, some _ => none
  | k + 1, r, some iter =>
    let r := if (r.node iter).delayedCleanout && (r.node iter).undecided then
      r.cleanout tx iter else r
    let x := r.node iter
    if x.committed then
      some (r, { canInsert := true, needInsert := true, rowExist := x.dmlFlag.exists_ })
    else if x.aborted then mvccWriteLoop tx q k r (r.links.prev iter)
    else if x.txId = q.txId then
      some (r, {
        canInsert := true, needInsert := q.dmlFlag ≠ .lock, rowExist := x.dmlFlag.exists_ })
    else some (r, { canInsert := false, needInsert := false, rowExist := x.dmlFlag.exists_ })

def insertNode (r : ObMvccRow) (n : ℕ) (q : WriteArg) : ObMvccRow :=
  { r with links := r.links.push n
           node := update r.node n
             { txId := q.txId, seqNo := q.seqNo, dmlFlag := q.dmlFlag }
           totalTransNodeCnt := r.totalTransNodeCnt + 1 }

/-- `mvcc_write_` with `n` as the new node. -/
def mvccWriteLatched (tx : ℕ → TxData) (n : ℕ) (q : WriteArg) (r : ObMvccRow) :
    Option (ObMvccRow × Except WriteError WriteResult) :=
  (mvccWriteLoop tx q (n + 1) r r.links.head).map fun (r, res) =>
    if res.canInsert && res.needInsert then
      match r.links.head.bind fun h => checkSequenceSetViolation q (r.node h) with
      | some e => (r, .error e)
      | none =>
        match r.links.head.bind fun h => checkDoubleInsert q (r.node h) with
        | some e => (r, .error e)
        | none => (r.insertNode n q, .ok { res with txNode := some n })
    else (r, .ok res)

def mvccUndo (r : ObMvccRow) : ObMvccRow :=
  match r.links.head with
  | none => r
  | some iter =>
    { r.setNode iter { r.node iter with aborted := true } with
      links := r.links.pop, totalTransNodeCnt := r.totalTransNodeCnt - 1 }

end ObMvccRow

/-! ## Interleavings -/

inductive WritePc where
  | idle
  /-- the check before the latch section -/
  | loadTrans (q : WriteArg)
  | loadElr (q : WriteArg)
  | latch (q : WriteArg)
  /-- the check after it -/
  | reloadTrans (q : WriteArg) (res : WriteResult)
  | reloadElr (q : WriteArg) (res : WriteResult)
  | undo (q : WriteArg) (res : WriteResult) (e : WriteError)

/-- A return of `mvcc_write`: the call, the node it had put into the chain and the result. -/
structure WriteReturn where
  arg : WriteArg
  txNode : Option ℕ
  error : Option WriteError

/-- A row, the transactions and their writes. The nodes are numbered in the order in which they were
linked. -/
structure RowState where
  row : ObMvccRow
  tx : ℕ → TxData
  /-- the node has a callback -/
  cb : ℕ → Bool
  nodeCnt : ℕ
  /-- the snapshot version of the write that linked the node -/
  snapshot : ℕ → ℕ
  /-- the node was rolled back, or taken out again by the failed write that linked it -/
  removed : ℕ → Bool
  pc : ℕ → WritePc

inductive RowAct where
  | write (q : WriteArg)
  | run (txId : ℕ)
  | commitTx (txId version : ℕ)
  | abortTx (txId : ℕ)
  | undo (txId : ℕ) (u : ObUndoAction)
  | transCommit (n : ℕ)
  | transAbort (n : ℕ)
  | rollbackCallback (n : ℕ)
  | removeCallback (n : ℕ)
  | cleanout (n : ℕ)

namespace RowState

def Idle (s : RowState) (txId : ℕ) : Bool :=
  match s.pc txId with
  | .idle => true
  | _ => false

def undone (s : RowState) (n : ℕ) : Bool :=
  (s.tx (s.row.node n).txId).isContain (s.row.node n).seqNo

/-- The callbacks of what a transaction has undone have run. -/
def RolledBack (s : RowState) (txId : ℕ) : Prop :=
  ∀ n < s.nodeCnt, s.cb n = true → (s.row.node n).txId = txId → s.undone n = false

instance (s : RowState) (txId : ℕ) : Decidable (s.RolledBack txId) :=
  inferInstanceAs (Decidable (∀ n < s.nodeCnt, _))

section

variable (s : RowState)

def setTx (txId : ℕ) (d : TxData) : RowState :=
  { s with tx := update s.tx txId d }

def setPc (txId : ℕ) (pc : WritePc) : RowState :=
  { s with pc := update s.pc txId pc }

/-- The call returns. A node that stays in the chain gets its callback. -/
def return_ (q : WriteArg) (txNode : Option ℕ) (error : Option WriteError) :
    RowState × Option WriteReturn :=
  let s := s.setPc q.txId .idle
  (match error, txNode with
    | none, some n => { s with cb := update s.cb n true }
    | _, _ => s,
   some ⟨q, txNode, error⟩)

/-- A call that has found an error takes its node out of the chain again, if there is one. -/
def fail (q : WriteArg) (res : WriteResult) (e : WriteError) :
    RowState × Option WriteReturn :=
  if res.txNode.isSome then (s.setPc q.txId (.undo q res e), none)
  else s.return_ q none (some e)

def runWrite (txId : ℕ) : Option (RowState × Option WriteReturn) :=
  match s.pc txId with
  | .idle => none
  | .loadTrans q =>
    if q.snapshotVersion < s.row.maxTransVersion then
      some (s.return_ q none (some .transactionSetViolation))
    else some (s.setPc q.txId (.loadElr q), none)
  | .loadElr q =>
    if q.snapshotVersion < s.row.maxElrTransVersion then
      some (s.return_ q none (some .transactionSetViolation))
    else some (s.setPc q.txId (.latch q), none)
  | .latch q =>
    (s.row.mvccWriteLatched s.tx s.nodeCnt q).map fun (row, res) =>
      match res with
      | .error e => { s with row := row }.return_ q none (some e)
      | .ok res =>
        let s := { s with
          row := row
          nodeCnt := s.nodeCnt + res.txNode.toList.length
          snapshot := if res.txNode.isSome then
            update s.snapshot s.nodeCnt q.snapshotVersion else s.snapshot }
        if res.canInsert then (s.setPc q.txId (.reloadTrans q res), none)
        else s.return_ q none (some .tryLockRowConflict)
  | .reloadTrans q res =>
    if q.snapshotVersion < s.row.maxTransVersion then some (s.fail q res .transactionSetViolation)
    else some (s.setPc q.txId (.reloadElr q res), none)
  | .reloadElr q res =>
    if q.snapshotVersion < s.row.maxElrTransVersion then
      some (s.fail q res .transactionSetViolation)
    else if q.dmlFlag = .insert ∧ res.rowExist = true then some (s.fail q res .primaryKeyDuplicate)
    else some (s.return_ q res.txNode none)
  | .undo q res e =>
    some ({ s with row := s.row.mvccUndo
                   removed := fun n => s.removed n || res.txNode = some n }.return_ q res.txNode
                     (some e))

/-- One step. A write begins when the rollback before it is complete, and no rollback covers its
sequence number. -/
def step : RowAct → Option (RowState × Option WriteReturn)
  | .write q =>
    if (s.tx q.txId).state = .running ∧ s.Idle q.txId = true ∧ s.RolledBack q.txId ∧
        (s.tx q.txId).isContain q.seqNo = false then
      some (s.setPc q.txId (.loadTrans q), none)
    else none
  | .run txId => s.runWrite txId
  | .commitTx txId version =>
    if (s.tx txId).state = .running ∧ s.Idle txId = true then
      some (s.setTx txId { s.tx txId with state := .commit version }, none)
    else none
  | .abortTx txId =>
    if (s.tx txId).state = .running ∧ s.Idle txId = true then
      some (s.setTx txId { s.tx txId with state := .abort }, none)
    else none
  | .undo txId u =>
    if (s.tx txId).state = .running ∧ s.Idle txId = true then
      some (s.setTx txId { s.tx txId with undo := u :: (s.tx txId).undo }, none)
    else none
  | .transCommit n =>
    match (s.tx (s.row.node n).txId).state with
    | .commit version =>
      if n < s.nodeCnt ∧ s.cb n = true then
        some ({ s with row := s.row.commitNode n version, cb := update s.cb n false }, none)
      else none
    | _ => none
  | .transAbort n =>
    if n < s.nodeCnt ∧ s.cb n = true ∧ (s.tx (s.row.node n).txId).state = .abort then
      some ({ s with
        row := if (s.row.node n).undecided then s.row.abortNode n else s.row
        cb := update s.cb n false }, none)
    else none
  | .rollbackCallback n =>
    if n < s.nodeCnt ∧ s.cb n = true ∧ (s.tx (s.row.node n).txId).state = .running ∧
        s.Idle (s.row.node n).txId = true then
      some ({ s with row := s.row.abortNode n
                     cb := update s.cb n false
                     removed := update s.removed n true }, none)
    else none
  | .removeCallback n =>
    if n < s.nodeCnt ∧ s.cb n = true then
      some ({ s with row := s.row.setNode n { s.row.node n with delayedCleanout := true }
                     cb := update s.cb n false }, none)
    else none
  | .cleanout n =>
    if n < s.nodeCnt then some ({ s with row := s.row.cleanout s.tx n }, none) else none

end

/-- A row without versions, and transactions that have not ended and written nothing. -/
structure IsInit (s : RowState) : Prop where
  head : s.row.links.head = none
  count : s.row.totalTransNodeCnt = 0
  nodeCnt : s.nodeCnt = 0
  cb : ∀ n, s.cb n = false
  removed : ∀ n, s.removed n = false
  idle : ∀ t, s.pc t = .idle

end RowState

/-- The row under any interleaving of its writers, callbacks and cleanouts. `ok` restricts the
transaction events. -/
def mvccRow (ok : RowState → RowAct → Prop) : Machine RowState where
  init := RowState.IsInit
  step s s' := ∃ a ret, ok s a ∧ s.step a = some (s', ret)

namespace RowState

def empty : RowState where
  row :=
    { links := ⟨none, fun _ => none, fun _ => none⟩
      node := fun _ => { txId := 0, seqNo := 0, dmlFlag := .lock }
      maxTransVersion := 0
      maxElrTransVersion := 0
      totalTransNodeCnt := 0 }
  tx := fun _ => ⟨.running, []⟩
  cb := fun _ => false
  nodeCnt := 0
  snapshot := fun _ => 0
  removed := fun _ => false
  pc := fun _ => .idle

theorem empty_isInit : empty.IsInit := ⟨rfl, rfl, rfl, fun _ => rfl, fun _ => rfl, fun _ => rfl⟩

def run (ok : RowState → RowAct → Prop) [∀ s, DecidablePred (ok s)] (s : RowState) :
    List RowAct → Option RowState
  | [] => some s
  | a :: as => if ok s a then (s.step a).bind fun p => run ok p.1 as else none

theorem run_reachable {ok : RowState → RowAct → Prop} [∀ s, DecidablePred (ok s)] {s s'}
    (hs : (mvccRow ok).Reachable s) {as} (h : run ok s as = some s') :
    (mvccRow ok).Reachable s' := by
  induction as generalizing s with
  | nil => exact Option.some.inj h ▸ hs
  | cons a as ih =>
  obtain ⟨hok, h⟩ := Option.ite_none_right_eq_some.mp h
  obtain ⟨p, hp, h⟩ := Option.bind_eq_some_iff.mp h
  exact ih (hs.step ⟨a, p.2, hok, hp⟩) h

end RowState

end OceanBase.Memtable
