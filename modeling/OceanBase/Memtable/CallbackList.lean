import OceanBase.Palf.Scn

/-!
# The callbacks of a transaction

Each write of a transaction leaves a callback in `ObTxCallbackList`. On the leader a callback is
appended, is logged together with others, and gets the SCN of its log; in replay it is appended with
its SCN. Callbacks are cleaned while the transaction runs: those whose logs are synced, those of a
memtable that is released, and those of statements that are rolled back. Whatever is cleaned goes
into a running checksum first, and the list remembers how far this has come by one SCN.

All these operations walk over the list with a functor that decides for each callback whether the
walk is over, whether the callback goes into the checksum and whether it is removed. The functors
are one definition here, with their own values.

A callback that is not logged has the SCN `max_scn`. Callbacks are logged in the order of the list,
so `log_cursor_` always stands at the first callback that is not logged and is no field of the
model. The callbacks of one log share its SCN. The counters, parallel replay and a transaction that
is aborted, which calculates no checksum, are not modelled.
-/

namespace OceanBase.Memtable

open Palf

/-! ## The checksum -/

/-- `ob_crc64`: a checksum that goes on from `base` byte by byte. -/
def obCrc64 (crcByte : UInt64 → UInt8 → UInt64) (base : UInt64) (bytes : List UInt8) : UInt64 :=
  bytes.foldl crcByte base

/-- `ObBatchChecksum`: bytes are collected into blocks. -/
structure BatchChecksum where
  buffer : List UInt8
  base : UInt64

namespace BatchChecksum

variable (crcByte : UInt64 → UInt8 → UInt64) (x : BatchChecksum)

def bufferSize : ℕ := 64

def fillByte (b : UInt8) : BatchChecksum :=
  if bufferSize ≤ x.buffer.length + 1 then ⟨[], obCrc64 crcByte x.base (x.buffer ++ [b])⟩
  else ⟨x.buffer ++ [b], x.base⟩

def fill (bytes : List UInt8) : BatchChecksum := bytes.foldl (fillByte crcByte) x

def value : UInt64 := obCrc64 crcByte x.base x.buffer

def flush : BatchChecksum := ⟨[], x.value crcByte⟩

end BatchChecksum

/-! ## Callbacks and functors -/

/-- `ObITransCallback`, with the bytes it puts into the checksum. -/
structure TransCallback where
  scn : ℕ
  branch : ℕ
  seq : ℕ
  memtable : ℕ
  bytes : List UInt8
deriving DecidableEq

def TransCallback.needSubmitLog (cb : TransCallback) : Bool := cb.scn = maxScn

/-- What a walk over the callbacks carries: the checksum, the SCN it will have come to, and the
counts of callbacks to be removed and that were removed. -/
structure Walk where
  checksumer : BatchChecksum
  lastScn : ℕ
  needRemoveCount : ℤ
  removed : ℕ

/-- A functor: when the walk is over, which callbacks it refuses, which go into the checksum, which
are remembered as the last one, and which are removed. -/
structure Functor where
  isIterEnd : Walk → TransCallback → Bool
  fails : TransCallback → Bool
  takes : TransCallback → Bool
  marks : TransCallback → Bool
  removes : TransCallback → Bool

namespace Functor

variable (crcByte : UInt64 → UInt8 → UInt64) (F : Functor) (checksumScn : ℕ)

/-- A callback goes into the checksum unless it did so before. -/
def counts (cb : TransCallback) : Bool := F.takes cb && decide (checksumScn ≤ cb.scn)

/-- `operator()`, and the removal. A walk that has removed many callbacks prints the checksum. -/
def visit (w : Walk) (cb : TransCallback) : Walk :=
  let checksumer :=
    if F.counts checksumScn cb then w.checksumer.fill crcByte cb.bytes else w.checksumer
  { checksumer :=
      if F.removes cb && decide (w.removed ≠ 0) && decide (w.removed % 10000 = 0) then
        checksumer.flush crcByte
      else checksumer
    lastScn := if F.marks cb then cb.scn else w.lastScn
    needRemoveCount := w.needRemoveCount - 1
    removed := if F.removes cb then w.removed + 1 else w.removed }

/-- `ObTxCallbackList::callback_`: whether it succeeds, the end of the walk and what is left. -/
def callbackLoop : Walk → List TransCallback → Bool × Walk × List TransCallback
  | w, [] => (true, w, [])
  | w, cb :: cbs =>
    if cb.scn = minScn then (false, w, cb :: cbs)
    else if F.isIterEnd w cb then (true, w, cb :: cbs)
    else if F.fails cb then (false, w, cb :: cbs)
    else
      let rest := callbackLoop (F.visit crcByte checksumScn w cb) cbs
      (rest.1, rest.2.1, if F.removes cb then rest.2.2 else cb :: rest.2.2)

end Functor

/-- `ObRemoveCallbacksForFastCommitFunctor`: it goes on to the end of a log. -/
def fastCommitFunctor (syncScn : ℕ) : Functor where
  isIterEnd w cb :=
    cb.needSubmitLog || decide (syncScn < cb.scn) ||
      (decide (w.needRemoveCount ≤ 0) && decide (cb.scn ≠ w.lastScn))
  fails _ := false
  takes _ := true
  marks _ := true
  removes _ := true

/-- `ObRemoveSyncCallbacksWCondFunctor`, for the memtables that are released. -/
def removeMemtableFunctor (memtableSet : ℕ → Bool) (rightBound checksumScn : ℕ) : Functor where
  isIterEnd _ cb := cb.needSubmitLog || decide (cb.scn = maxScn) || decide (rightBound < cb.scn)
  fails _ := false
  takes _ := true
  marks cb := decide (checksumScn ≤ cb.scn)
  removes cb := memtableSet cb.memtable

/-- `cond_for_remove` of a rollback: the branches it is about. -/
def matchesBranch (toBranch : ℕ) (cb : TransCallback) : Bool :=
  decide (toBranch = 0) || decide (toBranch = cb.branch)

/-- `ObRemoveCallbacksWCondFunctor`, for a rollback. Callbacks that are not logged take no part in
the checksum. -/
def rollbackFunctor (toBranch toSeq fromSeq rightBound : ℕ) : Functor where
  isIterEnd _ cb := decide (rightBound < cb.scn)
  fails cb := matchesBranch toBranch cb && decide (fromSeq ≤ cb.seq)
  takes cb := !cb.needSubmitLog
  marks cb := !cb.needSubmitLog
  removes cb := matchesBranch toBranch cb && decide (toSeq < cb.seq)

def calcChecksumFunctor (targetScn : ℕ) : Functor where
  isIterEnd _ cb := decide (targetScn < cb.scn)
  fails _ := false
  takes _ := true
  marks _ := true
  removes _ := false

/-! ## The list -/

structure TxCallbackList where
  callbacks : List TransCallback
  removed : ℕ
  syncScn : ℕ
  checksumScn : ℕ
  batchChecksum : BatchChecksum
  checksum : UInt64
  tmpChecksum : UInt64
  /-- the callbacks that were ever logged -/
  everLogged : List TransCallback
  /-- the SCN of the last log -/
  lastLogScn : ℕ
  /-- the log that is being replayed -/
  replaying : Option ℕ

namespace TxCallbackList

variable (crcByte : UInt64 → UInt8 → UInt64) (s : TxCallbackList)

def init : TxCallbackList := ⟨[], 0, minScn, minScn, ⟨[], 0⟩, 0, 0, [], minScn, none⟩

/-- A checksum that is 0 is stored as 1. -/
def nonzero (c : UInt64) : UInt64 := if c = 0 then 1 else c

def ensureChecksum (scn : ℕ) : TxCallbackList :=
  if scn = minScn then s
  else if scn < s.checksumScn then s
  else if scn = maxScn then
    { s with
      checksumScn := maxScn
      checksum := nonzero (s.batchChecksum.value crcByte)
      batchChecksum := s.batchChecksum.flush crcByte }
  else
    { s with
      checksumScn := scnPlus scn 1
      tmpChecksum := nonzero (s.batchChecksum.value crcByte)
      batchChecksum := s.batchChecksum.flush crcByte }

def walk (needRemoveCount : ℤ) : Walk := ⟨s.batchChecksum, minScn, needRemoveCount, s.removed⟩

def afterWalk (w : Walk) (rest : List TransCallback) : TxCallbackList :=
  { s with callbacks := rest, batchChecksum := w.checksumer, removed := w.removed }

/-- A walk over all callbacks; if it succeeds, the checksum has come to `last`. -/
def walkAll (F : Functor) (last : Walk → ℕ) : TxCallbackList :=
  let res := F.callbackLoop crcByte s.checksumScn (s.walk 0) s.callbacks
  let s' := s.afterWalk res.2.1 res.2.2
  if res.1 then s'.ensureChecksum crcByte (last res.2.1) else s'

def fastCommitBound (stopScn : Option ℕ) : ℕ :=
  match stopScn with
  | none => s.syncScn
  | some stopScn => if s.syncScn ≠ minScn then min stopScn s.syncScn else stopScn

/-- `remove_callbacks_for_fast_commit`: the walk ends at the log cursor. -/
def removeCallbacksForFastCommit (fastCommitCallbackCount : ℕ) (stopScn : Option ℕ) :
    TxCallbackList :=
  let needRemoveCount : ℤ := s.callbacks.length - (fastCommitCallbackCount + 1) / 2
  let logged := s.callbacks.takeWhile fun cb => !cb.needSubmitLog
  let toLog := s.callbacks.dropWhile fun cb => !cb.needSubmitLog
  let res := (fastCommitFunctor (s.fastCommitBound stopScn)).callbackLoop crcByte s.checksumScn
    (s.walk needRemoveCount) logged
  let s' := s.afterWalk res.2.1 (res.2.2 ++ toLog)
  if res.1 then s'.ensureChecksum crcByte res.2.1.lastScn else s'

/-- The bound of a walk: `max_scn` stands for what is synced. -/
def syncBound (stopScn : ℕ) : ℕ := if stopScn = maxScn then s.syncScn else stopScn

def removeCallbacksForRemoveMemtable (memtableSet : ℕ → Bool) (stopScn : ℕ) : TxCallbackList :=
  s.walkAll crcByte (removeMemtableFunctor memtableSet (s.syncBound stopScn) s.checksumScn)
    Walk.lastScn

/-- `remove_callbacks_for_rollback_to`; `replay_scn` is given in replay. -/
def removeCallbacksForRollbackTo (toBranch toSeq fromSeq : ℕ) (replayScn : Option ℕ) :
    TxCallbackList :=
  s.walkAll crcByte (rollbackFunctor toBranch toSeq fromSeq (replayScn.getD maxScn)) Walk.lastScn

def txCalcChecksumBeforeScn (scn : ℕ) : TxCallbackList :=
  s.walkAll crcByte (calcChecksumFunctor (s.syncBound scn)) Walk.lastScn

def txCalcChecksumAll : TxCallbackList :=
  if s.checksumScn = maxScn ∧ s.checksum ≠ 0 then s
  else s.walkAll crcByte (calcChecksumFunctor maxScn) fun _ => maxScn

/-! ## Steps -/

/-- The first `n` callbacks that are not logged get the SCN of their log. -/
def submitLog (n scn : ℕ) : TxCallbackList :=
  let logged := s.callbacks.takeWhile fun cb => !cb.needSubmitLog
  let toLog := s.callbacks.dropWhile fun cb => !cb.needSubmitLog
  let submitted := (toLog.take n).map fun cb => { cb with scn := scn }
  { s with
    callbacks := logged ++ submitted ++ toLog.drop n
    everLogged := s.everLogged ++ submitted
    lastLogScn := scn }

/-- A callback of the log with this SCN is replayed. -/
def replayAppend (cb : TransCallback) (scn : ℕ) : TxCallbackList :=
  { s with
    callbacks := s.callbacks ++ [{ cb with scn := scn }]
    everLogged := s.everLogged ++ [{ cb with scn := scn }]
    lastLogScn := scn
    replaying := some scn }

/-- One step of the transaction or of an operation that cleans callbacks. -/
inductive Act
  | append (cb : TransCallback)
  | submitLog (n scn : ℕ)
  | syncLogSucc (scn : ℕ)
  | replayAppend (cb : TransCallback) (scn : ℕ)
  | replaySucc (serial : Bool)
  | fastCommit (fastCommitCallbackCount : ℕ) (stopScn : Option ℕ)
  | removeMemtable (memtableSet : ℕ → Bool) (stopScn : ℕ)
  | rollbackTo (toBranch toSeq fromSeq : ℕ) (replayScn : Option ℕ)
  | calcChecksumBeforeScn (scn : ℕ)
  | calcChecksumAll

/-- All logs up to the bound are replayed in full. -/
def Complete (bound : ℕ) : Prop := ∀ scn ∈ s.replaying, bound < scn
  deriving Decidable

/-- The state after a step, if it can happen. Logs have increasing SCNs. In replay an operation does
not go beyond the logs that are replayed in full, and a rollback starts above all callbacks of its
branches. -/
def step : Act → Option TxCallbackList
  | .append cb =>
    if s.replaying = none then
      some { s with callbacks := s.callbacks ++ [{ cb with scn := maxScn }] }
    else none
  | .submitLog n scn =>
    if s.replaying = none ∧ s.lastLogScn < scn ∧ scn < maxScn then some (s.submitLog n scn)
      else none
  | .syncLogSucc scn =>
    if s.replaying = none ∧ scn ≤ s.lastLogScn then some { s with syncScn := scn } else none
  | .replayAppend cb scn =>
    if (∀ cb ∈ s.callbacks, cb.scn ≠ maxScn) ∧ scn < maxScn ∧
        (s.replaying = some scn ∨ s.replaying = none ∧ s.lastLogScn < scn) then
      some (s.replayAppend cb scn)
    else none
  -- while a transaction is replayed serially its lists do not hear of the success
  | .replaySucc serial =>
    match s.replaying with
    | none => none
    | some scn =>
      some { s with replaying := none, syncScn := if serial then s.syncScn else max s.syncScn scn }
  | .fastCommit fastCommitCallbackCount stopScn =>
    if s.Complete (s.fastCommitBound stopScn) then
      some (s.removeCallbacksForFastCommit crcByte fastCommitCallbackCount stopScn)
    else none
  | .removeMemtable memtableSet stopScn =>
    if stopScn ≤ maxScn ∧ s.Complete (s.syncBound stopScn) then
      some (s.removeCallbacksForRemoveMemtable crcByte memtableSet stopScn)
    else none
  | .rollbackTo toBranch toSeq fromSeq replayScn =>
    if s.Complete (replayScn.getD maxScn) ∧
        ∀ cb ∈ s.callbacks, matchesBranch toBranch cb = true → cb.seq < fromSeq then
      some (s.removeCallbacksForRollbackTo crcByte toBranch toSeq fromSeq replayScn)
    else none
  | .calcChecksumBeforeScn scn =>
    if scn ≤ maxScn ∧ s.Complete (s.syncBound scn) then some (s.txCalcChecksumBeforeScn crcByte scn)
    else none
  | .calcChecksumAll => if s.replaying = none then some (s.txCalcChecksumAll crcByte) else none

def run (s : TxCallbackList) : List Act → Option TxCallbackList
  | [] => some s
  | a :: as => (s.step crcByte a).bind fun s' => s'.run as

end TxCallbackList

def txCallbacks (crcByte : UInt64 → UInt8 → UInt64) : Machine TxCallbackList where
  init s := s = .init
  step s s' := ∃ a, s.step crcByte a = some s'

theorem TxCallbackList.run_reachable {crcByte : UInt64 → UInt8 → UInt64} {as s s'}
    (hs : (txCallbacks crcByte).Reachable s) (h : s.run crcByte as = some s') :
    (txCallbacks crcByte).Reachable s' :=
  hs.of_run h (fun _ => rfl) (fun _ _ _ => rfl) fun _ a _ ha => ⟨a, ha⟩

end OceanBase.Memtable
