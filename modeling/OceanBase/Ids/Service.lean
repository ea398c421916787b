import OceanBase.Lib.Machine

/-!
# The identifier service

`ObIDService` hands out ranges of identifiers below a limit that is in the log. The leader raises
the limit by a log of its own; a follower replays the log and puts its last identifier at the limit,
so that a new leader starts above everything the old one may have handed out.

`get_number` takes no lock. It reads the last identifier and the limit, moves the last identifier
with a compare-and-swap or a fetch-and-add, and reads the limit again. Submissions, their callbacks
and replay exclude each other by a lock, but `get_number` sees each of their stores. The model has
one program counter for each call and one for the section under the lock, and every atomic access is
a step of its own.

The log is shared. A new leader starts a term with the committed part of it; what the old leader has
appended behind that is gone, and what it appends later is lost.

The arithmetic is that of `int64_t`. Time stamps, the persisted copy of the limit, and the restart
from it are not modelled.
-/

namespace OceanBase.Ids

/-- The value an `int64_t` has after an operation. -/
def i64 (x : ℤ) : ℤ := Int.bmod x (2 ^ 64)

def int64Max : ℤ := 2 ^ 63 - 1

theorem i64_eq {x} (h₁ : -2 ^ 63 ≤ x) (h₂ : x < 2 ^ 63) : i64 x = x := by
  unfold i64
  rw [Int.bmod_eq_of_le] <;> omega

theorem i64_lt (x : ℤ) : i64 x < 2 ^ 63 := by
  have := Int.bmod_lt (x := x) (m := 2 ^ 64) (by decide)
  unfold i64
  omega

inductive ServiceType
  | timestampService
  | transIdService
  | dasIdService
deriving DecidableEq

structure Config where
  serviceType : ServiceType
  preAllocatedRange : ℤ

structure PresistIdLog where
  lastId : ℤ
  limitId : ℤ

/-- The callback of the log that is on the way: its limit, the term, and the place the log got. A
log that is appended by a replica that does not lead the newest term gets none. -/
structure PresistIdLogCb where
  limitedId : ℤ
  term : ℕ
  index : Option ℕ

/-- Where the section under `rwlock_` stands. -/
inductive Section
  | free
  -- `handle_replay_result`
  | replayTmp (i : ℕ)
  | replayLast (i : ℕ)
  | replayLimit (i : ℕ)
  -- `handle_submit_callback` after a success
  | callbackLast
  | callbackTmp
  | callbackLimit
deriving DecidableEq

abbrev minLastId : ℤ := 1

structure IdService where
  lastId : ℤ
  tmpLastId : ℤ
  limitedId : ℤ
  /-- `is_logging_` with `cb_` -/
  logging : Option PresistIdLogCb
  lock : Section
  /-- what `check_leader` finds -/
  isLeader : Bool
  /-- the places of the logs that were replayed or had a success callback -/
  applied : List ℕ

def IdService.init : IdService := ⟨minLastId, 0, minLastId, none, .free, false, []⟩

/-! ## `get_number` -/

structure Args where
  range : ℤ
  baseId : ℤ
deriving DecidableEq

/-- `range > 0` and `base_id >= 0`, as `int64_t`. -/
def Args.Ok (a : Args) : Prop :=
  0 < a.range ∧ a.range < 2 ^ 63 ∧ 0 ≤ a.baseId ∧ a.baseId < 2 ^ 63
  deriving Decidable

/-- Where a call of `get_number` stands. -/
inductive CallPc
  | idle
  | checkLeader (a : Args)
  | loadLast (a : Args)
  | loadLimit (a : Args) (lastId : ℤ)
  | bcas (a : Args) (lastId allocatedRange : ℤ)
  | faa (a : Args) (allocatedRange : ℤ)
  | reloadLimit (a : Args) (tmpId allocatedRange : ℤ)
  -- whether a log is submitted: `limited_id_ - last_id_` is read from the left
  | remainLimit (a : Args)
  | remainLast (a : Args) (limitedId : ℤ)
  -- `max_pre_allocated_id_`
  | maxLimit (a : Args)
  | maxInc (a : Args)
  | maxLast (a : Args)
  | preAllocated (a : Args) (maxPreAllocatedId : ℤ)
  | submit (preAllocatedId : ℤ)
deriving DecidableEq

namespace IdService

variable (cfg : Config) (x : IdService)

/-- `allocated_range`, and how it is allocated. A range that is not positive is `OB_EAGAIN`, which
submits a log. -/
def loadLimit (a : Args) (lastId : ℤ) : CallPc :=
  let allocatedRange :=
    min (min (i64 (x.limitedId - a.baseId)) (i64 (x.limitedId - lastId))) a.range
  if allocatedRange ≤ 0 then .maxLimit a
  else if lastId < a.baseId then .bcas a lastId allocatedRange
  else .faa a allocatedRange

/-- `ATOMIC_BCAS`; the compare-and-swap that fails is followed by a fetch-and-add. -/
def bcas (a : Args) (lastId allocatedRange : ℤ) : IdService × CallPc :=
  if x.lastId = lastId then
    ({ x with lastId := i64 (a.baseId + allocatedRange) }, .reloadLimit a a.baseId allocatedRange)
  else (x, .faa a allocatedRange)

def faa (a : Args) (allocatedRange : ℤ) : IdService × CallPc :=
  ({ x with lastId := i64 (x.lastId + allocatedRange) }, .reloadLimit a x.lastId allocatedRange)

def preAllocatedId (a : Args) (maxPreAllocatedId : ℤ) : ℤ :=
  min maxPreAllocatedId
    (i64 (max a.baseId x.limitedId + max (i64 (a.range * 10)) cfg.preAllocatedRange))

/-- The next step of a call, apart from the result and the submission. -/
def callStep : CallPc → IdService × CallPc
  | .checkLeader a => (x, if x.isLeader then .loadLast a else .idle)
  | .loadLast a => (x, .loadLimit a x.lastId)
  | .loadLimit a lastId => (x, x.loadLimit a lastId)
  | .bcas a lastId allocatedRange => x.bcas a lastId allocatedRange
  | .faa a allocatedRange => x.faa a allocatedRange
  | .remainLimit a => (x, .remainLast a x.limitedId)
  | .remainLast a limitedId =>
    (x, if i64 (limitedId - x.lastId) < cfg.preAllocatedRange * 2 / 3 then .maxLimit a else .idle)
  | .maxLimit a =>
    (x, if cfg.serviceType = .timestampService then
        if x.limitedId < a.baseId then .maxInc a else .maxLast a
      else .preAllocated a int64Max)
  | .maxInc a => ({ x with lastId := max x.lastId a.baseId }, .maxLast a)
  | .maxLast a => (x, .preAllocated a (i64 (x.lastId + i64 (2 * cfg.preAllocatedRange))))
  | .preAllocated a maxPreAllocatedId => (x, .submit (x.preAllocatedId cfg a maxPreAllocatedId))
  | .idle => (x, .idle)
  | .reloadLimit a tmpId allocatedRange => (x, .reloadLimit a tmpId allocatedRange)
  | .submit preAllocatedId => (x, .submit preAllocatedId)

def NeedsLog (limitedId : ℤ) : Prop :=
  x.lock = .free ∧ x.logging = none ∧ 0 ≤ limitedId ∧ x.limitedId < limitedId
  deriving Decidable

/-- The next step of a section under the lock; `log` is the log that is replayed. -/
def sectionStep (log : PresistIdLog) : IdService :=
  match x.lock with
  | .free => x
  | .replayTmp i =>
    { x with
      lock := .replayLast i
      tmpLastId :=
        if log.lastId ≠ log.limitId ∧ log.limitId = x.limitedId then
          max x.tmpLastId log.lastId else 0 }
  | .replayLast i => { x with lock := .replayLimit i, lastId := max x.lastId log.limitId }
  | .replayLimit i =>
    { x with lock := .free, limitedId := max x.limitedId log.limitId, applied := i :: x.applied }
  | .callbackLast =>
    if x.tmpLastId ≠ 0 then { x with lock := .callbackTmp, lastId := x.tmpLastId }
    else { x with lock := .callbackLimit }
  | .callbackTmp => { x with lock := .callbackLimit, tmpLastId := 0 }
  | .callbackLimit =>
    match x.logging with
    | none => { x with lock := .free }
    | some cb =>
      { x with
        lock := .free
        limitedId := max x.limitedId cb.limitedId
        logging := none
        applied := cb.index.toList ++ x.applied }

end IdService

/-! ## The replicas and their log -/

/-- A log of the service with its term and the replica it comes from. -/
structure LogEntry (ι : Type) where
  owner : ι
  term : ℕ
  log : PresistIdLog

structure Grant (ι : Type) where
  replica : ι
  startId : ℤ
  endId : ℤ
deriving DecidableEq

structure SharedLog (ι : Type) where
  entries : List (LogEntry ι)
  committed : ℕ
  term : ℕ
  /-- the replica that leads the newest term -/
  leader : Option ι

/-- The log on the way is committed in its term. -/
def SharedLog.CbCommitted {ι : Type} (p : SharedLog ι) (x : IdService) : Prop :=
  ∃ cb ∈ x.logging, ∃ i ∈ cb.index, i < p.committed ∧ ∃ e ∈ p.entries[i]?, e.term = cb.term
  deriving Decidable

/-- The replicas `ι` of a service, with the threads `κ` that call it. -/
structure IdCluster (ι κ : Type) where
  palf : SharedLog ι
  service : ι → IdService
  calls : ι → κ → CallPc
  /-- the results of all calls -/
  grants : List (Grant ι)

namespace IdCluster

variable {ι κ : Type} [DecidableEq ι] [DecidableEq κ] (cfg : Config) (s : IdCluster ι κ)

section

variable (r : ι)

def setService (x : IdService) : IdCluster ι κ :=
  { s with service := Function.update s.service r x }

def setCall (c : κ) (pc : CallPc) : IdCluster ι κ :=
  { s with calls := Function.update s.calls r (Function.update (s.calls r) c pc) }

/-- The end of the allocation: the limit is read again. What the call returns is settled here. -/
def reloadLimit (c : κ) (a : Args) (tmpId allocatedRange : ℤ) : IdCluster ι κ :=
  if (s.service r).limitedId ≤ tmpId then s.setCall r c (.maxLimit a)
  else
    { s.setCall r c (.remainLimit a) with
      grants := ⟨r, tmpId, min (i64 (tmpId + allocatedRange)) (s.service r).limitedId⟩ :: s.grants }

/-- The log is appended; it gets a place if the replica leads the newest term. -/
def append (limitedId : ℤ) : IdCluster ι κ :=
  if s.palf.leader = some r then
    { s.setService r { s.service r with
        logging := some ⟨limitedId, s.palf.term, some s.palf.entries.length⟩ } with
      palf := { s.palf with
        entries := s.palf.entries ++ [⟨r, s.palf.term, ⟨limitedId, limitedId⟩⟩] } }
  else
    s.setService r { s.service r with logging := some ⟨limitedId, s.palf.term, none⟩ }

/-- The end of a call: `submit_log_with_lock_`. The lock may be taken and the append may fail, and
the log handler of a follower appends nothing. -/
def submit (c : κ) (limitedId : ℤ) (accepted : Bool) : IdCluster ι κ :=
  if accepted = true ∧ (s.service r).isLeader = true ∧ (s.service r).NeedsLog limitedId then
    (s.append r limitedId).setCall r c .idle
  else s.setCall r c .idle

/-- The next step of a call. -/
def call (c : κ) (accepted : Bool) : IdCluster ι κ :=
  match s.calls r c with
  | .reloadLimit a tmpId allocatedRange => s.reloadLimit r c a tmpId allocatedRange
  | .submit limitedId => s.submit r c limitedId accepted
  | pc =>
    (s.setService r ((s.service r).callStep cfg pc).1).setCall r c ((s.service r).callStep cfg pc).2

def sectionLog : PresistIdLog :=
  match (s.service r).lock with
  | .replayTmp i | .replayLast i | .replayLimit i =>
    (s.palf.entries[i]?.map LogEntry.log).getD ⟨0, 0⟩
  | _ => ⟨0, 0⟩

/-- A committed log that is the next one to be replayed. -/
def NextToReplay (i : ℕ) : Prop :=
  i < s.palf.committed ∧ i ∉ (s.service r).applied ∧ ∀ j < i, j ∈ (s.service r).applied

end

instance (r : ι) (i : ℕ) : Decidable (s.NextToReplay r i) := inferInstanceAs (Decidable (_ ∧ _))

/-- One step of a call, of the log, or of a replica. -/
inductive Act (ι κ : Type)
  | getNumber (r : ι) (c : κ) (a : Args)
  | call (r : ι) (c : κ) (accepted : Bool)
  | commit (n : ℕ)
  | becomeLeader (r : ι)
  | loseLeadership (r : ι)
  | onSuccess (r : ι)
  | onFailure (r : ι)
  | replay (r : ι) (i : ℕ)
  | inLock (r : ι)

def step : Act ι κ → Option (IdCluster ι κ)
  | .getNumber r c a =>
    if s.calls r c = .idle ∧ a.Ok then some (s.setCall r c (.checkLeader a)) else none
  | .call r c accepted => some (s.call cfg r c accepted)
  | .commit n =>
    if s.palf.committed ≤ n ∧ n ≤ s.palf.entries.length then
      some { s with palf := { s.palf with committed := n } }
    else none
  -- a replica becomes leader when it has applied all committed logs
  | .becomeLeader r =>
    if ∀ i < s.palf.committed, i ∈ (s.service r).applied then
      some { s.setService r { s.service r with isLeader := true } with
        palf := { s.palf with
          entries := s.palf.entries.take s.palf.committed
          term := s.palf.term + 1
          leader := some r } }
    else none
  | .loseLeadership r => some (s.setService r { s.service r with isLeader := false })
  | .onSuccess r =>
    if (s.service r).lock = .free ∧ s.palf.CbCommitted (s.service r) then
      some (s.setService r { s.service r with lock := .callbackLast })
    else none
  | .onFailure r =>
    if (s.service r).lock = .free then some (s.setService r { s.service r with logging := none })
    else none
  | .replay r i =>
    if (s.service r).lock = .free ∧ (s.service r).isLeader = false ∧ s.NextToReplay r i then
      some (s.setService r { s.service r with lock := .replayTmp i })
    else none
  | .inLock r => some (s.setService r ((s.service r).sectionStep (s.sectionLog r)))

def run (ok : IdCluster ι κ → Act ι κ → Prop) [∀ s, DecidablePred (ok s)] (s : IdCluster ι κ) :
    List (Act ι κ) → Option (IdCluster ι κ)
  | [] => some s
  | a :: as => if ok s a then (s.step cfg a).bind fun s' => s'.run ok as else none

def init : IdCluster ι κ := ⟨⟨[], 0, 0, none⟩, fun _ => .init, fun _ _ => .idle, []⟩

end IdCluster

/-- The replicas of a service, in which all steps meet `ok`. -/
def idCluster {ι κ : Type} [DecidableEq ι] [DecidableEq κ] (cfg : Config)
    (ok : IdCluster ι κ → IdCluster.Act ι κ → Prop) : Machine (IdCluster ι κ) where
  init s := s = .init
  step s s' := ∃ a, ok s a ∧ s.step cfg a = some s'

theorem IdCluster.run_reachable {ι κ : Type} [DecidableEq ι] [DecidableEq κ] {cfg}
    {ok : IdCluster ι κ → IdCluster.Act ι κ → Prop} [∀ s, DecidablePred (ok s)] {as s s'}
    (hs : (idCluster cfg ok).Reachable s) (h : s.run cfg ok as = some s') :
    (idCluster cfg ok).Reachable s' :=
  hs.of_run (g := fun s a => if ok s a then s.step cfg a else none) h (fun _ => rfl)
    (fun s a _ => by rw [run]; split <;> rfl) fun _ a _ ha =>
    ⟨a, Option.ite_none_right_eq_some.mp ha⟩

end OceanBase.Ids
