import OceanBase.Election.Message
import OceanBase.Lib.Quorum

/-!
# A replica of the election

`ElectionAcceptor`, `ElectionProposer` and the entry points of `ElectionImpl` as functions on the
state of a replica. The state keeps every message the replica has sent. What the code asks of its
surroundings during an event (its monotonic clock, the wall clock, the comparison of priorities,
whether a timer could be scheduled) is an `Env`.

The assertions of the source are left out: without them the functions do more, not less, and what
is proved of them holds for the code that stops at a failed assertion too.

## Main definitions

* `Replica`: the state
* `Replica.handleMessage`: the handlers of the five messages
* `Replica.timeWindowTask`, `Replica.renewLeaseTask`, `Replica.devoteTask`: the timers
* `Replica.changeLeaderTo`: the request to move the leader
* `Replica.checkLeader`: whether the replica takes itself for the leader
-/

namespace OceanBase.Election

/-! ## Constants, in microseconds -/

def maxLeaseTime : ℤ := 10000000

def cacheExpirationTime : ℤ := 5000000

/-- The answers of the surroundings during one event. -/
structure Env where
  /-- `get_monotonic_ts` -/
  now : ℤ
  /-- `ObClockGenerator::getClock` -/
  clock : ℤ
  /-- `MAX_TST` -/
  maxTst : ℤ
  /-- the timer of the vote could be rescheduled -/
  rescheduleOk : Bool
  broadcastOk : Bool
  /-- `is_rhs_message_higher_` on the best request of the time window and the new one -/
  higherThanWindow : Bool
  /-- the same on the leader's own priority and that of an accept response -/
  higherThanLeader : Bool
  /-- the same on the best accept response cached and the new one -/
  higherThanCached : Bool
  hasFatalFailure : Bool

def Env.timeWindowSpanTs (env : Env) : ℤ := 2 * env.maxTst

def Env.leaseInterval (env : Env) : ℤ := 4 * env.maxTst

def Env.maxElectCostTime (env : Env) : ℤ := 10 * env.maxTst

structure ElectionAcceptor where
  ballotNumber : ℤ
  ballotOfTimeWindow : ℤ
  lease : Lease
  isTimeWindowOpened : Bool
  highestPriorityPrepareReq : Option ElectionPrepareRequestMsg
  lastTimeWindowOpenTs : ℤ
  /-- kept by the timer between its runs -/
  lastRecordLeaseValidState : Bool

structure ElectionProposer where
  role : ObRole
  ballotNumber : ℤ
  prepareOk : List Bool
  /-- `accept_ok_promise_not_vote_before_local_ts_` -/
  acceptOk : List ℤ
  prepareSuccessBallot : ℤ
  leaderLease : ℤ
  leaderEpoch : ℤ
  switchSourceLeaderBallot : ℤ
  switchSourceLeaderAddr : Option Addr
  restartCounter : ℤ
  lastDoPrepareTs : ℤ
  recordLeaseInterval : ℤ
  /-- the best accept response of a follower, with the time at which it was cached -/
  highestPriorityCache : Option (ElectionAcceptResponseMsg × ℤ)

structure Replica where
  selfAddr : Addr
  /-- `INIT_TS` -/
  initTs : ℤ
  acceptor : ElectionAcceptor
  proposer : ElectionProposer
  /-- every message this replica has sent -/
  outbox : List ElectionMsg

namespace Replica

variable (M : MemberList) (env : Env)

/-! ## Sending -/

def send (m : ElectionMsg) (r : Replica) : Replica := { r with outbox := m :: r.outbox }

def broadcast (m : Addr → ElectionMsg) (r : Replica) : Replica :=
  { r with outbox := M.addrList.map m ++ r.outbox }

/-! ## The acceptor -/

section Acceptor

/-- `CHECK_SILENCE`: a new replica answers nothing until every lease it may have granted in an
earlier life is over. -/
def keepsSilence (r : Replica) : Prop := r.initTs < 0 ∨ env.now < r.initTs + maxLeaseTime
  deriving Decidable

def resetTimeWindowStates (a : ElectionAcceptor) : ElectionAcceptor :=
  if a.isTimeWindowOpened then
    { a with isTimeWindowOpened := false, highestPriorityPrepareReq := none }
  else a

/-- `advance_ballot_number_and_reset_related_states_` of the acceptor -/
def advanceAcceptor (newBallotNumber : ℤ) (a : ElectionAcceptor) : ElectionAcceptor :=
  if a.ballotNumber < newBallotNumber then
    resetTimeWindowStates
      { a with ballotNumber := newBallotNumber, ballotOfTimeWindow := newBallotNumber }
  else a

section

variable (req : ElectionPrepareRequestMsg)

/-- The vote for the sender of a request, with the lease the acceptor has granted. -/
def prepareOkMsg (r : Replica) : ElectionMsg :=
  .prepareResponse
    { sender := r.selfAddr
      receiver := req.sender
      restartCounter := req.restartCounter
      ballotNumber := r.acceptor.ballotNumber
      accepted := true
      lease := r.acceptor.lease }

def prepareRejectMsg (ballotNumber : ℤ) (r : Replica) :
    ElectionMsg :=
  .prepareResponse
    { sender := r.selfAddr
      receiver := req.sender
      restartCounter := req.restartCounter
      ballotNumber := ballotNumber
      accepted := false
      lease := .initial }

/-- The time window is opened for a larger ballot than the last one; the return code says
whether its timer could be scheduled. -/
def openTimeWindow (a : ElectionAcceptor) :
    Bool × ElectionAcceptor :=
  if ¬ a.isTimeWindowOpened ∧ a.ballotOfTimeWindow < req.ballotNumber then
    let a := { a with
      ballotOfTimeWindow := req.ballotNumber
      highestPriorityPrepareReq := none }
    if env.rescheduleOk then
      (true, { a with isTimeWindowOpened := true, lastTimeWindowOpenTs := env.clock })
    else (false, a)
  else (true, a)

/-- Keep the request of the highest priority among those of the window's ballot. -/
def countInTimeWindow (a : ElectionAcceptor) :
    ElectionAcceptor :=
  if req.ballotNumber ≠ a.ballotOfTimeWindow then a
  else
    match a.highestPriorityPrepareReq with
    | none => { a with highestPriorityPrepareReq := some req }
    | some best =>
      if best.membershipVersion < req.membershipVersion then
        { a with highestPriorityPrepareReq := some req }
      else if req.membershipVersion < best.membershipVersion then a
      else if env.higherThanWindow then { a with highestPriorityPrepareReq := some req }
      else a

/-- A request of a follower is not answered at once: it takes part in the time window. -/
def joinTimeWindow (a : ElectionAcceptor) : ElectionAcceptor :=
  let a := if a.isTimeWindowOpened ∧ a.ballotOfTimeWindow < req.ballotNumber then
    resetTimeWindowStates a else a
  match openTimeWindow env req a with
  | (ok, a) => if ok ∧ a.isTimeWindowOpened then countInTimeWindow env req a else a

def acceptorOnPrepareRequest (r : Replica) : Replica :=
  if r.keepsSilence env then r
  else if ¬ M.isValid then r
  else if req.membershipVersion < M.membershipVersion then r
  else if req.ballotNumber < r.acceptor.ballotNumber then
    r.send (r.prepareRejectMsg req r.acceptor.ballotNumber)
  else
    match req.role with
    | .leader =>
      if req.ballotNumber ≤ r.acceptor.ballotNumber then r
      else
        let r := { r with acceptor := advanceAcceptor req.ballotNumber r.acceptor }
        r.send (r.prepareOkMsg req)
    | .follower => { r with acceptor := joinTimeWindow env req r.acceptor }

/-- The vote for the best request of the time window. -/
def sendVote (r : Replica) : Replica :=
  if r.acceptor.ballotOfTimeWindow = req.ballotNumber ∧
      r.acceptor.ballotNumber < r.acceptor.ballotOfTimeWindow then
    let a := { r.acceptor with
      ballotNumber := r.acceptor.ballotOfTimeWindow
      -- the proposer cannot tell whether the lease has expired
      lease := if r.acceptor.lease.isExpired env.now then r.acceptor.lease.reset
        else r.acceptor.lease }
    let r := { r with acceptor := a }
    r.send (r.prepareOkMsg req)
  else r

end

def closeTimeWindow (r : Replica) : Replica :=
  { r with acceptor := { r.acceptor with isTimeWindowOpened := false } }

def voteInTimeWindow (r : Replica) : Replica :=
  match r.acceptor.highestPriorityPrepareReq with
  | some req => (r.sendVote env req).closeTimeWindow
  -- an empty request has the invalid ballot number, which is above no other
  | none => r.closeTimeWindow

/-- A lease that was valid at the last run of the timer and is not any more is reset. -/
def resetLeaseIfJustExpired (r : Replica) : Replica :=
  if r.acceptor.lastRecordLeaseValidState ∧ r.acceptor.lease.isExpired env.now then
    { r with acceptor := { r.acceptor with lease := r.acceptor.lease.reset } }
  else r

/-- The repeated timer of `ElectionAcceptor::start`. -/
def timeWindowTask (r : Replica) : Replica :=
  let lastRecordLeaseValidState := r.acceptor.lastRecordLeaseValidState
  let leaseValidState : Bool := ¬ r.acceptor.lease.isExpired env.now
  let r := r.resetLeaseIfJustExpired env
  let r :=
    if r.acceptor.isTimeWindowOpened ∧
        ((lastRecordLeaseValidState ∧ ¬ leaseValidState) ∨
          env.timeWindowSpanTs ≤ env.clock - r.acceptor.lastTimeWindowOpenTs) then
      r.voteInTimeWindow env
    else r
  { r with acceptor := { r.acceptor with lastRecordLeaseValidState := leaseValidState } }

def acceptOkMsg (req : ElectionAcceptRequestMsg) (r : Replica) (accepted : Bool) : ElectionMsg :=
  .acceptResponse
    { sender := r.selfAddr
      receiver := req.sender
      restartCounter := req.restartCounter
      ballotNumber := r.acceptor.ballotNumber
      leaseStartedTsOnProposer := req.leaseStartTsOnProposer
      leaseInterval := req.leaseInterval
      accepted := accepted }

/-- `ElectionAcceptor::on_accept_request`: the lease is overwritten unconditionally. -/
def acceptorOnAcceptRequest (req : ElectionAcceptRequestMsg) (r : Replica) : Replica :=
  if r.keepsSilence env then r
  else if req.ballotNumber < r.acceptor.ballotNumber then r.send (r.acceptOkMsg req false)
  else
    let a := if r.acceptor.ballotNumber < req.ballotNumber then
      advanceAcceptor req.ballotNumber r.acceptor else r.acceptor
    let r := { r with acceptor := { a with lease := a.lease.updateFrom env.now req } }
    r.send (r.acceptOkMsg req true)

end Acceptor

end Replica

end OceanBase.Election
