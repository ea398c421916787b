import OceanBase.Election.Replica

/-!
# The proposer of the election

`ElectionProposer` and the entry points of `ElectionImpl`, on the state of a replica.

## Main definitions

* `Replica.prepare`, `Replica.onPrepareResponse`: asking for votes and counting them
* `Replica.propose`, `Replica.onAcceptResponse`: asking for promises and taking the lease
* `Replica.changeLeaderTo`, `Replica.onChangeLeader`: moving the leader
* `Replica.renewLeaseTask`, `Replica.devoteTask`: the timers
* `Replica.handleMessage`: the handlers of the five messages
-/

namespace OceanBase.Election

inductive Ret
  | success | entryNotExist | belowMajority | overMajority

namespace Replica

variable (M : MemberList) (env : Env)

def checkLeader (now : ℤ) (r : Replica) : Prop := now < r.proposer.leaderLease
  deriving Decidable

def isSelfInMemberList (r : Replica) : Prop := r.selfAddr ∈ M.addrList
  deriving Decidable

/-! ## The member list with states -/

def clearPrepareAndAcceptStates (r : Replica) : Replica :=
  { r with proposer := { r.proposer with
      prepareOk := List.replicate M.replicaNum false
      acceptOk := List.replicate M.replicaNum 0 } }

def recordPrepareOk (res : ElectionPrepareResponseMsg) (r : Replica) : Ret × Replica :=
  match M.addrList.idxOf? res.sender with
  | none => (.entryNotExist, r)
  | some idx =>
    let r := { r with proposer := { r.proposer with
      prepareOk := r.proposer.prepareOk.set idx true } }
    let okCount := r.proposer.prepareOk.countP id
    (if okCount < M.majority then .belowMajority
      else if M.majority < okCount then .overMajority
      else .success, r)

def recordAcceptOk (res : ElectionAcceptResponseMsg) (r : Replica) : Ret × Replica :=
  match M.addrList.idxOf? res.sender with
  | none => (.entryNotExist, r)
  | some idx =>
    let ts := max (r.proposer.acceptOk.getD idx 0)
      (res.leaseStartedTsOnProposer + res.leaseInterval)
    let r := { r with proposer := { r.proposer with
      acceptOk := r.proposer.acceptOk.set idx ts } }
    let okCount := r.proposer.acceptOk.countP (· ≠ 0)
    (if okCount < M.majority then .belowMajority else .success, r)

/-- `get_majority_promised_not_vote_ts`: the element in the middle, the largest first. -/
def majorityPromisedNotVoteTs (p : ElectionProposer) : ℤ :=
  (sortDesc p.acceptOk).getD (p.acceptOk.length / 2) 0

/-! ## Ballots and roles -/

/-- `advance_ballot_number_and_reset_related_states_` of the proposer -/
def advanceBallotNumber (newBallotNumber : ℤ) (r : Replica) : Replica :=
  let r := { r with proposer := { r.proposer with ballotNumber := newBallotNumber } }
  let r := r.clearPrepareAndAcceptStates M
  { r with proposer := { r.proposer with
      switchSourceLeaderBallot := invalidValue
      switchSourceLeaderAddr := none } }

def resetLeaderLease (r : Replica) : Replica :=
  { r with
    proposer := { r.proposer with leaderLease := invalidValue, leaderEpoch := invalidValue } }

def leaderRevokeIfLeaseExpired (r : Replica) : Bool × Replica :=
  if r.proposer.role = .leader ∧ ¬ r.checkLeader env.now then
    let r := { r with proposer := { r.proposer with role := .follower } }
    (true, (r.clearPrepareAndAcceptStates M).resetLeaderLease)
  else (false, r)

/-! ## Prepare -/

def prepareRequestMsg (role : ObRole) (r : Replica) (receiver : Addr) : ElectionMsg :=
  .prepareRequest
    { sender := r.selfAddr
      receiver := receiver
      restartCounter := r.proposer.restartCounter
      ballotNumber := r.proposer.ballotNumber
      role := role
      membershipVersion := M.membershipVersion }

/-- `prepare`: a follower takes a new ballot number, a leader has taken it before. -/
def prepare (role : ObRole) (r : Replica) : Replica :=
  if M.addrList = [] then r
  else if ¬ r.isSelfInMemberList M then r
  else if role = .follower ∧
      env.clock - r.proposer.lastDoPrepareTs < env.maxElectCostTime / 2 then r
  else
    let r := { r with proposer := { r.proposer with lastDoPrepareTs := env.clock } }
    let r := if role = .follower then r.advanceBallotNumber M (r.proposer.ballotNumber + 1) else r
    r.broadcast M (r.prepareRequestMsg M role)

/-- A request of a follower is followed by one of our own. -/
def followPrepare (r : Replica) : Replica :=
  if M.addrList = [] then r
  else
    let r := r.broadcast M (r.prepareRequestMsg M r.proposer.role)
    if env.broadcastOk then
      { r with proposer := { r.proposer with lastDoPrepareTs := env.clock } }
    else r

/-- `ElectionProposer::on_prepare_request`: a larger ballot number is taken over. -/
def proposerOnPrepareRequest (req : ElectionPrepareRequestMsg) (r : Replica) : Replica :=
  if req.ballotNumber ≤ r.proposer.ballotNumber then
    if req.ballotNumber < r.proposer.ballotNumber then
      r.send (r.prepareRejectMsg req r.proposer.ballotNumber)
    else r
  else if ¬ r.isSelfInMemberList M then r
  else
    match req.role with
    | .leader => r.advanceBallotNumber M req.ballotNumber
    | .follower => (r.advanceBallotNumber M req.ballotNumber).followPrepare M env

/-- `ResponseChecker`: whether a response is to be counted. A larger ballot number in a refusal is
taken over, and a leader then prepares the next one. -/
def checkResponse (msg : ElectionMsgBase) (accepted : Bool) (r : Replica) : Bool × Replica :=
  if msg.restartCounter ≠ r.proposer.restartCounter then (false, r)
  else if msg.ballotNumber < r.proposer.ballotNumber then (false, r)
  else if r.proposer.ballotNumber < msg.ballotNumber then
    let r := r.advanceBallotNumber M msg.ballotNumber
    if r.checkLeader env.now then
      (false, (r.advanceBallotNumber M (r.proposer.ballotNumber + 1)).prepare M env .leader)
    else (false, r)
  else if ¬ accepted then (false, r)
  else (true, r)

/-! ## Propose -/

def acceptRequestMsg (r : Replica) (receiver : Addr) : ElectionMsg :=
  .acceptRequest
    { sender := r.selfAddr
      receiver := receiver
      restartCounter := r.proposer.restartCounter
      ballotNumber := r.proposer.prepareSuccessBallot
      leaseStartTsOnProposer := env.now
      leaseInterval := env.leaseInterval
      membershipVersion := M.membershipVersion }

def propose (r : Replica) : Replica :=
  let r := { r with proposer := { r.proposer with recordLeaseInterval := env.leaseInterval } }
  r.broadcast M (r.acceptRequestMsg M env)

/-- Whether the lease of a voter lets its vote count: it has granted none, or has granted it to
this proposer, or to the leader that has handed over to this proposer. -/
def voteCounts (lease : Lease) (r : Replica) : Prop :=
  lease.isEmpty ∨ lease.owner = some r.selfAddr ∨
    lease.owner = r.proposer.switchSourceLeaderAddr ∧
      lease.ballotNumber = r.proposer.switchSourceLeaderBallot
  deriving Decidable

def onPrepareResponse (res : ElectionPrepareResponseMsg) (r : Replica) : Replica :=
  match r.checkResponse M env res.toElectionMsgBase res.accepted with
  | (false, r) => r
  | (true, r) =>
    if ¬ r.voteCounts res.lease then r
    else
      match r.recordPrepareOk M res with
      | (.success, r) =>
        let r := { r with proposer := { r.proposer with
          prepareSuccessBallot := max r.proposer.ballotNumber r.proposer.prepareSuccessBallot } }
        r.propose M env
      | (_, r) => r

/-! ## Taking the lease -/

def leaderTakeoverIfLeaseValid (r : Replica) : Bool × Replica :=
  if r.proposer.role ≠ .leader ∧ r.checkLeader env.now then
    let r := { r with proposer := { r.proposer with
      highestPriorityCache := none
      role := .leader } }
    (true, r.propose M env)
  else (false, r)

/-- `set_lease_and_epoch_if_lease_expired_or_just_set_lease` -/
def setLeaderLease (lease epoch : ℤ) (r : Replica) : Replica :=
  if env.now < r.proposer.leaderLease then
    { r with proposer := { r.proposer with leaderLease := lease } }
  else { r with proposer := { r.proposer with leaderLease := lease, leaderEpoch := epoch } }

/-- The lease a majority has promised is taken if it is later than the current one. A leader
whose lease has expired steps down first. -/
def renewLeaderLease (newLeaseEnd : ℤ) (r : Replica) : Replica :=
  let r := (r.leaderRevokeIfLeaseExpired M env).2
  if r.proposer.leaderLease < newLeaseEnd then
    r.setLeaderLease env newLeaseEnd r.proposer.prepareSuccessBallot
  else r

/-- With the lease a follower becomes the leader; one that the leader was handed over to only if
its ballot number is still that of the hand-over. -/
def takeoverAfterRenewal (r : Replica) : Replica :=
  if r.proposer.switchSourceLeaderBallot ≠ invalidValue then
    if r.proposer.switchSourceLeaderBallot ≠ r.proposer.ballotNumber - 1 then r
    else
      match r.leaderTakeoverIfLeaseValid M env with
      | (true, r) => { r with proposer := { r.proposer with
          switchSourceLeaderBallot := invalidValue
          switchSourceLeaderAddr := none } }
      | (false, r) => r
  else (r.leaderTakeoverIfLeaseValid M env).2

/-! ## Changing the leader -/

def changeLeaderMsg (oldBallotNumber : ℤ) (dst : Addr) (r : Replica) : ElectionMsg :=
  .changeLeader
    { sender := r.selfAddr
      receiver := dst
      restartCounter := r.proposer.restartCounter
      ballotNumber := r.proposer.ballotNumber
      oldBallotNumber := oldBallotNumber
      membershipVersion := M.membershipVersion }

/-- The old leader takes a new ballot number, so that promises still in flight no longer reach
it, and gives up its lease before it hands over. -/
def innerChangeLeaderTo (dst : Addr) (r : Replica) : Replica :=
  let switchSourceLeaderBallot := r.proposer.ballotNumber
  let r := r.advanceBallotNumber M (r.proposer.ballotNumber + 1)
  let r := r.resetLeaderLease
  let m := r.changeLeaderMsg M switchSourceLeaderBallot dst
  let r := (r.leaderRevokeIfLeaseExpired M env).2
  r.send m

def changeLeaderTo (destAddr : Addr) (r : Replica) : Replica :=
  let redirectAddr := if destAddr ∈ M.addrList then destAddr else r.selfAddr
  if ¬ r.checkLeader env.now then r else r.innerChangeLeaderTo M env redirectAddr

/-- `prepare_change_leader_to_`: without a fatal failure the change is left to a callback, which
may call `change_leader_to` later. -/
def prepareChangeLeaderTo (destAddr : Addr) (r : Replica) : Replica :=
  if env.hasFatalFailure then r.changeLeaderTo M env destAddr else r

/-- A follower whose priority is above the leader's twice in a row becomes the leader. -/
def checkFollowerPriority (res : ElectionAcceptResponseMsg) (r : Replica) : Replica :=
  if r.proposer.role = .leader ∧ res.sender ≠ r.selfAddr ∧ env.higherThanLeader then
    let cache := r.proposer.highestPriorityCache.filter fun c =>
      ¬ cacheExpirationTime < env.clock - c.2
    let cached := { r with proposer := { r.proposer with highestPriorityCache := cache } }
    let replaced := { r with proposer := { r.proposer with
      highestPriorityCache := some (res, env.clock) } }
    match cache with
    | none => replaced
    | some (best, _) =>
      if env.higherThanCached then replaced
      else if best.sender = res.sender then cached.prepareChangeLeaderTo M env best.sender
      else cached
  else r

def onAcceptResponse (res : ElectionAcceptResponseMsg) (r : Replica) : Replica :=
  let r :=
    match r.checkResponse M env res.toElectionMsgBase res.accepted with
    | (false, r) => r
    | (true, r) =>
      match r.recordAcceptOk M res with
      | (.success, r) =>
        (r.renewLeaderLease M env (majorityPromisedNotVoteTs r.proposer)).takeoverAfterRenewal M env
      | (_, r) => r
  r.checkFollowerPriority M env res

/-- A hand-over to oneself has the current ballot number, one by another leader a larger one. -/
def acceptsChangeLeader (msg : ElectionChangeLeaderMsg) (r : Replica) : Prop :=
  if msg.sender = r.selfAddr then msg.ballotNumber = r.proposer.ballotNumber
  else r.proposer.ballotNumber < msg.ballotNumber
  deriving Decidable

def onChangeLeader (msg : ElectionChangeLeaderMsg) (r : Replica) : Replica :=
  if ¬ r.acceptsChangeLeader msg then r
  else if M.membershipVersion < msg.membershipVersion then r
  else
    let r := r.advanceBallotNumber M msg.ballotNumber
    let r := { r with proposer := { r.proposer with
      switchSourceLeaderBallot := msg.oldBallotNumber
      switchSourceLeaderAddr := some msg.sender } }
    r.prepare M env .leader

/-! ## Timers and messages -/

def renewLeaseTask (r : Replica) : Replica :=
  if r.proposer.role = .follower then r
  else
    match r.leaderRevokeIfLeaseExpired M env with
    | (true, r) => r
    | (false, r) =>
      if r.proposer.prepareSuccessBallot ≠ r.proposer.ballotNumber then r else r.propose M env

def devoteTask (r : Replica) : Replica :=
  if r.checkLeader env.now then
    if r.proposer.prepareSuccessBallot = r.proposer.ballotNumber then r
    else r.prepare M env r.proposer.role
  else
    let r := if r.proposer.role = .leader then
      { r with proposer := { r.proposer with role := .follower } } else r
    r.prepare M env r.proposer.role

def handleMessage (msg : ElectionMsg) (r : Replica) : Replica :=
  match msg with
  | .prepareRequest req =>
    let r := if req.sender ≠ r.selfAddr then r.proposerOnPrepareRequest M env req else r
    r.acceptorOnPrepareRequest M env req
  | .acceptRequest req =>
    let r := if r.proposer.ballotNumber < req.ballotNumber then
      r.advanceBallotNumber M req.ballotNumber else r
    r.acceptorOnAcceptRequest env req
  | .prepareResponse res => r.onPrepareResponse M env res
  | .acceptResponse res => r.onAcceptResponse M env res
  | .changeLeader m => r.onChangeLeader M env m

end Replica

end OceanBase.Election
