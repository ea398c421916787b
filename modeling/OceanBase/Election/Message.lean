import OceanBase.Palf.Define

/-!
# Messages and leases of the election

The messages proposers and acceptors exchange, and the lease an acceptor grants. Ballot numbers
and timestamps are `int64_t` in the source, with `-1` for an invalid value. Fields that only serve
the comparison of priorities are left out: the outcome of a comparison is an answer of the
environment (`Env`).
-/

namespace OceanBase.Election

open Palf (LogConfigVersion)

abbrev Addr := ℕ

def invalidValue : ℤ := -1

inductive ObRole
  | leader | follower
  deriving DecidableEq

/-- What every message carries. -/
structure ElectionMsgBase where
  sender : Addr
  receiver : Addr
  restartCounter : ℤ
  ballotNumber : ℤ
  deriving DecidableEq

structure ElectionPrepareRequestMsg extends ElectionMsgBase where
  role : ObRole
  membershipVersion : LogConfigVersion
  deriving DecidableEq

structure ElectionAcceptRequestMsg extends ElectionMsgBase where
  leaseStartTsOnProposer : ℤ
  leaseInterval : ℤ
  membershipVersion : LogConfigVersion
  deriving DecidableEq

structure ElectionAcceptResponseMsg extends ElectionMsgBase where
  leaseStartedTsOnProposer : ℤ
  leaseInterval : ℤ
  accepted : Bool
  deriving DecidableEq

structure ElectionChangeLeaderMsg extends ElectionMsgBase where
  oldBallotNumber : ℤ
  membershipVersion : LogConfigVersion
  deriving DecidableEq

/-- The lease of an acceptor. An invalid address is `none`. -/
structure Lease where
  owner : Option Addr
  leaseEndTs : ℤ
  ballotNumber : ℤ
  deriving DecidableEq

namespace Lease

variable (l : Lease)

def initial : Lease := ⟨none, invalidValue, invalidValue⟩

/-- Only the acceptor itself can tell, by its own clock. -/
def isExpired (now : ℤ) : Prop := l.leaseEndTs < now
  deriving Decidable

/-- The ballot number stays. -/
def reset : Lease := { l with owner := none, leaseEndTs := -1 }

/-- Every replica can tell. -/
def isEmpty : Prop := l.owner = none ∧ l.leaseEndTs = -1
  deriving Decidable

def updateFrom (now : ℤ) (req : ElectionAcceptRequestMsg) : Lease where
  owner := some req.sender
  leaseEndTs := max l.leaseEndTs (now + req.leaseInterval)
  ballotNumber := req.ballotNumber

end Lease

/-- The response carries the ballot number of the acceptor: of the vote if `accepted`, of the
refusal otherwise. -/
structure ElectionPrepareResponseMsg extends ElectionMsgBase where
  accepted : Bool
  lease : Lease
  deriving DecidableEq

inductive ElectionMsg
  | prepareRequest (m : ElectionPrepareRequestMsg)
  | prepareResponse (m : ElectionPrepareResponseMsg)
  | acceptRequest (m : ElectionAcceptRequestMsg)
  | acceptResponse (m : ElectionAcceptResponseMsg)
  | changeLeader (m : ElectionChangeLeaderMsg)
  deriving DecidableEq

def ElectionMsg.base : ElectionMsg → ElectionMsgBase
  | .prepareRequest m => m.toElectionMsgBase
  | .prepareResponse m => m.toElectionMsgBase
  | .acceptRequest m => m.toElectionMsgBase
  | .acceptResponse m => m.toElectionMsgBase
  | .changeLeader m => m.toElectionMsgBase

/-- The members of the group. There are at most as many as the group should have replicas, and
the arrays of the proposer, which have an entry for every replica, are indexed by the position in
the list. -/
structure MemberList where
  addrList : List Addr
  membershipVersion : LogConfigVersion
  replicaNum : ℕ
  nodup : addrList.Nodup
  length_le : addrList.length ≤ replicaNum

def MemberList.isValid (M : MemberList) : Prop :=
  M.addrList ≠ [] ∧ M.membershipVersion.isValid ∧ 0 < M.replicaNum
  deriving Decidable

def MemberList.majority (M : MemberList) : ℕ := M.replicaNum / 2 + 1

end OceanBase.Election
