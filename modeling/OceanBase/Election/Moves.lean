import OceanBase.Election.Proposer

/-!
# The guarded moves of a replica

The argument for the lease needs few facts about the code: a vote raises the ballot number of the
acceptor, a promise overwrites the lease, a lease is dropped only when it has expired or when the
leader is handed over, and so on. Each is a move here, with the checks the code has made before
it as a guard. `Election.Refinement` shows that every event is a sequence of moves.
-/

namespace OceanBase.Election

variable (M : MemberList) (env : Env) (inc : Option ElectionMsg)

/-- Two states that differ in bookkeeping only: roles, epochs, time windows, wall clock times and
caches. -/
structure SameCore (r r' : Replica) : Prop where
  selfAddr : r'.selfAddr = r.selfAddr
  acceptorBallot : r'.acceptor.ballotNumber = r.acceptor.ballotNumber
  lease : r'.acceptor.lease = r.acceptor.lease
  ballotNumber : r'.proposer.ballotNumber = r.proposer.ballotNumber
  prepareOk : r'.proposer.prepareOk = r.proposer.prepareOk
  acceptOk : r'.proposer.acceptOk = r.proposer.acceptOk
  prepareSuccessBallot : r'.proposer.prepareSuccessBallot = r.proposer.prepareSuccessBallot
  leaderLease : r'.proposer.leaderLease = r.proposer.leaderLease
  switchBallot :
    r'.proposer.switchSourceLeaderBallot = r.proposer.switchSourceLeaderBallot
  switchAddr : r'.proposer.switchSourceLeaderAddr = r.proposer.switchSourceLeaderAddr
  outbox : r'.outbox = r.outbox

/-- Messages that bind nobody: requests for votes, and refusals. -/
def Harmless : ElectionMsg → Prop
  | .prepareRequest _ => True
  | .prepareResponse m => m.accepted = false
  | .acceptResponse m => m.accepted = false
  | _ => False

/-- A proposer asks for promises when it has just won its ballot or holds the lease. -/
def ProposeGuard (r : Replica) : Prop :=
  r.checkLeader env.now ∨
    M.majority ≤ r.proposer.prepareOk.countP id ∧
      r.proposer.ballotNumber ≤ r.proposer.prepareSuccessBallot

/-- **The moves of a replica.** -/
inductive Move : Replica → Replica → Prop
  | book {r r'} (h : SameCore r r') : Move r r'
  | advance {r : Replica} {n} (h : r.proposer.ballotNumber ≤ n) :
      Move r (r.advanceBallotNumber M n)
  | clear {r} : Move r (r.clearPrepareAndAcceptStates M)
  | dropLease {r} : Move r r.resetLeaderLease
  | recordPrepare {r : Replica} {res idx}
      (hinc : inc = some (.prepareResponse res)) (hacc : res.accepted = true)
      (hballot : res.ballotNumber = r.proposer.ballotNumber) (hcounts : r.voteCounts res.lease)
      (hidx : M.addrList.idxOf? res.sender = some idx) :
      Move r { r with proposer := { r.proposer with
        prepareOk := r.proposer.prepareOk.set idx true } }
  | win {r : Replica} (h : M.majority ≤ r.proposer.prepareOk.countP id) :
      Move r { r with proposer := { r.proposer with
        prepareSuccessBallot := max r.proposer.ballotNumber r.proposer.prepareSuccessBallot } }
  | recordAccept {r : Replica} {res idx}
      (hinc : inc = some (.acceptResponse res)) (hacc : res.accepted = true)
      (hballot : res.ballotNumber = r.proposer.ballotNumber)
      (hidx : M.addrList.idxOf? res.sender = some idx) :
      Move r { r with proposer := { r.proposer with
        acceptOk := r.proposer.acceptOk.set idx (max (r.proposer.acceptOk.getD idx 0)
          (res.leaseStartedTsOnProposer + res.leaseInterval)) } }
  | takeLease {r} :
      Move r { r with proposer := { r.proposer with
        leaderLease := Replica.majorityPromisedNotVoteTs r.proposer } }
  | beginSwitch {r : Replica} {m}
      (hinc : inc = some (.changeLeader m)) (hballot : m.ballotNumber = r.proposer.ballotNumber) :
      Move r { r with proposer := { r.proposer with
        switchSourceLeaderBallot := m.oldBallotNumber
        switchSourceLeaderAddr := some m.sender } }
  | endSwitch {r} :
      Move r { r with proposer := { r.proposer with
        switchSourceLeaderBallot := invalidValue
        switchSourceLeaderAddr := none } }
  | expireLease {r : Replica} (h : r.acceptor.lease.isExpired env.now) :
      Move r { r with acceptor := { r.acceptor with lease := r.acceptor.lease.reset } }
  | vote {r : Replica} {a : ElectionAcceptor} {req}
      (hlt : r.acceptor.ballotNumber < a.ballotNumber) (hlease : a.lease = r.acceptor.lease) :
      Move r (Replica.send (Replica.prepareOkMsg req { r with acceptor := a })
        { r with acceptor := a })
  | promise {r : Replica} {a : ElectionAcceptor} {req}
      (hinc : inc = some (.acceptRequest req))
      (hle : r.acceptor.ballotNumber ≤ req.ballotNumber) (hballot : a.ballotNumber =
        req.ballotNumber)
      (hlease : a.lease = r.acceptor.lease.updateFrom env.now req) :
      Move r (Replica.send (Replica.acceptOkMsg req { r with acceptor := a } true)
        { r with acceptor := a })
  | sendHarmless {r : Replica} {m} (h : Harmless m) (hm : m.base.sender = r.selfAddr) :
      Move r (r.send m)
  | sendAcceptRequest {r dst} (h : ProposeGuard M env r) :
      Move r (r.send (r.acceptRequestMsg M env dst))
  | sendChangeLeader {r : Replica} {dst old} (hold : old < r.proposer.ballotNumber)
      (hlease : r.proposer.leaderLease = invalidValue) :
      Move r (r.send (r.changeLeaderMsg M old dst))

abbrev Moves : Replica → Replica → Prop := Relation.ReflTransGen (Move M env inc)

variable {M env inc} {r r' : Replica}

theorem Move.selfAddr (h : Move M env inc r r') : r'.selfAddr = r.selfAddr := by
  cases h with
  | book h => exact h.selfAddr
  | _ => rfl

theorem Move.outbox (h : Move M env inc r r') {m} :
    (m ∈ r.outbox → m ∈ r'.outbox) ∧
    (m ∈ r'.outbox → m ∈ r.outbox ∨ m.base.sender = r.selfAddr) := by
  cases h with
  | book h => rw [h.outbox]; exact ⟨id, .inl⟩
  | vote | promise | sendAcceptRequest | sendChangeLeader =>
    refine ⟨List.mem_cons_of_mem _, fun hm => ?_⟩
    rcases List.mem_cons.mp hm with rfl | hm
    · exact .inr rfl
    · exact .inl hm
  | sendHarmless _ hs =>
    refine ⟨List.mem_cons_of_mem _, fun hm => ?_⟩
    rcases List.mem_cons.mp hm with rfl | hm
    · exact .inr hs
    · exact .inl hm
  | _ => exact ⟨id, .inl⟩

theorem selfAddr_of_moves (h : Moves M env inc r r') : r'.selfAddr = r.selfAddr := by
  induction h with
  | refl => rfl
  | tail _ hm ih => rw [hm.selfAddr, ih]

theorem outbox_of_moves (h : Moves M env inc r r') {m} :
    (m ∈ r.outbox → m ∈ r'.outbox) ∧
    (m ∈ r'.outbox → m ∈ r.outbox ∨ m.base.sender = r.selfAddr) := by
  induction h with
  | refl => exact ⟨id, .inl⟩
  | tail hs hm ih =>
  refine ⟨fun h => hm.outbox.1 (ih.1 h), fun h => ?_⟩
  rcases hm.outbox.2 h with h | h
  · exact ih.2 h
  · exact .inr (h.trans (selfAddr_of_moves hs))

end OceanBase.Election
