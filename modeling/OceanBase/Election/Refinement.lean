import OceanBase.Election.Moves

/-!
# The events of a replica are sequences of moves

## Main results

* `handleMessage_moves`, `timeWindowTask_moves`, `renewLeaseTask_moves`, `devoteTask_moves`,
  `changeLeaderTo_moves`, `prepare_moves`
-/

namespace OceanBase.Election

open Replica

variable {M : MemberList} {env : Env} {inc : Option ElectionMsg} {r r' : Replica}

/-! ## Broadcasts and bookkeeping -/

theorem broadcast_moves {m : Addr → ElectionMsg} (h : ∀ (o : List ElectionMsg) (dst : Addr),
      Move M env inc { r with outbox := o } (Replica.send (m dst) { r with outbox := o })) :
    Moves M env inc r (r.broadcast M m) := by
  have hsends : ∀ l : List Addr, Moves M env inc r { r with outbox := l.map m ++ r.outbox } := by
    intro l
    induction l with
    | nil => exact .refl
    | cons dst l ih => exact ih.tail (h _ dst)
  exact hsends M.addrList

theorem broadcast_prepareRequest_moves (role : ObRole) :
    Moves M env inc r (r.broadcast M (r.prepareRequestMsg M role)) :=
  broadcast_moves fun _ _ => .sendHarmless trivial rfl

theorem lastDoPrepareTs_move (ts : ℤ) :
    Move M env inc r { r with proposer := { r.proposer with lastDoPrepareTs := ts } } :=
  .book ⟨rfl, rfl, rfl, rfl, rfl, rfl, rfl, rfl, rfl, rfl, rfl⟩

theorem role_move (role : ObRole) :
    Move M env inc r { r with proposer := { r.proposer with role := role } } :=
  .book ⟨rfl, rfl, rfl, rfl, rfl, rfl, rfl, rfl, rfl, rfl, rfl⟩

theorem acceptor_move {a : ElectionAcceptor} (hb : a.ballotNumber = r.acceptor.ballotNumber)
    (hl : a.lease = r.acceptor.lease) : Move M env inc r { r with acceptor := a } :=
  .book ⟨rfl, hb, hl, rfl, rfl, rfl, rfl, rfl, rfl, rfl, rfl⟩

/-! ## The acceptor -/

theorem resetTimeWindowStates_same (a : ElectionAcceptor) :
    (resetTimeWindowStates a).ballotNumber = a.ballotNumber ∧
      (resetTimeWindowStates a).lease = a.lease := by
  unfold resetTimeWindowStates
  split <;> exact ⟨rfl, rfl⟩

theorem advanceAcceptor_of_lt {n} {a : ElectionAcceptor} (h : a.ballotNumber < n) :
    (advanceAcceptor n a).ballotNumber = n ∧ (advanceAcceptor n a).lease = a.lease := by
  unfold advanceAcceptor
  rw [if_pos h]
  exact resetTimeWindowStates_same _

theorem countInTimeWindow_same (env : Env) (req : ElectionPrepareRequestMsg)
    (a : ElectionAcceptor) : (countInTimeWindow env req a).ballotNumber = a.ballotNumber ∧
      (countInTimeWindow env req a).lease = a.lease := by
  unfold countInTimeWindow
  split
  · exact ⟨rfl, rfl⟩
  split
  · exact ⟨rfl, rfl⟩
  repeat' split
  all_goals exact ⟨rfl, rfl⟩

theorem openTimeWindow_same (env : Env) (req : ElectionPrepareRequestMsg) (a : ElectionAcceptor) :
    (openTimeWindow env req a).2.ballotNumber = a.ballotNumber ∧
      (openTimeWindow env req a).2.lease = a.lease := by
  unfold openTimeWindow
  split
  · dsimp only
    split <;> exact ⟨rfl, rfl⟩
  · exact ⟨rfl, rfl⟩

theorem joinTimeWindow_same (env : Env) (req : ElectionPrepareRequestMsg) (a : ElectionAcceptor) :
    (joinTimeWindow env req a).ballotNumber = a.ballotNumber ∧
      (joinTimeWindow env req a).lease = a.lease := by
  have hclose : ∀ a' : ElectionAcceptor, a'.ballotNumber = a.ballotNumber ∧ a'.lease = a.lease →
      let p := openTimeWindow env req a'
      let b := if p.1 ∧ p.2.isTimeWindowOpened then countInTimeWindow env req p.2 else p.2
      b.ballotNumber = a.ballotNumber ∧ b.lease = a.lease := by
    rintro a' ⟨hb, hl⟩
    obtain ⟨hb', hl'⟩ := openTimeWindow_same env req a'
    dsimp only
    split
    · obtain ⟨hb'', hl''⟩ := countInTimeWindow_same env req (openTimeWindow env req a').2
      exact ⟨hb''.trans (hb'.trans hb), hl''.trans (hl'.trans hl)⟩
    · exact ⟨hb'.trans hb, hl'.trans hl⟩
  unfold joinTimeWindow
  dsimp only
  split
  · exact hclose _ (resetTimeWindowStates_same a)
  · exact hclose _ ⟨rfl, rfl⟩

theorem acceptorOnPrepareRequest_moves (req : ElectionPrepareRequestMsg) :
    Moves M env inc r (r.acceptorOnPrepareRequest M env req) := by
  unfold acceptorOnPrepareRequest
  split
  · exact .refl
  split
  · exact .refl
  split
  · exact .refl
  split
  · exact .single (.sendHarmless rfl rfl)
  split
  · -- the prepare of a leader is answered at once
    split
    · exact .refl
    rename_i hle
    obtain ⟨hb, hl⟩ := advanceAcceptor_of_lt (not_le.mp hle)
    exact .single (.vote (by rw [hb]; exact not_le.mp hle) hl)
  · obtain ⟨hb, hl⟩ := joinTimeWindow_same env req r.acceptor
    exact .single (acceptor_move hb hl)

theorem sendVote_moves (req : ElectionPrepareRequestMsg) :
    Moves M env inc r (r.sendVote env req) := by
  unfold sendVote
  split
  · rename_i h
    by_cases hexp : r.acceptor.lease.isExpired env.now
    · rw [if_pos hexp]
      exact .head (.expireLease hexp) (.single (.vote h.2 rfl))
    · rw [if_neg hexp]
      exact .single (.vote h.2 rfl)
  · exact .refl

theorem voteInTimeWindow_moves : Moves M env inc r (r.voteInTimeWindow env) := by
  unfold voteInTimeWindow
  split
  · exact (sendVote_moves _).tail (acceptor_move rfl rfl)
  · exact .single (acceptor_move rfl rfl)

theorem resetLeaseIfJustExpired_moves : Moves M env inc r (r.resetLeaseIfJustExpired env) := by
  unfold resetLeaseIfJustExpired
  split
  · rename_i h
    exact .single (.expireLease h.2)
  · exact .refl

theorem timeWindowTask_moves : Moves M env inc r (r.timeWindowTask env) := by
  unfold timeWindowTask
  refine .tail (resetLeaseIfJustExpired_moves.trans ?_) (acceptor_move rfl rfl)
  split
  · exact voteInTimeWindow_moves
  · exact .refl

theorem acceptorOnAcceptRequest_moves {req} (hinc : inc = some (.acceptRequest req)) :
    Moves M env inc r (r.acceptorOnAcceptRequest env req) := by
  unfold acceptorOnAcceptRequest
  split
  · exact .refl
  split
  · exact .single (.sendHarmless rfl rfl)
  rename_i hge
  have hle := not_lt.mp hge
  by_cases hlt : r.acceptor.ballotNumber < req.ballotNumber
  · rw [if_pos hlt]
    obtain ⟨hb, hl⟩ := advanceAcceptor_of_lt hlt
    exact .single (.promise hinc hle hb (by rw [← hl]))
  · rw [if_neg hlt]
    exact .single (.promise hinc hle (le_antisymm hle (not_lt.mp hlt)) rfl)

/-! ## The proposer -/

theorem advance_moves {n} (h : r.proposer.ballotNumber ≤ n) :
    Moves M env inc r (r.advanceBallotNumber M n) := .single (.advance h)

theorem prepare_moves (role : ObRole) : Moves M env inc r (r.prepare M env role) := by
  unfold prepare
  split
  · exact .refl
  split
  · exact .refl
  split
  · exact .refl
  refine .head (lastDoPrepareTs_move env.clock) (.trans ?_ (broadcast_prepareRequest_moves role))
  split
  · exact advance_moves (Int.le_add_one le_rfl)
  · exact .refl

theorem followPrepare_moves : Moves M env inc r (r.followPrepare M env) := by
  unfold followPrepare
  split
  · exact .refl
  apply (broadcast_prepareRequest_moves r.proposer.role).trans
  split
  · exact .single (lastDoPrepareTs_move _)
  · exact .refl

theorem proposerOnPrepareRequest_moves (req : ElectionPrepareRequestMsg) :
    Moves M env inc r (r.proposerOnPrepareRequest M env req) := by
  unfold proposerOnPrepareRequest
  split
  · split
    · exact .single (.sendHarmless rfl rfl)
    · exact .refl
  split
  · exact .refl
  rename_i hlt _
  have hadv : Moves M env inc r (r.advanceBallotNumber M req.ballotNumber) :=
    advance_moves (not_le.mp hlt).le
  split
  · exact hadv
  · exact hadv.trans followPrepare_moves

theorem checkResponse_cases (inc : Option ElectionMsg) {msg accepted ok}
    (h : r.checkResponse M env msg accepted = (ok, r')) :
    Moves M env inc r r' ∧ (ok = true → r' = r ∧ msg.ballotNumber = r.proposer.ballotNumber ∧
      accepted = true) := by
  unfold checkResponse at h
  split at h
  · obtain ⟨rfl, rfl⟩ := Prod.mk.inj h
    exact ⟨.refl, by simp⟩
  split at h
  · obtain ⟨rfl, rfl⟩ := Prod.mk.inj h
    exact ⟨.refl, by simp⟩
  rename_i hge
  split at h
  · rename_i hlt
    have hadv : Moves M env inc r (r.advanceBallotNumber M msg.ballotNumber) :=
      advance_moves hlt.le
    dsimp only at h
    split at h
    · obtain ⟨rfl, rfl⟩ := Prod.mk.inj h
      exact ⟨hadv.trans ((advance_moves (Int.le_add_one le_rfl)).trans (prepare_moves _)), by simp⟩
    · obtain ⟨rfl, rfl⟩ := Prod.mk.inj h
      exact ⟨hadv, by simp⟩
  rename_i hle
  split at h
  · obtain ⟨rfl, rfl⟩ := Prod.mk.inj h
    exact ⟨.refl, by simp⟩
  rename_i hacc
  obtain ⟨rfl, rfl⟩ := Prod.mk.inj h
  exact ⟨.refl, fun _ => ⟨rfl, le_antisymm (not_lt.mp hle) (not_lt.mp hge), by simpa using hacc⟩⟩

theorem propose_moves (h : ProposeGuard M env r) : Moves M env inc r (r.propose M env) := by
  unfold propose
  have hbook : Move M env inc r
      { r with proposer := { r.proposer with recordLeaseInterval := env.leaseInterval } } :=
    .book ⟨rfl, rfl, rfl, rfl, rfl, rfl, rfl, rfl, rfl, rfl, rfl⟩
  exact .head hbook (broadcast_moves fun _ _ => .sendAcceptRequest h)

variable {res : ElectionPrepareResponseMsg}

theorem recordPrepareOk_moves (env : Env) {ret}
    (hinc : inc = some (.prepareResponse res)) (hacc : res.accepted = true)
    (hballot : res.ballotNumber = r.proposer.ballotNumber) (hcounts : r.voteCounts res.lease)
    (h : r.recordPrepareOk M res = (ret, r')) :
    Moves M env inc r r' ∧ (ret = .success → M.majority ≤ r'.proposer.prepareOk.countP id) := by
  unfold recordPrepareOk at h
  split at h
  · obtain ⟨rfl, rfl⟩ := Prod.mk.inj h
    exact ⟨.refl, by simp⟩
  rename_i idx hidx
  obtain ⟨hret, rfl⟩ := Prod.mk.inj h
  refine ⟨.single (.recordPrepare hinc hacc hballot hcounts hidx), fun hs => ?_⟩
  by_contra hlt
  rw [if_pos (not_le.mp hlt)] at hret
  rw [← hret] at hs
  cases hs

theorem onPrepareResponse_moves (hinc : inc = some (.prepareResponse res)) :
    Moves M env inc r (r.onPrepareResponse M env res) := by
  unfold onPrepareResponse
  rcases hcheck : r.checkResponse M env res.toElectionMsgBase res.accepted with ⟨ok, r₁⟩
  obtain ⟨hm, hok⟩ := checkResponse_cases inc hcheck
  cases ok with
  | false => exact hm
  | true =>
    obtain ⟨rfl, hballot, hacc⟩ := hok rfl
    dsimp only
    split
    · exact .refl
    rename_i hcounts
    rcases hrec : r₁.recordPrepareOk M res with ⟨ret, r₂⟩
    obtain ⟨hm₂, hmaj⟩ :=
      recordPrepareOk_moves env hinc hacc hballot (not_not.mp hcounts) hrec
    cases ret with
    | success =>
      refine hm₂.trans (.head (.win (hmaj rfl)) (propose_moves (.inr ⟨hmaj rfl, le_max_left _ _⟩)))
    | entryNotExist | belowMajority | overMajority => exact hm₂

/-! ## The lease -/

theorem revoke_moves : Moves M env inc r (r.leaderRevokeIfLeaseExpired M env).2 := by
  unfold leaderRevokeIfLeaseExpired
  split
  · exact .head (role_move .follower) (.head .clear (.single .dropLease))
  · exact .refl

theorem takeover_moves : Moves M env inc r (r.leaderTakeoverIfLeaseValid M env).2 := by
  unfold leaderTakeoverIfLeaseValid
  split
  · rename_i h
    have hbook : Move M env inc r { r with proposer := { r.proposer with
        highestPriorityCache := none
        role := .leader } } := .book ⟨rfl, rfl, rfl, rfl, rfl, rfl, rfl, rfl, rfl, rfl, rfl⟩
    exact .head hbook (propose_moves (.inl h.2))
  · exact .refl

/-- The promises are read before an expired leader clears them, so the lease is taken first. -/
theorem renewLeaderLease_moves :
    Moves M env inc r (r.renewLeaderLease M env (majorityPromisedNotVoteTs r.proposer)) := by
  unfold renewLeaderLease
  dsimp only
  split
  · have hbook : ∀ {r : Replica} {epoch : ℤ} {role : ObRole}, Move M env inc r
        { r with proposer := { r.proposer with leaderEpoch := epoch, role := role } } :=
      .book ⟨rfl, rfl, rfl, rfl, rfl, rfl, rfl, rfl, rfl, rfl, rfl⟩
    unfold setLeaderLease leaderRevokeIfLeaseExpired
    split
    · split
      · exact .head .takeLease (.head .clear (.single hbook))
      · exact .head .takeLease (.head .clear (.single hbook))
    · split
      · exact .single .takeLease
      · exact .head .takeLease (.single hbook)
  · exact revoke_moves

theorem takeoverAfterRenewal_moves : Moves M env inc r (r.takeoverAfterRenewal M env) := by
  unfold takeoverAfterRenewal
  have hm : Moves M env inc r (r.leaderTakeoverIfLeaseValid M env).2 := takeover_moves
  split
  · split
    · exact .refl
    split
    · rename_i r₁ htake
      rw [htake] at hm
      exact hm.tail .endSwitch
    · rename_i r₁ htake
      rw [htake] at hm
      exact hm
  · exact hm

theorem recordAcceptOk_moves {res ret}
    (hinc : inc = some (.acceptResponse res)) (hacc : res.accepted = true)
    (hballot : res.ballotNumber = r.proposer.ballotNumber)
    (h : r.recordAcceptOk M res = (ret, r')) : Moves M env inc r r' := by
  unfold recordAcceptOk at h
  split at h
  · obtain ⟨-, rfl⟩ := Prod.mk.inj h
    exact .refl
  rename_i idx hidx
  obtain ⟨-, rfl⟩ := Prod.mk.inj h
  exact .single (.recordAccept hinc hacc hballot hidx)

/-! ## Changing the leader -/

theorem innerChangeLeaderTo_moves (dst : Addr) :
    Moves M env inc r (r.innerChangeLeaderTo M env dst) := by
  unfold innerChangeLeaderTo
  dsimp only
  refine .trans (advance_moves (Int.le_add_one le_rfl)) (.head .dropLease ?_)
  -- stepping down changes neither the ballot number nor the lease, which is gone already
  unfold leaderRevokeIfLeaseExpired
  have hlt : r.proposer.ballotNumber < r.proposer.ballotNumber + 1 := Int.lt_succ _
  split
  · exact .head (role_move .follower) (.head .clear (.head .dropLease
      (.single (.sendChangeLeader hlt rfl))))
  · exact .single (.sendChangeLeader hlt rfl)

theorem changeLeaderTo_moves (destAddr : Addr) :
    Moves M env inc r (r.changeLeaderTo M env destAddr) := by
  unfold changeLeaderTo
  dsimp only
  split
  · exact .refl
  · exact innerChangeLeaderTo_moves _

theorem checkFollowerPriority_moves (res : ElectionAcceptResponseMsg) :
    Moves M env inc r (r.checkFollowerPriority M env res) := by
  have hbook : ∀ cache : Option (ElectionAcceptResponseMsg × ℤ), Move M env inc r
      { r with proposer := { r.proposer with highestPriorityCache := cache } } :=
    fun _ => .book ⟨rfl, rfl, rfl, rfl, rfl, rfl, rfl, rfl, rfl, rfl, rfl⟩
  unfold checkFollowerPriority
  split
  · dsimp only
    split
    · exact .single (hbook _)
    split
    · exact .single (hbook _)
    split
    · unfold prepareChangeLeaderTo
      split
      · exact .head (hbook _) (changeLeaderTo_moves _)
      · exact .single (hbook _)
    · exact .single (hbook _)
  · exact .refl

theorem onAcceptResponse_moves {res} (hinc : inc = some (.acceptResponse res)) :
    Moves M env inc r (r.onAcceptResponse M env res) := by
  unfold onAcceptResponse
  dsimp only
  refine .trans ?_ (checkFollowerPriority_moves res)
  rcases hcheck : r.checkResponse M env res.toElectionMsgBase res.accepted with ⟨ok, r₁⟩
  obtain ⟨hm, hok⟩ := checkResponse_cases inc hcheck
  cases ok with
  | false => exact hm
  | true =>
    obtain ⟨rfl, hballot, hacc⟩ := hok rfl
    dsimp only
    rcases hrec : r₁.recordAcceptOk M res with ⟨ret, r₂⟩
    have hm₂ : Moves M env inc r₁ r₂ := recordAcceptOk_moves hinc hacc hballot hrec
    cases ret with
    | success => exact hm₂.trans (renewLeaderLease_moves.trans takeoverAfterRenewal_moves)
    | entryNotExist | belowMajority | overMajority => exact hm₂

theorem onChangeLeader_moves {msg}
    (hinc : inc = some (.changeLeader msg)) : Moves M env inc r (r.onChangeLeader M env msg) := by
  unfold onChangeLeader
  split
  · exact .refl
  rename_i haccept
  split
  · exact .refl
  have hle : r.proposer.ballotNumber ≤ msg.ballotNumber := by
    have h := not_not.mp haccept
    unfold acceptsChangeLeader at h
    split at h
    · exact h.ge
    · exact h.le
  exact (advance_moves hle).trans (.head (.beginSwitch hinc rfl) (prepare_moves _))

/-! ## The events -/

theorem renewLeaseTask_moves : Moves M env inc r (r.renewLeaseTask M env) := by
  unfold renewLeaseTask
  split
  · exact .refl
  rename_i hrole
  have hm : Moves M env inc r (r.leaderRevokeIfLeaseExpired M env).2 := revoke_moves
  split
  · rename_i r₁ hrevoke
    rw [hrevoke] at hm
    exact hm
  rename_i r₁ hrevoke
  -- a leader that does not step down holds the lease
  have hleader : r.proposer.role = .leader := by
    cases h : r.proposer.role with
    | leader => rfl
    | follower => exact absurd h hrole
  have hcheck : r₁ = r ∧ r.checkLeader env.now := by
    unfold leaderRevokeIfLeaseExpired at hrevoke
    split at hrevoke
    · cases hrevoke
    rename_i hn
    exact ⟨(Prod.mk.inj hrevoke).2.symm, by_contra fun h => hn ⟨hleader, h⟩⟩
  obtain ⟨rfl, hcheck⟩ := hcheck
  split
  · exact .refl
  · exact propose_moves (.inl hcheck)

theorem devoteTask_moves : Moves M env inc r (r.devoteTask M env) := by
  unfold devoteTask
  split
  · split
    · exact .refl
    · exact prepare_moves _
  split
  · exact .head (role_move .follower) (prepare_moves _)
  · exact prepare_moves _

theorem handleMessage_moves (msg : ElectionMsg) :
    Moves M env (some msg) r (r.handleMessage M env msg) := by
  unfold handleMessage
  cases msg with
  | prepareRequest req =>
    refine .trans ?_ (acceptorOnPrepareRequest_moves req)
    split
    · exact proposerOnPrepareRequest_moves req
    · exact .refl
  | acceptRequest req =>
    refine .trans ?_ (acceptorOnAcceptRequest_moves rfl)
    split
    · rename_i hlt
      exact advance_moves hlt.le
    · exact .refl
  | prepareResponse res => exact onPrepareResponse_moves rfl
  | acceptResponse res => exact onAcceptResponse_moves rfl
  | changeLeader m => exact onChangeLeader_moves rfl

end OceanBase.Election
