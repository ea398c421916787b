import OceanBase.Election.Refinement

/-!
# What a replica of the election keeps

The invariant of one replica, relative to the messages all replicas have sent. Of an acceptor it
says how its votes and promises lie in time: a vote cast after a promise of a smaller ballot
carries the lease, or that of a later ballot, unless the promised time is over. Of a proposer it
says that what it counts has been sent: flags are votes, times are promises, a lease is a majority
of promises in one ballot.

Clocks run at the same rate, so a local time is the global one plus an offset, and times of
different replicas are compared after their offsets are taken off.

## Main results

* `Move.acceptorInv`, `Move.proposerInv`: moves keep the invariants
-/

namespace OceanBase.Election

open Replica List

variable {M : MemberList} {off : Addr → ℕ} {time : ℤ} {sent sent' own own' : ElectionMsg → Prop}
  {p a c i : Addr} {n k v old : ℤ} {l : Lease}

/-! ## What has been sent -/

section Sent

variable (sent)

/-- `i` has voted for `c` in ballot `k`, its lease being `l`. -/
def Voted (i c : Addr) (k : ℤ) (l : Lease) : Prop :=
  ∃ m : ElectionPrepareResponseMsg, sent (.prepareResponse m) ∧ m.accepted = true ∧
    m.sender = i ∧ m.receiver = c ∧ m.ballotNumber = k ∧ m.lease = l

/-- `i` has promised `a` in ballot `n` not to vote before `v`, by the clock of `a`. -/
def Promised (i a : Addr) (n v : ℤ) : Prop :=
  ∃ m : ElectionAcceptResponseMsg, sent (.acceptResponse m) ∧ m.accepted = true ∧
    m.sender = i ∧ m.receiver = a ∧ m.ballotNumber = n ∧
    m.leaseStartedTsOnProposer + m.leaseInterval = v

def Proposed (a : Addr) (n : ℤ) : Prop :=
  ∃ m : ElectionAcceptRequestMsg, sent (.acceptRequest m) ∧ m.sender = a ∧ m.ballotNumber = n

/-- `a`, until then in ballot `old`, has handed over to `c` in ballot `k`. -/
def HandedOver (a c : Addr) (k old : ℤ) : Prop :=
  ∃ m : ElectionChangeLeaderMsg, sent (.changeLeader m) ∧ m.sender = a ∧ m.receiver = c ∧
    m.ballotNumber = k ∧ m.oldBallotNumber = old

/-- A vote that `c` may count. -/
def CountedVote (i c : Addr) (k : ℤ) : Prop :=
  ∃ l, Voted sent i c k l ∧ (l.isEmpty ∨ l.owner = some c ∨
    ∃ x, l.owner = some x ∧ HandedOver sent x c k l.ballotNumber)

/-- `c` has a majority of votes in ballot `k`. -/
def Won (M : MemberList) (c : Addr) (k : ℤ) : Prop :=
  ∃ Q, IsMajority M.addrList M.replicaNum Q ∧ ∀ i ∈ Q, CountedVote sent i c k

/-- `a` has a majority of promises in ballot `n` that reach to `v`. -/
def Leased (M : MemberList) (a : Addr) (n v : ℤ) : Prop :=
  ∃ Q, IsMajority M.addrList M.replicaNum Q ∧ ∀ i ∈ Q, ∃ v', v ≤ v' ∧ Promised sent i a n v'

/-- A lease that an acceptor can have: empty if it has no owner, and otherwise granted on a
request. -/
structure LeaseOk (l : Lease) : Prop where
  empty : l.owner = none → l.leaseEndTs = -1
  owned : ∀ x, l.owner = some x → Proposed sent x l.ballotNumber

end Sent

section

variable (h : ∀ m, sent m → sent' m)
include h

theorem Voted.mono : Voted sent i c k l → Voted sent' i c k l :=
  fun ⟨m, hm, h'⟩ => ⟨m, h _ hm, h'⟩

theorem Promised.mono : Promised sent i a n v → Promised sent' i a n v :=
  fun ⟨m, hm, h'⟩ => ⟨m, h _ hm, h'⟩

theorem Proposed.mono : Proposed sent a n → Proposed sent' a n :=
  fun ⟨m, hm, h'⟩ => ⟨m, h _ hm, h'⟩

theorem HandedOver.mono : HandedOver sent a c k old → HandedOver sent' a c k old :=
  fun ⟨m, hm, h'⟩ => ⟨m, h _ hm, h'⟩

theorem CountedVote.mono : CountedVote sent i c k → CountedVote sent' i c k := by
  rintro ⟨l, hv, hl⟩
  exact ⟨l, hv.mono h, hl.imp_right (.imp_right fun ⟨x, hx, ho⟩ => ⟨x, hx, ho.mono h⟩)⟩

theorem Won.mono : Won sent M c k → Won sent' M c k :=
  fun ⟨Q, hQ, hv⟩ => ⟨Q, hQ, fun i hi => (hv i hi).mono h⟩

theorem Leased.mono : Leased sent M a n v → Leased sent' M a n v := by
  rintro ⟨Q, hQ, hp⟩
  refine ⟨Q, hQ, fun i hi => ?_⟩
  obtain ⟨v', hle, hv⟩ := hp i hi
  exact ⟨v', hle, hv.mono h⟩

theorem LeaseOk.mono (hl : LeaseOk sent l) : LeaseOk sent' l :=
  ⟨hl.empty, fun x hx => (hl.owned x hx).mono h⟩

end

/-! ## The acceptor -/

/-- **The invariant of an acceptor** with address `p`, ballot number `ballot` and lease `l`,
which has sent the messages `own`. -/
structure AcceptorInv (off : Addr → ℕ) (time : ℤ) (sent own : ElectionMsg → Prop) (p : Addr)
    (ballot : ℤ) (l : Lease) : Prop where
  lease_le : l.ballotNumber ≤ ballot
  lease_ok : LeaseOk sent l
  vote_le : ∀ {c k l'}, Voted own p c k l' → k ≤ ballot
  vote_unique : ∀ {c c' k l' l''}, Voted own p c k l' → Voted own p c' k l'' → c = c'
  vote_lease : ∀ {c k l'}, Voted own p c k l' → l'.ballotNumber < k ∧ LeaseOk sent l'
  /-- a promise is kept: the lease lasts until the promised time, unless it is over -/
  promise_kept : ∀ {a n v}, Promised own p a n v →
    v - off a < time ∨ l.owner ≠ none ∧ v - off a ≤ l.leaseEndTs - off p ∧ n ≤ l.ballotNumber
  /-- a vote in a larger ballot tells of the promise, unless it is over -/
  vote_promise : ∀ {c k l' a n v}, Voted own p c k l' → Promised own p a n v → n < k →
    v - off a < time ∨ l'.owner ≠ none ∧ n ≤ l'.ballotNumber
  promise_proposed : ∀ {a n v}, Promised own p a n v → Proposed sent a n

section Acceptor

variable {ballot ballot' : ℤ} {l' : Lease}

theorem AcceptorInv.mono {time'} (ht : time ≤ time') (h : ∀ m, sent m → sent' m)
    (hi : AcceptorInv off time sent own p ballot l) :
    AcceptorInv off time' sent' own p ballot l := { hi with
  lease_ok := hi.lease_ok.mono h
  vote_lease hv := ⟨(hi.vote_lease hv).1, (hi.vote_lease hv).2.mono h⟩
  promise_kept hp := (hi.promise_kept hp).imp_left fun h => h.trans_le ht
  vote_promise hv hp hlt := (hi.vote_promise hv hp hlt).imp_left fun h => h.trans_le ht
  promise_proposed hp := (hi.promise_proposed hp).mono h }

section

variable (hi : AcceptorInv off time sent own p ballot l)
include hi

theorem AcceptorInv.send_other (hvote : ∀ c k l', Voted own' p c k l' → Voted own p c k l')
    (hpromise : ∀ a n v, Promised own' p a n v → Promised own p a n v) :
    AcceptorInv off time sent own' p ballot l := { hi with
  vote_le hv := hi.vote_le (hvote _ _ _ hv)
  vote_unique hv hv' := hi.vote_unique (hvote _ _ _ hv) (hvote _ _ _ hv')
  vote_lease hv := hi.vote_lease (hvote _ _ _ hv)
  promise_kept hp := hi.promise_kept (hpromise _ _ _ hp)
  vote_promise hv hp := hi.vote_promise (hvote _ _ _ hv) (hpromise _ _ _ hp)
  promise_proposed hp := hi.promise_proposed (hpromise _ _ _ hp) }

/-- An expired lease is dropped: every promise it kept is over. -/
theorem AcceptorInv.expire (hexp : l.isExpired (time + off p)) :
    AcceptorInv off time sent own p ballot l.reset := { hi with
  lease_ok := ⟨fun _ => rfl, fun x hx => by cases hx⟩
  promise_kept hp := by
    rcases hi.promise_kept hp with h | ⟨-, h, -⟩
    · exact .inl h
    unfold Lease.isExpired at hexp
    exact .inl (by omega) }

theorem AcceptorInv.vote (hlt : ballot < ballot') (hvote : ∀ c' k l', Voted own' p c' k l' →
      Voted own p c' k l' ∨ c' = c ∧ k = ballot' ∧ l' = l)
    (hpromise : ∀ a n v, Promised own' p a n v → Promised own p a n v) :
    AcceptorInv off time sent own' p ballot' l where
  lease_le := hi.lease_le.trans hlt.le
  lease_ok := hi.lease_ok
  vote_le hv := by
    rcases hvote _ _ _ hv with hv | ⟨-, rfl, -⟩
    · exact (hi.vote_le hv).trans hlt.le
    · exact le_rfl
  vote_unique hv hv' := by
    -- an earlier vote is of a smaller ballot
    rcases hvote _ _ _ hv with hv | ⟨rfl, hk, -⟩ <;> rcases hvote _ _ _ hv' with hv' | ⟨hc', hk', -⟩
    · exact hi.vote_unique hv hv'
    · exact absurd (hi.vote_le hv) (by omega)
    · exact absurd (hi.vote_le hv') (by omega)
    · exact hc'.symm
  vote_lease hv := by
    rcases hvote _ _ _ hv with hv | ⟨-, rfl, rfl⟩
    · exact hi.vote_lease hv
    · exact ⟨hi.lease_le.trans_lt hlt, hi.lease_ok⟩
  promise_kept hp := hi.promise_kept (hpromise _ _ _ hp)
  vote_promise hv hp hn := by
    rcases hvote _ _ _ hv with hv | ⟨-, rfl, rfl⟩
    · exact hi.vote_promise hv (hpromise _ _ _ hp) hn
    · exact (hi.promise_kept (hpromise _ _ _ hp)).imp_right fun h => ⟨h.1, h.2.2⟩
  promise_proposed hp := hi.promise_proposed (hpromise _ _ _ hp)

/-- A promise overwrites the lease, which only gets longer, and is of a ballot no vote has gone
beyond. -/
theorem AcceptorInv.promise {req : ElectionAcceptRequestMsg} (hle : ballot ≤ req.ballotNumber)
    (hreq : sent (.acceptRequest req)) (hstart : req.leaseStartTsOnProposer - off req.sender ≤ time)
    (hvote : ∀ c k l', Voted own' p c k l' → Voted own p c k l')
    (hpromise : ∀ a n v, Promised own' p a n v → Promised own p a n v ∨
      a = req.sender ∧ n = req.ballotNumber ∧ v = req.leaseStartTsOnProposer + req.leaseInterval) :
    AcceptorInv off time sent own' p req.ballotNumber (l.updateFrom (time + off p) req) where
  lease_le := le_rfl
  lease_ok := by
    refine ⟨fun h => (nomatch h), fun x hx => ⟨req, hreq, Option.some.inj hx, rfl⟩⟩
  vote_le hv := (hi.vote_le (hvote _ _ _ hv)).trans hle
  vote_unique hv hv' := hi.vote_unique (hvote _ _ _ hv) (hvote _ _ _ hv')
  vote_lease hv := hi.vote_lease (hvote _ _ _ hv)
  promise_kept hp := by
    rcases hpromise _ _ _ hp with hp | ⟨rfl, rfl, rfl⟩
    · refine (hi.promise_kept hp).imp_right fun ⟨_, hend, hn⟩ => ⟨fun h => (nomatch h), ?_, ?_⟩
      · have := le_max_left l.leaseEndTs (time + off p + req.leaseInterval)
        unfold Lease.updateFrom
        dsimp only
        omega
      · exact hn.trans (hi.lease_le.trans hle)
    · refine .inr ⟨fun h => (nomatch h), ?_, le_rfl⟩
      have := le_max_right l.leaseEndTs (time + off p + req.leaseInterval)
      unfold Lease.updateFrom
      dsimp only
      omega
  vote_promise hv hp hn := by
    rcases hpromise _ _ _ hp with hp | ⟨-, rfl, -⟩
    · exact hi.vote_promise (hvote _ _ _ hv) hp hn
    · exact absurd (hi.vote_le (hvote _ _ _ hv)) (by omega)
  promise_proposed hp := by
    rcases hpromise _ _ _ hp with hp | ⟨rfl, rfl, -⟩
    · exact hi.promise_proposed hp
    · exact ⟨req, hreq, rfl, rfl⟩

end

end Acceptor

/-! ## The proposer -/

/-- **The invariant of a proposer** `pr` with address `p`, which has sent the messages `own`. -/
structure ProposerInv (M : MemberList) (off : Addr → ℕ) (time : ℤ)
    (sent own : ElectionMsg → Prop) (p : Addr) (pr : ElectionProposer) : Prop where
  success_le : pr.prepareSuccessBallot ≤ pr.ballotNumber
  prepareOk : ∀ {i : ℕ}, pr.prepareOk[i]? = some true →
    ∃ a, M.addrList[i]? = some a ∧ CountedVote sent a p pr.ballotNumber
  acceptOk : ∀ {i : ℕ} {v : ℤ}, pr.acceptOk[i]? = some v → 0 < v →
    ∃ a, M.addrList[i]? = some a ∧ Promised sent a p pr.ballotNumber v
  acceptOk_proposed : ∀ {i : ℕ} {v : ℤ}, pr.acceptOk[i]? = some v → 0 < v →
    Proposed own p pr.ballotNumber
  acceptOk_length : pr.acceptOk.length = M.replicaNum
  switch : ∀ {x}, pr.switchSourceLeaderAddr = some x →
    HandedOver sent x p pr.ballotNumber pr.switchSourceLeaderBallot
  handed : ∀ {c k old}, HandedOver own p c k old → old < pr.ballotNumber
  /-- the lease is a majority of promises of one ballot, later than every hand-over -/
  lease : 0 < pr.leaderLease → ∃ n, Leased sent M p n pr.leaderLease ∧ Proposed own p n ∧
    ∀ {c k old}, HandedOver own p c k old → old < n
  proposed : ∀ {m : ElectionAcceptRequestMsg}, own (.acceptRequest m) → m.sender = p →
    Won sent M p m.ballotNumber ∧ m.leaseStartTsOnProposer ≤ time + off p
  proposed_success : ∀ {n}, Proposed own p n → Won sent M p pr.prepareSuccessBallot

section Proposer

variable {p : Addr} {pr : ElectionProposer}

theorem ProposerInv.mono {time'} (ht : time ≤ time') (h : ∀ m, sent m → sent' m)
    (hi : ProposerInv M off time sent own p pr) : ProposerInv M off time' sent' own p pr :=
  { hi with
  prepareOk hok := by
    obtain ⟨a, ha, hv⟩ := hi.prepareOk hok
    exact ⟨a, ha, hv.mono h⟩
  acceptOk hok hpos := by
    obtain ⟨a, ha, hv⟩ := hi.acceptOk hok hpos
    exact ⟨a, ha, hv.mono h⟩
  switch hx := (hi.switch hx).mono h
  lease hpos := by
    obtain ⟨n, hl, hn⟩ := hi.lease hpos
    exact ⟨n, hl.mono h, hn⟩
  proposed hm hs := ⟨(hi.proposed hm hs).1.mono h, (hi.proposed hm hs).2.trans (by omega)⟩
  proposed_success hp := (hi.proposed_success hp).mono h }

theorem not_pos_of_replicate {m i : ℕ} (h : (replicate m (0 : ℤ))[i]? = some v) : ¬ 0 < v := by
  rw [eq_of_mem_replicate (mem_of_getElem? h)]
  exact lt_irrefl 0

section

variable (hi : ProposerInv M off time sent own p pr)
include hi

theorem ProposerInv.clear :
    ProposerInv M off time sent own p { pr with
      prepareOk := replicate M.replicaNum false
      acceptOk := replicate M.replicaNum 0 } := { hi with
  prepareOk hok := by simp [getElem?_replicate] at hok
  acceptOk hok hpos := absurd hpos (not_pos_of_replicate hok)
  acceptOk_proposed hok hpos := absurd hpos (not_pos_of_replicate hok)
  acceptOk_length := by simp }

theorem ProposerInv.endSwitch :
    ProposerInv M off time sent own p { pr with
      switchSourceLeaderBallot := invalidValue
      switchSourceLeaderAddr := none } :=
  { hi with switch := fun h => (nomatch h) }

/-- The proposer takes a larger ballot number: nothing it has counted is of that ballot. -/
theorem ProposerInv.advance (hle : pr.ballotNumber ≤ n) :
    ProposerInv M off time sent own p { pr with
      ballotNumber := n
      prepareOk := replicate M.replicaNum false
      acceptOk := replicate M.replicaNum 0
      switchSourceLeaderBallot := invalidValue
      switchSourceLeaderAddr := none } :=
  have hc := hi.clear
  { hc.endSwitch with
    success_le := hi.success_le.trans hle
    prepareOk := fun hok => by simp [getElem?_replicate] at hok
    acceptOk := fun hok hpos => absurd hpos (not_pos_of_replicate hok)
    acceptOk_proposed := fun hok hpos => absurd hpos (not_pos_of_replicate hok)
    switch := fun h => (nomatch h)
    handed := fun h => (hi.handed h).trans_le hle }

theorem ProposerInv.dropLease (epoch : ℤ) :
    ProposerInv M off time sent own p { pr with
      leaderLease := invalidValue
      leaderEpoch := epoch } :=
  { hi with lease := fun hpos => absurd hpos (show ¬ (0 : ℤ) < invalidValue by decide) }

theorem ProposerInv.recordPrepare {idx}
    (ha : M.addrList[idx]? = some a) (hv : CountedVote sent a p pr.ballotNumber) :
    ProposerInv M off time sent own p { pr with prepareOk := pr.prepareOk.set idx true } :=
  { hi with
    prepareOk := fun {i} hok => by
      by_cases hidx : i = idx
      · exact ⟨a, hidx ▸ ha, hv⟩
      apply hi.prepareOk
      rwa [getElem?_set_ne (Ne.symm hidx)] at hok }

theorem ProposerInv.recordAccept {idx}
    (ha : M.addrList[idx]? = some a) (hp : Promised sent a p pr.ballotNumber v)
    (hproposed : Proposed own p pr.ballotNumber) :
    ProposerInv M off time sent own p { pr with
      acceptOk := pr.acceptOk.set idx (max (pr.acceptOk.getD idx 0) v) } :=
  { hi with
    acceptOk := fun {i} {w} hok hpos => by
      by_cases hidx : i = idx
      · subst hidx
        rw [getElem?_set_self'] at hok
        cases hold : pr.acceptOk[i]? with
        | none => simp [hold] at hok
        | some u =>
        rw [getD_eq_getElem?_getD, hold] at hok
        have hw : max u v = w := by simpa using hok
        rcases max_choice u v with h | h
        · rw [h] at hw
          exact hi.acceptOk (hw ▸ hold) hpos
        · rw [h] at hw
          exact ⟨a, ha, hw ▸ hp⟩
      · rw [getElem?_set_ne (Ne.symm hidx)] at hok
        exact hi.acceptOk hok hpos
    acceptOk_proposed := fun _ _ => hproposed
    acceptOk_length := by rw [length_set, hi.acceptOk_length] }

theorem ProposerInv.won (h : M.majority ≤ pr.prepareOk.countP id) :
    Won sent M p pr.ballotNumber := by
  obtain ⟨Q, hQ, hcard⟩ := exists_finset_of_countP
    (P := fun a => CountedVote sent a p pr.ballotNumber) (f := id) M.nodup
    fun i x hx hf => hi.prepareOk (by rw [hx, show x = true from hf])
  exact ⟨Q, ⟨fun a ha => (hQ a ha).1, h.trans hcard⟩, fun a ha => (hQ a ha).2⟩

theorem ProposerInv.win (h : M.majority ≤ pr.prepareOk.countP id) :
    ProposerInv M off time sent own p { pr with
      prepareSuccessBallot := max pr.ballotNumber pr.prepareSuccessBallot } :=
  have hmax : max pr.ballotNumber pr.prepareSuccessBallot = pr.ballotNumber :=
    max_eq_left hi.success_le
  { hi with
    success_le := hmax.le
    proposed_success := fun _ => by
      rw [hmax]
      exact hi.won h }

/-- The element in the middle is what a majority has promised. -/
theorem ProposerInv.takeLease :
    ProposerInv M off time sent own p { pr with
      leaderLease := majorityPromisedNotVoteTs pr } :=
  { hi with
    lease := fun hpos => by
      set v := majorityPromisedNotVoteTs pr with hv
      -- a positive element in the middle is there
      have hget : (sortDesc pr.acceptOk)[pr.acceptOk.length / 2]? = some v := by
        unfold majorityPromisedNotVoteTs at hv
        rw [getD_eq_getElem?_getD] at hv
        cases hx : (sortDesc pr.acceptOk)[pr.acceptOk.length / 2]? with
        | none => rw [hx] at hv; simp [hv] at hpos
        | some x => rw [hx] at hv; simpa using hv.symm
      have hcount := (le_sortDesc_iff hget).mp le_rfl
      rw [hi.acceptOk_length] at hcount
      obtain ⟨Q, hQ, hcard⟩ := exists_finset_of_countP
        (P := fun a => ∃ v', v ≤ v' ∧ Promised sent a p pr.ballotNumber v')
        (f := fun y => decide (v ≤ y)) M.nodup fun i x hx hf => by
          have hle : v ≤ x := of_decide_eq_true hf
          obtain ⟨a, ha, hp⟩ := hi.acceptOk hx (hpos.trans_le hle)
          exact ⟨a, ha, x, hle, hp⟩
      have hmajority : IsMajority M.addrList M.replicaNum Q :=
        ⟨fun a ha => (hQ a ha).1, hcount.trans hcard⟩
      -- some entry is positive, so the proposer has asked for promises in this ballot
      obtain ⟨x, hx, hle⟩ : ∃ x ∈ pr.acceptOk, decide (v ≤ x) = true :=
        countP_pos_iff.mp (by omega)
      obtain ⟨i, hi', rfl⟩ := getElem_of_mem hx
      have hproposed := hi.acceptOk_proposed (getElem?_eq_getElem hi')
        (hpos.trans_le (of_decide_eq_true hle))
      exact ⟨pr.ballotNumber, ⟨Q, hmajority, fun a ha => (hQ a ha).2⟩, hproposed,
        fun h => hi.handed h⟩ }

/-- A message is sent: a request for promises in a ballot that is won, a hand-over without a
lease. -/
theorem ProposerInv.send {msg} (hown : ∀ {m}, own' m ↔ m = msg ∨ own m)
    (hreq : ∀ m, .acceptRequest m = msg → m.ballotNumber = pr.prepareSuccessBallot ∧
      m.leaseStartTsOnProposer ≤ time + off p ∧ Won sent M p pr.prepareSuccessBallot)
    (hhand : ∀ m, .changeLeader m = msg →
      m.oldBallotNumber < pr.ballotNumber ∧ pr.leaderLease = invalidValue) :
    ProposerInv M off time sent own' p pr :=
  have hsub (m) (h : own m) : own' m := hown.mpr (.inr h)
  { hi with
    acceptOk_proposed := fun h hpos => (hi.acceptOk_proposed h hpos).mono hsub
    handed := by
      rintro c k old ⟨m, hm, hs, hr, hb, rfl⟩
      rcases hown.mp hm with hm | hm
      · exact (hhand m hm).1
      · exact hi.handed ⟨m, hm, hs, hr, hb, rfl⟩
    lease := fun hpos => by
      obtain ⟨n, hl, hp, hn⟩ := hi.lease hpos
      refine ⟨n, hl, hp.mono hsub, fun ⟨m, hm, h⟩ => hn ⟨m, ?_, h⟩⟩
      refine (hown.mp hm).resolve_left fun hm => ?_
      rw [(hhand m hm).2] at hpos
      exact absurd hpos (by decide)
    proposed := fun {m} hm hs => by
      rcases hown.mp hm with hm | hm
      · obtain ⟨hb, hstart, hwon⟩ := hreq m hm
        exact ⟨hb ▸ hwon, hstart⟩
      · exact hi.proposed hm hs
    proposed_success := fun ⟨m, hm, h⟩ => by
      rcases hown.mp hm with hm | hm
      · exact (hreq m hm).2.2
      · exact hi.proposed_success ⟨m, hm, h⟩ }

end

end Proposer

end OceanBase.Election
