import OceanBase.Election.Invariant
import OceanBase.Lib.Machine

/-!
# The leader lease excludes other leaders

A group of replicas with one member list and monotonic clocks that run at the same rate. Messages
are delivered in any order, any number of times or never, timers fire at any time, and a change of
the leader may be asked for at any time.

Suppose that `a` holds a lease of ballot `n` and that `c` has won a larger ballot `k`. Their
majorities share an acceptor, which has voted for `c` after its promise to `a`. If the promised
time is not over, the vote carries a lease: that of `a`, or one of a later ballot below `k`. It
counts only if its owner is `c` itself or has handed over to `c`. In the first case `c` has won a
smaller ballot; in the second the owner is `a`, or has won a smaller ballot than `k` itself. So by
induction on `k` either the promised time is over, or `a` has handed over; but a leader that hands
over drops its lease, and takes promises of larger ballots only.

## Main results

* `leader_lease_exclusion`
* `one_proposer_per_ballot`
-/

namespace OceanBase.Election

open Replica List Option

variable {M : MemberList} {env : Env} {inc : Option ElectionMsg} {off : Addr → ℕ} {time : ℤ}
  {sent sent' : ElectionMsg → Prop} {r r' : Replica} {p q : Addr}

/-! ## One replica -/

structure ReplicaInv (M : MemberList) (off : Addr → ℕ) (time : ℤ) (sent : ElectionMsg → Prop)
    (r : Replica) : Prop where
  acceptor : AcceptorInv off time sent (· ∈ r.outbox) r.selfAddr r.acceptor.ballotNumber
    r.acceptor.lease
  proposer : ProposerInv M off time sent (· ∈ r.outbox) r.selfAddr r.proposer

structure Incoming (off : Addr → ℕ) (time : ℤ) (sent : ElectionMsg → Prop) (r : Replica)
    (inc : Option ElectionMsg) : Prop where
  arrived : ∀ {m}, inc = some m → sent m ∧ m.base.receiver = r.selfAddr
  vote : ∀ {m : ElectionPrepareResponseMsg}, inc = some (.prepareResponse m) →
    m.accepted = true → LeaseOk sent m.lease
  request : ∀ {m : ElectionAcceptRequestMsg}, inc = some (.acceptRequest m) →
    m.leaseStartTsOnProposer - off m.sender ≤ time
  promise : ∀ {m : ElectionAcceptResponseMsg}, inc = some (.acceptResponse m) →
    m.accepted = true → Proposed (· ∈ r.outbox) r.selfAddr m.ballotNumber

theorem ReplicaInv.mono {time'} (ht : time ≤ time') (h : ∀ m, sent m → sent' m)
    (hi : ReplicaInv M off time sent r) : ReplicaInv M off time' sent' r :=
  ⟨hi.acceptor.mono ht h, hi.proposer.mono ht h⟩

theorem Incoming.none : Incoming off time sent r none :=
  ⟨fun h => (nomatch h), fun h => (nomatch h), fun h => (nomatch h), fun h => (nomatch h)⟩

theorem Incoming.move (hinc : Incoming off time sent r inc) (h : Move M env inc r r') :
    Incoming off time sent r' inc := { hinc with
  arrived hm := by
    rw [h.selfAddr]
    exact hinc.arrived hm
  promise hm hacc := by
    rw [h.selfAddr]
    exact (hinc.promise hm hacc).mono fun _ hm => h.outbox.1 hm }

theorem getElem?_of_idxOf? {l : List Addr} {x i} (h : l.idxOf? x = some i) : l[i]? = some x := by
  have h' : l.findIdx? (· == x) = some i := h
  obtain ⟨hi, hx, -⟩ := List.findIdx?_eq_some_iff_getElem.mp h'
  rw [List.getElem?_eq_getElem hi, eq_of_beq hx]

theorem countedVote_of_voteCounts (hi : ProposerInv M off time sent (· ∈ r.outbox) r.selfAddr
      r.proposer) {res} (hinc : Incoming off time sent r inc)
    (heq : inc = some (.prepareResponse res)) (hacc : res.accepted = true)
    (hballot : res.ballotNumber = r.proposer.ballotNumber) (hcounts : r.voteCounts res.lease) :
    CountedVote sent res.sender r.selfAddr r.proposer.ballotNumber := by
  refine ⟨res.lease, ⟨res, (hinc.arrived heq).1, hacc, rfl, (hinc.arrived heq).2, hballot, rfl⟩, ?_⟩
  rcases hcounts with h | h | ⟨howner, hold⟩
  · exact .inl h
  · exact .inr (.inl h)
  cases hx : r.proposer.switchSourceLeaderAddr with
  | none =>
    rw [hx] at howner
    exact .inl ⟨howner, (hinc.vote heq hacc).empty howner⟩
  | some x =>
    rw [hx] at howner
    exact .inr (.inr ⟨x, howner, hold ▸ hi.switch hx⟩)

theorem voted_of_cons {msgs m p} (hm : ∀ x, .prepareResponse x = m → x.accepted = false) (c k l)
    (h : Voted (· ∈ m :: msgs) p c k l) : Voted (· ∈ msgs) p c k l := by
  obtain ⟨x, hx, hacc, h⟩ := h
  refine ⟨x, (mem_cons.mp hx).resolve_left fun heq => ?_, hacc, h⟩
  exact nomatch hacc.symm.trans (hm x heq)

theorem promised_of_cons {msgs m p} (hm : ∀ x, .acceptResponse x = m → x.accepted = false) (a n v)
    (h : Promised (· ∈ m :: msgs) p a n v) : Promised (· ∈ msgs) p a n v := by
  obtain ⟨x, hx, hacc, h⟩ := h
  refine ⟨x, (mem_cons.mp hx).resolve_left fun heq => ?_, hacc, h⟩
  exact nomatch hacc.symm.trans (hm x heq)

theorem Move.acceptorInv (h : Move M env inc r r') (hnow : env.now = time + off r.selfAddr)
    (hinc : Incoming off time sent r inc) (hi : ReplicaInv M off time sent r) :
    AcceptorInv off time sent (· ∈ r'.outbox) r'.selfAddr r'.acceptor.ballotNumber
      r'.acceptor.lease := by
  have ha := hi.acceptor
  cases h with
  | book h =>
    rw [h.outbox, h.selfAddr, h.acceptorBallot, h.lease]
    exact ha
  | expireLease hexp =>
    rw [hnow] at hexp
    exact ha.expire hexp
  | @vote a req hlt hlease =>
    dsimp only [send]
    rw [hlease]
    refine ha.vote (c := req.sender) hlt ?_ (promised_of_cons fun _ h => nomatch h)
    rintro c' k l' ⟨m, hm, hacc, hs, hr, hk, hl⟩
    rcases mem_cons.mp hm with heq | hm
    · cases heq
      exact .inr ⟨hr.symm, hk.symm, hl.symm.trans hlease⟩
    · exact .inl ⟨m, hm, hacc, hs, hr, hk, hl⟩
  | @promise a req heq hle hballot hlease =>
    dsimp only [send]
    rw [hballot, hlease, hnow]
    refine ha.promise hle (hinc.arrived heq).1 (hinc.request heq)
      (voted_of_cons fun _ h => nomatch h) ?_
    rintro a' n v ⟨m, hm, hacc, hs, hr, hn, hv⟩
    rcases mem_cons.mp hm with heq | hm
    · cases heq
      exact .inr ⟨hr.symm, hn.symm.trans hballot, hv.symm⟩
    · exact .inl ⟨m, hm, hacc, hs, hr, hn, hv⟩
  | @sendHarmless m hharmless hs =>
    refine ha.send_other (voted_of_cons ?_) (promised_of_cons ?_) <;> rintro x rfl
      <;> exact hharmless
  | sendAcceptRequest _ | sendChangeLeader _ _ =>
    exact ha.send_other (voted_of_cons fun _ h => nomatch h) (promised_of_cons fun _ h => nomatch h)
  | _ => exact ha

theorem Move.proposerInv (h : Move M env inc r r') (hnow : env.now = time + off r.selfAddr)
    (hclock : 0 ≤ env.now) (hinc : Incoming off time sent r inc)
    (hi : ReplicaInv M off time sent r) :
    ProposerInv M off time sent (· ∈ r'.outbox) r'.selfAddr r'.proposer := by
  have hp := hi.proposer
  -- a response, sent to anybody, is neither a request for promises nor a hand-over
  have hother : ∀ {m : ElectionMsg} {a : ElectionAcceptor},
      (∀ x, ElectionMsg.acceptRequest x ≠ m) → (∀ x, ElectionMsg.changeLeader x ≠ m) →
      ProposerInv M off time sent (· ∈ (send m { r with acceptor := a }).outbox)
        r.selfAddr r.proposer := by
    intro m a hreq hhand
    exact hp.send mem_cons (fun x hx => absurd hx (hreq x)) fun x hx => absurd hx (hhand x)
  cases h with
  | book h =>
    rw [h.outbox, h.selfAddr]
    exact
      { success_le := by rw [h.prepareSuccessBallot, h.ballotNumber]; exact hp.success_le
        prepareOk := by rw [h.prepareOk, h.ballotNumber]; exact hp.prepareOk
        acceptOk := by rw [h.acceptOk, h.ballotNumber]; exact hp.acceptOk
        acceptOk_proposed := by rw [h.acceptOk, h.ballotNumber]; exact hp.acceptOk_proposed
        acceptOk_length := by rw [h.acceptOk]; exact hp.acceptOk_length
        switch := by rw [h.switchAddr, h.switchBallot, h.ballotNumber]; exact hp.switch
        handed := by rw [h.ballotNumber]; exact hp.handed
        lease := by rw [h.leaderLease]; exact hp.lease
        proposed := hp.proposed
        proposed_success := by rw [h.prepareSuccessBallot]; exact hp.proposed_success }
  | advance hle => exact hp.advance hle
  | clear => exact hp.clear
  | dropLease => exact hp.dropLease _
  | recordPrepare heq hacc hballot hcounts hidx =>
    exact hp.recordPrepare (getElem?_of_idxOf? hidx)
      (countedVote_of_voteCounts hp hinc heq hacc hballot hcounts)
  | win hmaj => exact hp.win hmaj
  | @recordAccept res idx heq hacc hballot hidx =>
    refine hp.recordAccept (getElem?_of_idxOf? hidx) ?_ (hballot ▸ hinc.promise heq hacc)
    exact ⟨res, (hinc.arrived heq).1, hacc, rfl, (hinc.arrived heq).2, hballot, rfl⟩
  | takeLease => exact hp.takeLease
  | @beginSwitch m heq hballot =>
    exact { hp with
      switch := fun hx => ⟨m, (hinc.arrived heq).1, some.inj hx, (hinc.arrived heq).2,
        hballot, rfl⟩ }
  | endSwitch => exact hp.endSwitch
  | expireLease _ => exact hp
  | vote _ _ | promise _ _ _ _ => exact hother (fun _ h => (nomatch h)) (fun _ h => (nomatch h))
  | @sendHarmless m hharmless _ =>
    refine hother (a := r.acceptor) ?_ ?_ <;> rintro x rfl <;> exact hharmless
  | sendAcceptRequest hguard =>
    have hwon : Won sent M r.selfAddr r.proposer.prepareSuccessBallot := by
      rcases hguard with hleader | ⟨hmaj, hle⟩
      · -- the lease consists of promises that have been asked for
        obtain ⟨n, -, hproposed, -⟩ := hp.lease (hclock.trans_lt hleader)
        exact hp.proposed_success hproposed
      · rw [le_antisymm hp.success_le hle]
        exact hp.won hmaj
    refine hp.send mem_cons (fun x hx => ?_) fun _ h => (nomatch h)
    cases hx
    exact ⟨rfl, hnow.le, hwon⟩
  | sendChangeLeader hold hlease =>
    refine hp.send mem_cons (fun _ h => (nomatch h)) fun x hx => ?_
    cases hx
    exact ⟨hold, hlease⟩

theorem replicaInv_of_moves (h : Moves M env inc r r') (hnow : env.now = time + off r.selfAddr)
    (hclock : 0 ≤ env.now) (hinc : Incoming off time sent r inc)
    (hi : ReplicaInv M off time sent r) : ReplicaInv M off time sent r' := by
  have hboth : ReplicaInv M off time sent r' ∧ Incoming off time sent r' inc := by
    induction h with
    | refl => exact ⟨hi, hinc⟩
    | tail hs hm ih =>
    obtain ⟨hi', hinc'⟩ := ih
    have hnow' := hnow
    rw [← selfAddr_of_moves hs] at hnow'
    exact ⟨⟨hm.acceptorInv hnow' hinc' hi', hm.proposerInv hnow' hclock hinc' hi'⟩, hinc'.move hm⟩
  exact hboth.1

/-! ## The group -/

structure Cluster where
  replica : Addr → Replica
  time : ℕ

namespace Cluster

def set (s : Cluster) (p : Addr) (r : Replica) : Cluster :=
  { s with replica := Function.update s.replica p r }

@[simp] theorem set_replica_self (s : Cluster) (p : Addr) (r : Replica) :
    (s.set p r).replica p = r := by
  simp [set]

theorem set_replica_of_ne (s : Cluster) {p q} (h : q ≠ p) (r : Replica) :
    (s.set p r).replica q = s.replica q := by
  simp [set, h]

@[simp] theorem set_time (s : Cluster) (p : Addr) (r : Replica) : (s.set p r).time = s.time := rfl

def now (off : Addr → ℕ) (s : Cluster) (p : Addr) : ℤ := s.time + off p

def Sent (s : Cluster) (m : ElectionMsg) : Prop := m ∈ (s.replica m.base.sender).outbox
  deriving Decidable

end Cluster

/-- **The events of the election.** -/
inductive ClusterStep (M : MemberList) (off : Addr → ℕ) : Cluster → Cluster → Prop
  | deliver {s : Cluster} (env : Env) {m} (hm : s.Sent m)
      (hnow : env.now = s.now off m.base.receiver) :
      ClusterStep M off s
        (s.set m.base.receiver ((s.replica m.base.receiver).handleMessage M env m))
  | timeWindow {s : Cluster} (env : Env) {p} (hnow : env.now = s.now off p) :
      ClusterStep M off s (s.set p ((s.replica p).timeWindowTask env))
  | renewLease {s : Cluster} (env : Env) {p} (hnow : env.now = s.now off p) :
      ClusterStep M off s (s.set p ((s.replica p).renewLeaseTask M env))
  | devote {s : Cluster} (env : Env) {p} (hnow : env.now = s.now off p) :
      ClusterStep M off s (s.set p ((s.replica p).devoteTask M env))
  | changeLeader {s : Cluster} (env : Env) {p} (hnow : env.now = s.now off p)
      (destAddr : Addr) :
      ClusterStep M off s (s.set p ((s.replica p).changeLeaderTo M env destAddr))
  /-- `set_member_list` makes a single replica prepare at once -/
  | single {s : Cluster} (env : Env) {p} (hnow : env.now = s.now off p)
      (hM : M.addrList.length = 1) :
      ClusterStep M off s (s.set p ((s.replica p).prepare M env .follower))
  | tick {s} (d : ℕ) : ClusterStep M off s { s with time := s.time + d }

def ElectionAcceptor.initial : ElectionAcceptor where
  ballotNumber := invalidValue
  ballotOfTimeWindow := invalidValue
  lease := .initial
  isTimeWindowOpened := false
  highestPriorityPrepareReq := none
  lastTimeWindowOpenTs := invalidValue
  lastRecordLeaseValidState := false

section

variable (M : MemberList)

def ElectionProposer.initial (restartCounter : ℤ) : ElectionProposer where
  role := .follower
  ballotNumber := invalidValue
  prepareOk := List.replicate M.replicaNum false
  acceptOk := List.replicate M.replicaNum 0
  prepareSuccessBallot := invalidValue
  leaderLease := invalidValue
  leaderEpoch := invalidValue
  switchSourceLeaderBallot := invalidValue
  switchSourceLeaderAddr := none
  restartCounter := restartCounter
  lastDoPrepareTs := invalidValue
  recordLeaseInterval := invalidValue
  highestPriorityCache := none

def Replica.initial (p : Addr) (initTs restartCounter : ℤ) : Replica where
  selfAddr := p
  initTs := initTs
  acceptor := .initial
  proposer := .initial M restartCounter
  outbox := []

/-- New replicas, with the member list set. -/
def Cluster.IsInit (s : Cluster) : Prop :=
  ∀ p, ∃ initTs restartCounter, s.replica p = Replica.initial M p initTs restartCounter

def election (off : Addr → ℕ) : Machine Cluster where
  init := Cluster.IsInit M
  step := ClusterStep M off

end

/-- **The invariant of the group.** -/
structure ClusterInv (M : MemberList) (off : Addr → ℕ) (s : Cluster) : Prop where
  addr : ∀ p, (s.replica p).selfAddr = p
  sender : ∀ p, ∀ m ∈ (s.replica p).outbox, m.base.sender = p
  replica : ∀ p, ReplicaInv M off s.time s.Sent (s.replica p)

variable {s s' : Cluster}

/-! ## Events keep the invariant -/

theorem Cluster.Sent.own {m} (h : s.Sent m)
    (hp : m.base.sender = p) : m ∈ (s.replica p).outbox := hp ▸ h

theorem ClusterInv.moves (hi : ClusterInv M off s) (hnow : env.now = s.now off p)
    (hinc : Incoming off s.time s.Sent (s.replica p) inc)
    (hm : Moves M env inc (s.replica p) r') : ClusterInv M off (s.set p r') := by
  have haddr := hi.addr p
  have hnow' : env.now = s.time + off (s.replica p).selfAddr := by rw [haddr]; exact hnow
  have hclock : 0 ≤ env.now := by omega
  have hself : r'.selfAddr = p := (selfAddr_of_moves hm).trans haddr
  have hr' := replicaInv_of_moves hm hnow' hclock hinc (hi.replica p)
  have hsent : ∀ m, s.Sent m → (s.set p r').Sent m := by
    intro m h
    unfold Cluster.Sent
    by_cases hp : m.base.sender = p
    · rw [hp, Cluster.set_replica_self]
      exact (outbox_of_moves hm).1 (h.own hp)
    · rw [Cluster.set_replica_of_ne s hp]
      exact h
  refine ⟨fun q => ?_, fun q m hq => ?_, fun q => ?_⟩ <;> by_cases hqp : q = p
  · subst hqp
    rw [Cluster.set_replica_self, hself]
  · rw [Cluster.set_replica_of_ne s hqp, hi.addr]
  · subst hqp
    rw [Cluster.set_replica_self] at hq
    rcases (outbox_of_moves hm).2 hq with h | h
    · exact hi.sender q m h
    · rw [h, haddr]
  · rw [Cluster.set_replica_of_ne s hqp] at hq
    exact hi.sender q m hq
  · subst hqp
    rw [Cluster.set_replica_self, Cluster.set_time]
    exact hr'.mono le_rfl hsent
  · rw [Cluster.set_replica_of_ne s hqp, Cluster.set_time]
    exact (hi.replica q).mono le_rfl hsent

theorem ClusterInv.incoming (hi : ClusterInv M off s) {m} (hm : s.Sent m) :
    Incoming off s.time s.Sent (s.replica m.base.receiver) (some m) where
  arrived h := by
    obtain rfl := some.inj h
    exact ⟨hm, (hi.addr _).symm⟩
  vote {m'} h hacc := by
    obtain rfl := some.inj h
    have ha := (hi.replica m'.sender).acceptor
    rw [hi.addr] at ha
    exact (ha.vote_lease ⟨m', hm, hacc, rfl, rfl, rfl, rfl⟩).2
  request {m'} h := by
    obtain rfl := some.inj h
    have hp := (hi.replica m'.sender).proposer
    rw [hi.addr] at hp
    have := (hp.proposed hm rfl).2
    omega
  promise {m'} h hacc := by
    obtain rfl := some.inj h
    have ha := (hi.replica m'.sender).acceptor
    rw [hi.addr] at ha
    obtain ⟨req, hreq, hs, hb⟩ := ha.promise_proposed ⟨m', hm, hacc, rfl, rfl, rfl, rfl⟩
    exact ⟨req, hreq.own hs, hs.trans (hi.addr _).symm, hb⟩

theorem ClusterStep.clusterInv (h : ClusterStep M off s s') (hi : ClusterInv M off s) :
    ClusterInv M off s' := by
  cases h with
  | deliver env hm hnow => exact hi.moves hnow (hi.incoming hm) (handleMessage_moves _)
  | timeWindow env hnow => exact hi.moves hnow .none timeWindowTask_moves
  | renewLease env hnow => exact hi.moves hnow .none renewLeaseTask_moves
  | devote env hnow => exact hi.moves hnow .none devoteTask_moves
  | changeLeader env hnow destAddr => exact hi.moves hnow .none (changeLeaderTo_moves destAddr)
  | single env hnow hM => exact hi.moves hnow .none (prepare_moves _)
  | tick d =>
    exact ⟨hi.addr, hi.sender, fun p => (hi.replica p).mono (by push_cast; omega) fun _ h => h⟩

theorem Cluster.IsInit.clusterInv (h : s.IsInit M) : ClusterInv M off s := by
  have hempty : ∀ p, (s.replica p).outbox = [] := by
    intro p
    obtain ⟨_, _, hp⟩ := h p
    rw [hp]
    rfl
  refine ⟨fun p => ?_, fun p m hm => ?_, fun p => ⟨?_, ?_⟩⟩
  · obtain ⟨_, _, hp⟩ := h p
    rw [hp]
    rfl
  · rw [hempty] at hm
    cases hm
  · rw [hempty]
    obtain ⟨_, _, hp⟩ := h p
    rw [hp]
    exact
      { lease_le := le_rfl
        lease_ok := ⟨fun _ => rfl, fun x hx => nomatch hx⟩
        vote_le := fun ⟨_, hm, _⟩ => nomatch hm
        vote_unique := fun ⟨_, hm, _⟩ => nomatch hm
        vote_lease := fun ⟨_, hm, _⟩ => nomatch hm
        promise_kept := fun ⟨_, hm, _⟩ => nomatch hm
        vote_promise := fun ⟨_, hm, _⟩ => nomatch hm
        promise_proposed := fun ⟨_, hm, _⟩ => nomatch hm }
  rw [hempty]
  obtain ⟨_, restartCounter, hp⟩ := h p
  rw [hp]
  exact
    { success_le := le_rfl
      prepareOk := fun h => by simp [initial, ElectionProposer.initial,
        List.getElem?_replicate] at h
      acceptOk := fun h hpos => absurd hpos (not_pos_of_replicate h)
      acceptOk_proposed := fun h hpos => absurd hpos (not_pos_of_replicate h)
      acceptOk_length := length_replicate
      switch := fun h => nomatch h
      handed := fun ⟨_, hm, _⟩ => nomatch hm
      lease := fun h => absurd h (show ¬ (0 : ℤ) < invalidValue by decide)
      proposed := fun hm => nomatch hm
      proposed_success := fun ⟨_, hm, _⟩ => nomatch hm }

open ClusterStep

theorem clusterInv_of_reachable (h : (election M off).Reachable s) : ClusterInv M off s :=
  Machine.Reachable.of_keeps (M := election M off) (I := ClusterInv M off)
    (fun _ h => h.clusterInv) (fun _ _ hi hs => clusterInv hs hi) h

/-! ## Exclusion -/

theorem ClusterInv.acceptor (hi : ClusterInv M off s) (p : Addr) :
    AcceptorInv off s.time s.Sent (· ∈ (s.replica p).outbox) p
      (s.replica p).acceptor.ballotNumber (s.replica p).acceptor.lease := by
  have h := (hi.replica p).acceptor
  rwa [hi.addr] at h

theorem ClusterInv.proposer (hi : ClusterInv M off s) (p : Addr) :
    ProposerInv M off s.time s.Sent (· ∈ (s.replica p).outbox) p (s.replica p).proposer := by
  have h := (hi.replica p).proposer
  rwa [hi.addr] at h

theorem Voted.own {c k l} (h : Voted s.Sent p c k l) :
    Voted (· ∈ (s.replica p).outbox) p c k l := by
  obtain ⟨m, hm, hacc, rfl, h⟩ := h
  exact ⟨m, hm, hacc, rfl, h⟩

theorem Promised.own {a n v} (h : Promised s.Sent p a n v) :
    Promised (· ∈ (s.replica p).outbox) p a n v := by
  obtain ⟨m, hm, hacc, rfl, h⟩ := h
  exact ⟨m, hm, hacc, rfl, h⟩

theorem HandedOver.own {c k old} (h : HandedOver s.Sent p c k old) :
    HandedOver (· ∈ (s.replica p).outbox) p c k old := by
  obtain ⟨m, hm, rfl, h⟩ := h
  exact ⟨m, hm, rfl, h⟩

theorem ClusterInv.won_of_proposed (hi : ClusterInv M off s) {n} (h : Proposed s.Sent p n) :
    Won s.Sent M p n := by
  obtain ⟨m, hm, rfl, rfl⟩ := h
  exact ((hi.proposer m.sender).proposed hm rfl).1

theorem ClusterInv.won_unique (hi : ClusterInv M off s) {k} (hp : Won s.Sent M p k)
    (hq : Won s.Sent M q k) : p = q := by
  obtain ⟨Q, hQ, hvp⟩ := hp
  obtain ⟨Q', hQ', hvq⟩ := hq
  obtain ⟨i, hiQ, hiQ'⟩ := hQ.exists_common M.length_le hQ'
  obtain ⟨l, hv, -⟩ := hvp i hiQ
  obtain ⟨l', hv', -⟩ := hvq i hiQ'
  exact (hi.acceptor i).vote_unique hv.own hv'.own

/-- **A lease of ballot `n` against a winner of a larger ballot `k`**: the lease is over, or its
holder has handed over, in a ballot from `n` on and below `k`. -/
theorem ClusterInv.over_or_handedOver (hi : ClusterInv M off s) {a c n k v}
    (hlease : Leased s.Sent M a n v) (hwonA : Won s.Sent M a n) (hwon : Won s.Sent M c k)
    (hne : c ≠ a) (hlt : n < k) :
    v - off a < s.time ∨ ∃ c' k' old, HandedOver s.Sent a c' k' old ∧ n ≤ old ∧ old < k := by
  -- strong induction on how far `k` is above `n`
  obtain ⟨d, hd⟩ : ∃ d : ℕ, k = n + d := ⟨(k - n).toNat, by omega⟩
  induction d using Nat.strong_induction_on generalizing c k with
  | _ d ih =>
  -- a winner of a smaller ballot, other than `a`
  have hsmaller : ∀ {x b}, Won s.Sent M x b → x ≠ a → n ≤ b → b < k →
      v - off a < s.time ∨ ∃ c' k' old, HandedOver s.Sent a c' k' old ∧ n ≤ old ∧ old < k := by
    intro x b hx hxa hnb hbk
    have hnb' : n < b := by
      refine lt_of_le_of_ne hnb fun h => hxa ?_
      subst h
      exact hi.won_unique hx hwonA
    refine (ih (b - n).toNat (by omega) hx hxa hnb' (by omega)).imp_right ?_
    rintro ⟨c', k', old, hh, hn, hob⟩
    exact ⟨c', k', old, hh, hn, hob.trans hbk⟩
  obtain ⟨Q, hQ, hpromises⟩ := hlease
  obtain ⟨Q', hQ', hvotes⟩ := hwon
  obtain ⟨i, hiQ, hiQ'⟩ := hQ.exists_common M.length_le hQ'
  obtain ⟨v', hv', hpromise⟩ := hpromises i hiQ
  obtain ⟨l, hvote, hcounts⟩ := hvotes i hiQ'
  have hacc := hi.acceptor i
  obtain ⟨hlk, hl⟩ := hacc.vote_lease hvote.own
  rcases hacc.vote_promise hvote.own hpromise.own hlt with h | ⟨howner, hnl⟩
  · exact .inl (by omega)
  -- the vote carries a lease of a ballot from `n` on
  rcases hcounts with hempty | hself | ⟨x, hx, hhanded⟩
  · exact absurd hempty.1 howner
  · exact hsmaller (hi.won_of_proposed (hl.owned c hself)) hne hnl hlk
  by_cases hxa : x = a
  · subst hxa
    exact .inr ⟨c, k, l.ballotNumber, hhanded, hnl, hlk⟩
  · exact hsmaller (hi.won_of_proposed (hl.owned x hx)) hxa hnl hlk

def Cluster.checkLeader (off : Addr → ℕ) (s : Cluster) (p : Addr) : Prop :=
  (s.replica p).checkLeader (s.now off p)
  deriving Decidable

/-- A leader holds a majority of promises, all of one ballot, which it has won and after which it
has not handed over. -/
theorem ClusterInv.leased_of_checkLeader (hi : ClusterInv M off s) (h : s.checkLeader off p) :
    ∃ n, Leased s.Sent M p n (s.replica p).proposer.leaderLease ∧ Won s.Sent M p n ∧
      ∀ {c k old}, HandedOver s.Sent p c k old → old < n := by
  have hpos : 0 < (s.replica p).proposer.leaderLease := by
    unfold Cluster.checkLeader checkLeader Cluster.now at h
    omega
  obtain ⟨n, hl, ⟨m, hm, hs, hb⟩, hn⟩ := (hi.proposer p).lease hpos
  have hsent : s.Sent (.acceptRequest m) := by
    unfold Cluster.Sent
    rw [hi.sender p _ hm]
    exact hm
  exact ⟨n, hl, hi.won_of_proposed ⟨m, hsent, hs, hb⟩, fun h => hn h.own⟩

theorem ClusterInv.not_lt_of_checkLeader (hi : ClusterInv M off s) {n k}
    (hp : s.checkLeader off p) (hl : Leased s.Sent M p n (s.replica p).proposer.leaderLease)
    (hwonP : Won s.Sent M p n) (hhand : ∀ {c k old}, HandedOver s.Sent p c k old → old < n)
    (hwonQ : Won s.Sent M q k) (hne : q ≠ p) : ¬ n < k := by
  intro hlt
  rcases hi.over_or_handedOver hl hwonP hwonQ hne hlt with h | ⟨c', k', old, hh, hno, -⟩
  · unfold Cluster.checkLeader checkLeader Cluster.now at hp
    omega
  · exact absurd (hhand hh) (not_lt.mpr hno)

/-- **Leader-lease exclusion.** At any moment of any run at most one replica satisfies
`check_leader`. -/
theorem leader_lease_exclusion (M : MemberList) (off : Addr → ℕ) {s : Cluster}
    (h : (election M off).Reachable s) {p q : Addr} (hp : s.checkLeader off p)
    (hq : s.checkLeader off q) : p = q := by
  have hi := clusterInv_of_reachable h
  obtain ⟨n, hlp, hwonP, hhandP⟩ := hi.leased_of_checkLeader hp
  obtain ⟨k, hlq, hwonQ, hhandQ⟩ := hi.leased_of_checkLeader hq
  by_contra hne
  rcases lt_trichotomy n k with hlt | rfl | hlt
  · exact hi.not_lt_of_checkLeader hp hlp hwonP hhandP hwonQ (Ne.symm hne) hlt
  · exact hne (hi.won_unique hwonP hwonQ)
  · exact hi.not_lt_of_checkLeader hq hlq hwonQ hhandQ hwonP hne hlt

/-! ## A run that elects a leader -/

def trio : MemberList where
  addrList := [0, 1, 2]
  membershipVersion := ⟨1, 1⟩
  replicaNum := 3
  nodup := by decide
  length_le := by decide

def trioInit : Cluster where
  replica p := Replica.initial trio p 0 1
  time := 0

/-- Every timer can be scheduled and no follower has a higher priority; the wall clock is
`clock`. -/
def Env.quiet (clock : ℤ) : Env where
  now := maxLeaseTime
  clock := clock
  maxTst := 1000000
  rescheduleOk := true
  broadcastOk := true
  higherThanWindow := false
  higherThanLeader := false
  higherThanCached := false
  hasFatalFailure := false

def trioRequest (p : Addr) : ElectionMsg :=
  .prepareRequest ⟨⟨0, p, 1, 0⟩, .follower, ⟨1, 1⟩⟩

def trioVote (p : Addr) : ElectionMsg := .prepareResponse ⟨⟨p, 0, 1, 0⟩, true, .initial⟩

def trioPropose (p : Addr) : ElectionMsg :=
  .acceptRequest ⟨⟨0, p, 1, 0⟩, maxLeaseTime, 4000000, ⟨1, 1⟩⟩

def trioPromise (p : Addr) : ElectionMsg :=
  .acceptResponse ⟨⟨p, 0, 1, 0⟩, maxLeaseTime, 4000000, true⟩

/-- Replica `0` asks for votes after the silence of the start, replicas `0` and `1` vote at the
end of their time windows, and their promises give replica `0` the lease. -/
theorem trio_run : ∃ s, (election trio fun _ => 0).Reachable s ∧ s.checkLeader (fun _ => 0) 0 := by
  have h₀ : (election trio fun _ => 0).Reachable trioInit := .init fun p => ⟨0, 1, rfl⟩
  have h₁ := h₀.step (tick 10000000)
  have h₂ := h₁.step (devote (.quiet 10000000) (p := 0) (by decide))
  have h₃ := h₂.step (deliver (.quiet 10000000) (m := trioRequest 0)
    (by decide) (by decide))
  have h₄ := h₃.step (deliver (.quiet 10000000) (m := trioRequest 1)
    (by decide) (by decide))
  have h₅ := h₄.step (timeWindow (.quiet 12000000) (p := 0) (by decide))
  have h₆ := h₅.step (timeWindow (.quiet 12000000) (p := 1) (by decide))
  have h₇ := h₆.step (deliver (.quiet 12000000) (m := trioVote 0)
    (by decide) (by decide))
  have h₈ := h₇.step (deliver (.quiet 12000000) (m := trioVote 1)
    (by decide) (by decide))
  have h₉ := h₈.step (deliver (.quiet 12000000) (m := trioPropose 0)
    (by decide) (by decide))
  have h₁₀ := h₉.step (deliver (.quiet 12000000) (m := trioPropose 1)
    (by decide) (by decide))
  have h₁₁ := h₁₀.step (deliver (.quiet 12000000) (m := trioPromise 0)
    (by decide) (by decide))
  have h₁₂ := h₁₁.step (deliver (.quiet 12000000) (m := trioPromise 1)
    (by decide) (by decide))
  exact ⟨_, h₁₂, by decide⟩

theorem trio_one_leader : ∃ s, (election trio fun _ => 0).Reachable s ∧
    s.checkLeader (fun _ => 0) 0 ∧ ¬ s.checkLeader (fun _ => 0) 1 := by
  obtain ⟨s, h, h₀⟩ := trio_run
  refine ⟨s, h, h₀, fun h₁ => ?_⟩
  have := leader_lease_exclusion trio (fun _ => 0) h h₀ h₁
  exact absurd this (by decide)

/-- **One replica proposes in each ballot**: whatever has been sent, a majority had voted in its
ballot for the sender of a proposal, and all proposals of the ballot have this sender. -/
theorem one_proposer_per_ballot (M : MemberList) (off : Addr → ℕ) {s : Cluster}
    (h : (election M off).Reachable s) {m} (hm : s.Sent (.acceptRequest m)) :
    Won s.Sent M m.sender m.ballotNumber ∧
      ∀ m', s.Sent (.acceptRequest m') → m'.ballotNumber = m.ballotNumber →
        m'.sender = m.sender := by
  have hi := clusterInv_of_reachable h
  have hwon : Won s.Sent M m.sender m.ballotNumber := hi.won_of_proposed ⟨m, hm, rfl, rfl⟩
  exact ⟨hwon, fun m' hm' hb => hi.won_unique (hi.won_of_proposed ⟨m', hm', rfl, hb⟩) hwon⟩

theorem trio_one_proposer : ∃ s m, (election trio fun _ => 0).Reachable s ∧
    s.Sent (.acceptRequest m) ∧ Won s.Sent trio m.sender m.ballotNumber := by
  obtain ⟨s, hs, hl⟩ := trio_run
  have hpos : 0 < (s.replica 0).proposer.leaderLease := by
    unfold Cluster.checkLeader checkLeader Cluster.now at hl
    omega
  obtain ⟨-, -, ⟨m, hm, hfrom, -⟩, -⟩ := ((clusterInv_of_reachable hs).proposer 0).lease hpos
  have hsent : s.Sent (.acceptRequest m) := by rwa [← hfrom] at hm
  exact ⟨s, m, hs, hsent, (one_proposer_per_ballot trio _ hs hsent).1⟩

end OceanBase.Election
