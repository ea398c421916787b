import OceanBase.Lib.Machine
import OceanBase.Palf.MemberList

/-!
# The choice of the newest log

A replica that has been elected sends a prepare request to the other members and waits until a
majority has answered with the proposal id and the end of their logs (`FETCH_MAX_LOG_LSN`). It then
fetches the log of the server with the largest answer. If no majority answers in time, it starts
another round with a larger proposal id.

Each round begins with the leader's own log. Its proposal id should be the larger one of those of
the last flushed log and of the accepted configuration. If no log has been flushed, the source
keeps the proposal id that the previous round ended with, and ignores the configuration unless that
id is valid. A round that begins so still ends with the newest log if an answer exceeds both.

## Main results

* `reconfirm_newest_iff`: the choice in every run
-/

namespace OceanBase.Palf

/-! ## Reports -/

structure Report where
  server : Addr
  acceptPid : ℤ
  lastLsn : LSN
  deriving DecidableEq

/-- An invalid proposal id is below all others. -/
def pidRank (pid : ℤ) : WithBot ℤ := if pid = invalidProposalId then ⊥ else pid

/-- Reports are compared by proposal id, then by LSN. -/
def Report.key (r : Report) : WithBot ℤ ×ₗ LSN := toLex (pidRank r.acceptPid, r.lastLsn)

/-! ## The start of a round -/

/-- What a round begins with: the end and the proposal id of the flushed log, the proposal id of the
accepted configuration, and the proposal id that was recorded before. -/
structure RoundStart where
  maxFlushedEndLsn : LSN
  maxFlushedLogPid : ℤ
  localAcceptProposalId : ℤ
  prevAcceptPid : ℤ

namespace RoundStart

variable (i : RoundStart) (selfAddr : Addr)

/-- `majority_max_accept_pid_` at the start of a round. -/
def initAcceptPid : ℤ :=
  let pid := if i.maxFlushedLogPid ≠ invalidProposalId then i.maxFlushedLogPid else i.prevAcceptPid
  if i.localAcceptProposalId ≠ invalidProposalId ∧ pid ≠ invalidProposalId ∧
      pid < i.localAcceptProposalId then i.localAcceptProposalId
  else pid

def first : Report := ⟨selfAddr, i.initAcceptPid, i.maxFlushedEndLsn⟩

/-- The leader's own report: the larger one of the proposal ids of the last flushed log and of the
accepted configuration, and the end of the flushed log. -/
def own : Report :=
  ⟨selfAddr, maxProposalId i.maxFlushedLogPid i.localAcceptProposalId, i.maxFlushedEndLsn⟩

/-- The leader's LSN under the proposal id that was recorded before. -/
def carried : Report := ⟨selfAddr, i.prevAcceptPid, i.maxFlushedEndLsn⟩

/-- A log has been flushed; or there is no proposal id in the configuration and none was recorded;
or one was recorded, and the configuration's is not smaller. -/
def OwnPidOk : Prop :=
  i.maxFlushedLogPid ≠ invalidProposalId ∨
  i.localAcceptProposalId = invalidProposalId ∧ i.prevAcceptPid = invalidProposalId ∨
  i.localAcceptProposalId ≠ invalidProposalId ∧ i.prevAcceptPid ≠ invalidProposalId ∧
    i.prevAcceptPid ≤ i.localAcceptProposalId
  deriving Decidable

variable {i selfAddr}

theorem initAcceptPid_eq_iff :
    i.initAcceptPid = maxProposalId i.maxFlushedLogPid i.localAcceptProposalId ↔ i.OwnPidOk := by
  unfold initAcceptPid maxProposalId OwnPidOk
  by_cases hf : i.maxFlushedLogPid = invalidProposalId
  · simp only [hf, ne_eq, not_true_eq_false, if_false, if_true, false_or]
    by_cases hg : i.localAcceptProposalId = invalidProposalId
    · simp [hg]
    by_cases hm : i.prevAcceptPid = invalidProposalId
    · simp [hg, hm, Ne.symm hg]
    simp only [hg, hm, not_false_eq_true, true_and, false_and, false_or]
    split_ifs with hlt
    · exact iff_of_true rfl hlt.le
    · exact ⟨fun h => h.le, fun h => le_antisymm h (not_lt.mp hlt)⟩
  · refine iff_of_true ?_ (.inl hf)
    simp only [hf, ne_eq, not_false_eq_true, if_true, true_and, if_false]
    by_cases hg : i.localAcceptProposalId = invalidProposalId
    · simp [hg]
    simp only [hg, not_false_eq_true, true_and, if_false]
    split_ifs with hlt
    · exact (max_eq_right hlt.le).symm
    · exact (max_eq_left (not_lt.mp hlt)).symm

theorem first_eq_own_iff : i.first selfAddr = i.own selfAddr ↔ i.OwnPidOk := by
  rw [← initAcceptPid_eq_iff]
  refine ⟨fun h => congrArg Report.acceptPid h, fun h => ?_⟩
  unfold first own
  rw [h]

theorem first_eq_carried (h : ¬ i.OwnPidOk) : i.first selfAddr = i.carried selfAddr := by
  unfold OwnPidOk at h
  rw [not_or, not_or, not_not] at h
  obtain ⟨hf, hnone, hle⟩ := h
  have hpid : i.initAcceptPid = i.prevAcceptPid := by
    unfold initAcceptPid
    rw [if_neg (not_not.mpr hf)]
    exact if_neg fun ⟨hg, hm, hlt⟩ => hle ⟨hg, hm, hlt.le⟩
  unfold first carried
  rw [hpid]

end RoundStart

/-! ## The model -/

inductive ReconfirmState
  | inited | waitingLogFlushed | fetchMaxLogLsn | reconfirmModeMeta | reconfirmFetchLog
  | reconfirming | startWorking | finished
  deriving DecidableEq

structure LogReconfirm where
  state : ReconfirmState
  selfAddr : Addr
  newProposalId : ℤ
  prepareLogAckList : List Addr
  currPaxosFollowerList : ObMemberList
  majorityCnt : ℤ
  majorityMaxLogServer : Addr
  majorityMaxAcceptPid : ℤ
  majorityMaxLsn : LSN
  savedEndLsn : LSN
  followerEndLsnList : List (Addr × LSN)
  lastSubmitPrepareReqTimeUs : ℤ
  /-- history: what the current round began with -/
  start : Option RoundStart
  /-- history: the answers acknowledged in the current round -/
  answers : List Report

/-- What one call of `reconfirm` reads from the other modules, and what they answer. `none` is
`OB_SUCCESS`. -/
structure ReconfirmEnv where
  now : ℤ
  memberList : ObMemberList
  replicaNum : ℤ
  purgeThrottlingRet : Option ObErr
  isAllLogFlushed : Bool
  maxFlushedLogPid : ℤ
  maxFlushedEndLsn : LSN
  reconfirmModeMetaRet : Option ObErr
  localAcceptProposalId : ℤ
  oldProposalId : ℤ
  handlePrepareRequestRet : Option ObErr
  submitPrepareMetaReqRet : Option ObErr
  needSkipLogBarrier : Bool
  isFetchLogFinished : Bool
  isMajorityCatchUp : Bool
  confirmStartWorkingLogRet : Option ObErr
  currMaxLsn : LSN
  isAllCommittedLogSlidedOut : Bool

def ackListServerNum : ℕ := obMaxMemberNumber / 2

def reconfirmPrepareRetryIntervalUs : ℤ := 2000000

/-- `LogAckList::add_server`: servers are counted once, and no more than the list can hold. -/
def addAck (l : List Addr) (server : Addr) : List Addr :=
  if server ∈ l ∨ ackListServerNum ≤ l.length then l else l ++ [server]

namespace LogReconfirm

variable (env : ReconfirmEnv) (r : LogReconfirm)

def chosen : Report := ⟨r.majorityMaxLogServer, r.majorityMaxAcceptPid, r.majorityMaxLsn⟩

def initReconfirm : Except ObErr LogReconfirm :=
  if ¬ env.memberList.containsServer r.selfAddr then .error .errUnexpected
  else do
    let followers ← env.memberList.removeServer r.selfAddr
    pure { r with currPaxosFollowerList := followers, majorityCnt := env.replicaNum / 2 + 1 }

def roundStart : RoundStart :=
  ⟨env.maxFlushedEndLsn, env.maxFlushedLogPid, env.localAcceptProposalId, r.majorityMaxAcceptPid⟩

def startRound : LogReconfirm :=
  { r with
    prepareLogAckList := []
    majorityMaxLogServer := r.selfAddr
    majorityMaxLsn := env.maxFlushedEndLsn
    majorityMaxAcceptPid := (r.roundStart env).initAcceptPid
    newProposalId := env.oldProposalId + 1
    start := some (r.roundStart env)
    answers := [] }

/-- `submit_prepare_log_`. The mode manager has to be waiting for its own round; with any other
answer nothing happens, and that answer is returned. -/
def submitPrepareLog : Option ObErr × LogReconfirm :=
  if env.reconfirmModeMetaRet ≠ some .eagain then (env.reconfirmModeMetaRet, r)
  else if env.handlePrepareRequestRet ≠ none then (env.handlePrepareRequestRet, r.startRound env)
  else if r.currPaxosFollowerList.isValid ∧ env.submitPrepareMetaReqRet ≠ none then
    (env.submitPrepareMetaReqRet, r.startRound env)
  else (none, { r.startRound env with lastSubmitPrepareReqTimeUs := env.now })

section

variable (server : Addr)

def updateFollowerEndLsn (committedEndLsn : LSN) : LogReconfirm :=
  { r with
    followerEndLsnList :=
      if r.followerEndLsnList.any (·.1 = server) then
        r.followerEndLsnList.map fun p =>
          if p.1 = server ∧ p.2 < committedEndLsn then (server, committedEndLsn) else p
      else r.followerEndLsnList ++ [(server, committedEndLsn)] }

def recordAnswer (acceptProposalId : ℤ) (lastLsn : LSN) : LogReconfirm :=
  if acceptProposalId = r.majorityMaxAcceptPid then
    if r.majorityMaxLsn < lastLsn then
      { r with majorityMaxLogServer := server, majorityMaxLsn := lastLsn }
    else r
  else if r.majorityMaxAcceptPid = invalidProposalId ∨
      r.majorityMaxAcceptPid < acceptProposalId then
    { r with
      majorityMaxLsn := lastLsn
      majorityMaxAcceptPid := acceptProposalId
      majorityMaxLogServer := server }
  else r

/-- The part of `handle_prepare_response` after the server has been counted. -/
def acceptAnswer (acceptProposalId : ℤ) (lastLsn committedEndLsn : LSN) :
    LogReconfirm :=
  if r.majorityMaxAcceptPid ≠ invalidProposalId ∧ acceptProposalId < r.majorityMaxAcceptPid then r
  else if committedEndLsn ≠ invalidLsn then
    (r.recordAnswer server acceptProposalId lastLsn).updateFollowerEndLsn server committedEndLsn
  else r.recordAnswer server acceptProposalId lastLsn

/-- `handle_prepare_response`. A server may answer more than once; it is counted once. -/
def handlePrepareResponse (srcProposalId acceptProposalId : ℤ)
    (lastLsn committedEndLsn : LSN) : LogReconfirm :=
  if ¬ server.isValid ∨ srcProposalId = invalidProposalId ∨ acceptProposalId = invalidProposalId ∨
      lastLsn = invalidLsn then r
  else if srcProposalId ≠ r.newProposalId ∨ r.state ≠ .fetchMaxLogLsn then r
  else if ¬ r.currPaxosFollowerList.containsServer server then r
  else
    { r with
      prepareLogAckList := addAck r.prepareLogAckList server
      answers := ⟨server, acceptProposalId, lastLsn⟩ :: r.answers }.acceptAnswer
        server acceptProposalId lastLsn committedEndLsn

end

/-! ### The stages of `reconfirm` -/

def stageWaitingLogFlushed : LogReconfirm :=
  if env.purgeThrottlingRet ≠ none then r
  else if ¬ env.isAllLogFlushed then r
  else
    match r.submitPrepareLog env with
    | (none, r') => { r' with state := .fetchMaxLogLsn }
    | (some _, r') => r'

/-- `INITED`, which goes on to wait for the flushed logs. -/
def stageInited : LogReconfirm :=
  match r.initReconfirm env with
  | .ok r' => { r' with state := .waitingLogFlushed }.stageWaitingLogFlushed env
  | .error _ => r

def stageReconfirmFetchLog : LogReconfirm :=
  if r.majorityMaxLogServer ≠ r.selfAddr ∧ ¬ env.isFetchLogFinished then r
  else { r with state := .reconfirming }

def stageReconfirmModeMeta : LogReconfirm :=
  if env.reconfirmModeMetaRet ≠ none then r
  else if env.needSkipLogBarrier then { r with state := .reconfirming }
  else { r with state := .reconfirmFetchLog }.stageReconfirmFetchLog env

/-- `FETCH_MAX_LOG_LSN`: the leader counts itself. Without a majority in time a new round
starts. -/
def stageFetchMaxLogLsn : LogReconfirm :=
  if r.prepareLogAckList.length + 1 < r.majorityCnt then
    if reconfirmPrepareRetryIntervalUs ≤ env.now - r.lastSubmitPrepareReqTimeUs then
      (r.submitPrepareLog env).2
    else r
  else { r with state := .reconfirmModeMeta }.stageReconfirmModeMeta env

def stageStartWorking : LogReconfirm :=
  if env.confirmStartWorkingLogRet = none ∧ env.currMaxLsn = r.savedEndLsn ∧
      r.savedEndLsn ≠ invalidLsn ∧ env.isAllCommittedLogSlidedOut then
    { r with state := .finished }
  else r

def stageReconfirming : LogReconfirm :=
  if ¬ env.isAllLogFlushed then r
  else if ¬ env.needSkipLogBarrier ∧ ¬ env.isMajorityCatchUp then r
  else if env.confirmStartWorkingLogRet ≠ none ∧ env.confirmStartWorkingLogRet ≠ some .eagain then r
  else { r with savedEndLsn := env.maxFlushedEndLsn, state := .startWorking }.stageStartWorking env

def reconfirm : LogReconfirm :=
  match r.state with
  | .inited => r.stageInited env
  | .waitingLogFlushed => r.stageWaitingLogFlushed env
  | .fetchMaxLogLsn => r.stageFetchMaxLogLsn env
  | .reconfirmModeMeta => r.stageReconfirmModeMeta env
  | .reconfirmFetchLog => r.stageReconfirmFetchLog env
  | .reconfirming => r.stageReconfirming env
  | .startWorking => r.stageStartWorking env
  | .finished => r

def initial (selfAddr : Addr) : LogReconfirm where
  state := .inited
  selfAddr := selfAddr
  newProposalId := invalidProposalId
  prepareLogAckList := []
  currPaxosFollowerList := .empty
  majorityCnt := 0
  majorityMaxLogServer := 0
  majorityMaxAcceptPid := invalidProposalId
  majorityMaxLsn := invalidLsn
  savedEndLsn := invalidLsn
  followerEndLsnList := []
  lastSubmitPrepareReqTimeUs := invalidTimestamp
  start := none
  answers := []

def resetState : LogReconfirm := if r.state ≠ .inited then initial r.selfAddr else r

/-! ## The newest report -/

def reports : List Report := (r.start.map (·.own r.selfAddr)).toList ++ r.answers

/-- **What the leader should have chosen**: one of the reports of the round, and the largest. -/
def Newest : Prop := r.chosen ∈ r.reports ∧ ∀ rep ∈ r.reports, rep.key ≤ r.chosen.key

variable {env r} {r' : LogReconfirm}

/-- What is known about the recorded report: it is the first one of the round, or a larger answer,
and no answer is larger. -/
structure Recorded (i : RoundStart) (r : LogReconfirm) : Prop where
  server_ne : ∀ rep ∈ r.answers, rep.server ≠ r.selfAddr
  answers_le : ∀ rep ∈ r.answers, rep.key ≤ r.chosen.key
  origin : r.chosen = i.first r.selfAddr ∨
    r.chosen ∈ r.answers ∧ (i.first r.selfAddr).key < r.chosen.key

variable {i : RoundStart}

open RoundStart List

/-- **When the recorded report is the largest one.** -/
theorem Recorded.newest_iff (h : Recorded i r) (hi : r.start = some i) :
    r.Newest ↔ i.OwnPidOk ∨ ∃ rep ∈ r.answers,
      (i.own r.selfAddr).key ≤ rep.key ∧ (i.carried r.selfAddr).key < rep.key := by
  have hmem : ∀ rep, rep ∈ r.reports ↔ rep = i.own r.selfAddr ∨ rep ∈ r.answers := by
    intro rep
    simp only [reports, hi, Option.map_some, Option.toList_some, mem_append,
      mem_singleton]
  unfold Newest
  simp only [hmem]
  constructor
  · rintro ⟨hchosen, hmax⟩
    by_cases hok : i.OwnPidOk
    · exact .inl hok
    right
    rcases h.origin with hfirst | ⟨hans, hlt⟩
    · -- the first report was never replaced: it is no follower's, so it would be the leader's own
      exfalso
      rcases hchosen with hown | hans
      · exact hok (first_eq_own_iff.mp (hfirst.symm.trans hown))
      · exact h.server_ne _ hans (congrArg Report.server hfirst)
    · rw [first_eq_carried hok] at hlt
      exact ⟨r.chosen, hans, hmax _ (.inl rfl), hlt⟩
  intro hor
  by_cases hok : i.OwnPidOk
  · have hfirst : i.first r.selfAddr = i.own r.selfAddr := first_eq_own_iff.mpr hok
    rcases h.origin with heq | ⟨hans, hlt⟩
    · refine ⟨.inl (heq.trans hfirst), ?_⟩
      rintro rep (rfl | hrep)
      · rw [heq, hfirst]
      · exact h.answers_le rep hrep
    refine ⟨.inr hans, ?_⟩
    rintro rep (rfl | hrep)
    · rw [← hfirst]
      exact hlt.le
    · exact h.answers_le rep hrep
  obtain ⟨rep, hrep, hown, hcarried⟩ := hor.resolve_left hok
  have hle := h.answers_le rep hrep
  rw [← first_eq_carried hok] at hcarried
  -- the answer exceeds the first report, so this one was replaced
  have hans : r.chosen ∈ r.answers := by
    rcases h.origin with heq | ⟨hans, -⟩
    · rw [heq] at hle
      exact absurd hcarried (not_lt.mpr hle)
    · exact hans
  refine ⟨.inr hans, ?_⟩
  rintro rep' (rfl | hrep')
  · exact hown.trans hle
  · exact h.answers_le rep' hrep'

/-! ## The invariant -/

/-- The leader is not its own follower, no stage after `WAITING_LOG_FLUSHED` is entered without a
round, and the recorded report is as it should be. -/
structure RoundInv (r : LogReconfirm) : Prop where
  followers : ¬ r.currPaxosFollowerList.containsServer r.selfAddr
  idle : r.start = none → r.state = .inited ∨ r.state = .waitingLogFlushed
  recorded : ∀ i, r.start = some i → Recorded i r

theorem roundInv_initial (a : Addr) : RoundInv (initial a) where
  followers := not_mem_nil
  idle _ := .inl rfl
  recorded _ hi := nomatch hi

theorem RoundInv.resetState (h : RoundInv r) : RoundInv r.resetState := by
  unfold LogReconfirm.resetState
  split_ifs
  · exact roundInv_initial _
  · exact h

/-- The round, its answers and what is recorded of them are the same. -/
structure SameRound (r r' : LogReconfirm) : Prop where
  selfAddr : r'.selfAddr = r.selfAddr
  start : r'.start = r.start
  answers : r'.answers = r.answers
  chosen : r'.chosen = r.chosen

theorem Recorded.of_sameRound (h : Recorded i r) (hs : SameRound r r') : Recorded i r' := by
  refine ⟨?_, ?_, ?_⟩
  · rw [hs.answers, hs.selfAddr]
    exact h.server_ne
  · rw [hs.answers, hs.chosen]
    exact h.answers_le
  · rw [hs.answers, hs.chosen, hs.selfAddr]
    exact h.origin

theorem RoundInv.of_sameRound (h : RoundInv r) (hs : SameRound r r')
    (hf : r'.currPaxosFollowerList = r.currPaxosFollowerList)
    (hidle : r.start = none → r'.state = .inited ∨ r'.state = .waitingLogFlushed) :
    RoundInv r' where
  followers := by
    rw [hf, hs.selfAddr]
    exact h.followers
  idle hn := hidle (hs.start ▸ hn)
  recorded i hi := (h.recorded i (hs.start ▸ hi)).of_sameRound hs

/-! ### Responses -/

theorem key_le_key_iff {a b : Report} : a.key ≤ b.key ↔ pidRank a.acceptPid < pidRank b.acceptPid ∨
      pidRank a.acceptPid = pidRank b.acceptPid ∧ a.lastLsn ≤ b.lastLsn :=
  Prod.Lex.toLex_le_toLex

theorem key_lt_key_iff {a b : Report} : a.key < b.key ↔ pidRank a.acceptPid < pidRank b.acceptPid ∨
      pidRank a.acceptPid = pidRank b.acceptPid ∧ a.lastLsn < b.lastLsn :=
  Prod.Lex.toLex_lt_toLex

theorem pidRank_lt_pidRank {p q} (hp : p ≠ invalidProposalId) (hq : q ≠ invalidProposalId)
    (h : p < q) : pidRank p < pidRank q := by
  rw [pidRank, pidRank, if_neg hp, if_neg hq]
  exact WithBot.coe_lt_coe.mpr h

theorem pidRank_invalid_lt {p} (hp : p ≠ invalidProposalId) :
    pidRank invalidProposalId < pidRank p := by
  rw [pidRank, pidRank, if_pos rfl, if_neg hp]
  exact WithBot.bot_lt_coe p

/-- The recorded report becomes the answer `rep` if that is larger. -/
structure TakesLarger (rep : Report) (r r' : LogReconfirm) : Prop where
  selfAddr : r'.selfAddr = r.selfAddr
  state : r'.state = r.state
  followers : r'.currPaxosFollowerList = r.currPaxosFollowerList
  start : r'.start = r.start
  answers : r'.answers = r.answers
  chosen : r'.chosen = r.chosen ∧ rep.key ≤ r.chosen.key ∨
    r'.chosen = rep ∧ r.chosen.key < rep.key

theorem recordAnswer_takesLarger {server pid lsn} (hpid : pid ≠ invalidProposalId)
    (hle : r.majorityMaxAcceptPid = invalidProposalId ∨ r.majorityMaxAcceptPid ≤ pid) :
    TakesLarger ⟨server, pid, lsn⟩ r (r.recordAnswer server pid lsn) := by
  unfold recordAnswer
  split_ifs with heq hlsn hinv
  · refine ⟨rfl, rfl, rfl, rfl, rfl, .inr ⟨?_, key_lt_key_iff.mpr (.inr ⟨?_, hlsn⟩)⟩⟩
    · rw [heq]
      rfl
    · rw [heq]
      rfl
  · refine ⟨rfl, rfl, rfl, rfl, rfl, .inl ⟨rfl, key_le_key_iff.mpr (.inr ⟨?_, not_lt.mp hlsn⟩)⟩⟩
    rw [heq]
    rfl
  · refine ⟨rfl, rfl, rfl, rfl, rfl, .inr ⟨rfl, key_lt_key_iff.mpr (.inl ?_)⟩⟩
    show pidRank r.majorityMaxAcceptPid < pidRank pid
    by_cases hm : r.majorityMaxAcceptPid = invalidProposalId
    · rw [hm]
      exact pidRank_invalid_lt hpid
    · exact pidRank_lt_pidRank hm hpid (hinv.resolve_left hm)
  · -- the last branch of the source does nothing, and is never taken
    rw [not_or, not_lt] at hinv
    exact absurd (le_antisymm hinv.2 (hle.resolve_left hinv.1)) heq

theorem acceptAnswer_takesLarger {server pid lsn cend} (hpid : pid ≠ invalidProposalId) :
    TakesLarger ⟨server, pid, lsn⟩ r (r.acceptAnswer server pid lsn cend) := by
  unfold acceptAnswer
  by_cases hsmall : r.majorityMaxAcceptPid ≠ invalidProposalId ∧ pid < r.majorityMaxAcceptPid
  · rw [if_pos hsmall]
    exact ⟨rfl, rfl, rfl, rfl, rfl, .inl ⟨rfl, key_le_key_iff.mpr
      (.inl (pidRank_lt_pidRank hpid hsmall.1 hsmall.2))⟩⟩
  rw [if_neg hsmall]
  have hle : r.majorityMaxAcceptPid = invalidProposalId ∨ r.majorityMaxAcceptPid ≤ pid := by
    by_cases hm : r.majorityMaxAcceptPid = invalidProposalId
    · exact .inl hm
    · exact .inr (not_lt.mp fun hlt => hsmall ⟨hm, hlt⟩)
  have h : TakesLarger ⟨server, pid, lsn⟩ r (r.recordAnswer server pid lsn) :=
    recordAnswer_takesLarger hpid hle
  split_ifs
  · exact { h with }
  · exact h

theorem Recorded.takesLarger {rep r₁}
    (h : Recorded i r) (ht : TakesLarger rep r₁ r') (hserver : rep.server ≠ r.selfAddr)
    (hself : r₁.selfAddr = r.selfAddr) (hchosen : r₁.chosen = r.chosen)
    (hans : r₁.answers = rep :: r.answers) : Recorded i r' := by
  have hself' : r'.selfAddr = r.selfAddr := ht.selfAddr.trans hself
  have hans' : r'.answers = rep :: r.answers := ht.answers.trans hans
  have hlarger := ht.chosen
  rw [hchosen] at hlarger
  refine ⟨fun x hx => ?_, fun x hx => ?_, ?_⟩
  · rw [hans', mem_cons] at hx
    rw [hself']
    rcases hx with rfl | hx
    · exact hserver
    · exact h.server_ne x hx
  · rw [hans', mem_cons] at hx
    rcases hlarger with ⟨hkeep, hle⟩ | ⟨htake, hlt⟩
    · rw [hkeep]
      rcases hx with rfl | hx
      · exact hle
      · exact h.answers_le x hx
    · rw [htake]
      rcases hx with rfl | hx
      · exact le_rfl
      · exact (h.answers_le x hx).trans hlt.le
  · rw [hans', hself']
    rcases hlarger with ⟨hkeep, -⟩ | ⟨htake, hlt⟩
    · rw [hkeep]
      exact h.origin.imp_right fun ⟨hmem, hlt⟩ => ⟨mem_cons_of_mem _ hmem, hlt⟩
    rw [htake]
    refine .inr ⟨mem_cons_self, ?_⟩
    rcases h.origin with heq | ⟨-, hfirst⟩
    · rw [← heq]
      exact hlt
    · exact hfirst.trans hlt

/-- **A response keeps the invariant**, whoever sends it and however often. -/
theorem RoundInv.handlePrepareResponse (h : RoundInv r) (server : Addr) (src pid : ℤ)
    (lsn cend : LSN) : RoundInv (r.handlePrepareResponse server src pid lsn cend) := by
  unfold LogReconfirm.handlePrepareResponse
  by_cases harg : ¬ server.isValid ∨ src = invalidProposalId ∨ pid = invalidProposalId ∨
      lsn = invalidLsn
  · rw [if_pos harg]
    exact h
  rw [if_neg harg]
  by_cases hstate : src ≠ r.newProposalId ∨ r.state ≠ .fetchMaxLogLsn
  · rw [if_pos hstate]
    exact h
  rw [if_neg hstate]
  by_cases hmem : ¬ r.currPaxosFollowerList.containsServer server
  · rw [if_pos hmem]
    exact h
  rw [if_neg hmem]
  have hpid : pid ≠ invalidProposalId := fun hp => harg (.inr (.inr (.inl hp)))
  have hserver : server ≠ r.selfAddr := by
    rintro rfl
    exact h.followers (not_not.mp hmem)
  set r₁ : LogReconfirm :=
    { r with
      prepareLogAckList := addAck r.prepareLogAckList server
      answers := ⟨server, pid, lsn⟩ :: r.answers }
  have ht : TakesLarger ⟨server, pid, lsn⟩ r₁ (r₁.acceptAnswer server pid lsn cend) :=
    acceptAnswer_takesLarger hpid
  refine ⟨?_, fun hn => ?_, fun i hi => ?_⟩
  · rw [ht.followers, ht.selfAddr]
    exact h.followers
  · rw [ht.state]
    exact h.idle (ht.start.symm.trans hn)
  · exact (h.recorded i (ht.start.symm.trans hi)).takesLarger ht hserver rfl rfl rfl

/-! ### The stages -/

theorem roundInv_startRound (h : RoundInv r) : RoundInv (r.startRound env) where
  followers := h.followers
  idle hn := nomatch hn
  recorded i hi := by
    obtain rfl : r.roundStart env = i := Option.some.inj hi
    exact ⟨forall_mem_nil _, forall_mem_nil _, .inl rfl⟩

section

variable (h : RoundInv r) (hmode : r.start = none → env.reconfirmModeMetaRet ≠ none)
include h hmode

theorem RoundInv.submitPrepareLog : RoundInv (r.submitPrepareLog env).2 ∧
      ((r.submitPrepareLog env).1 = none → (r.submitPrepareLog env).2.start ≠ none) := by
  unfold LogReconfirm.submitPrepareLog
  split_ifs with hne hreq hmeta
  · exact ⟨h, fun hret hn => hmode hn hret⟩
  · exact ⟨roundInv_startRound h, fun _ hn => nomatch hn⟩
  · exact ⟨roundInv_startRound h, fun _ hn => nomatch hn⟩
  refine ⟨(roundInv_startRound h).of_sameRound ⟨rfl, rfl, rfl, rfl⟩ rfl ?_, fun _ hn => nomatch hn⟩
  exact fun hn => nomatch hn

theorem RoundInv.stageWaitingLogFlushed : RoundInv (r.stageWaitingLogFlushed env) := by
  unfold LogReconfirm.stageWaitingLogFlushed
  split_ifs with hpurge hflushed
  · exact h
  · obtain ⟨hinv, hstart⟩ := h.submitPrepareLog hmode
    split
    · next r' heq =>
      rw [heq] at hinv hstart
      exact hinv.of_sameRound ⟨rfl, rfl, rfl, rfl⟩ rfl fun hn => absurd hn (hstart rfl)
    · next heq =>
      rw [heq] at hinv
      exact hinv
  · exact h

theorem RoundInv.stageInited : RoundInv (r.stageInited env) := by
  unfold LogReconfirm.stageInited
  split
  · next r' heq =>
    unfold initReconfirm at heq
    split_ifs at heq with hself
    obtain ⟨followers, hrem, hr'⟩ := bind_eq_ok.mp heq
    cases hr'
    refine RoundInv.stageWaitingLogFlushed ⟨?_, fun _ => .inr rfl, fun i hi => ?_⟩ hmode
    · exact ObMemberList.not_containsServer_removeServer hrem
    · exact (h.recorded i hi).of_sameRound ⟨rfl, rfl, rfl, rfl⟩
  · exact h

end

/-- Stages in which no round starts change the state, and `saved_end_lsn_`. -/
def StageOnly (r r' : LogReconfirm) : Prop :=
  ∃ st saved, r' = { r with state := st, savedEndLsn := saved }

theorem stageReconfirmFetchLog_stageOnly : StageOnly r (r.stageReconfirmFetchLog env) := by
  unfold stageReconfirmFetchLog
  split_ifs
  all_goals exact ⟨_, _, rfl⟩

theorem stageReconfirmModeMeta_stageOnly : StageOnly r (r.stageReconfirmModeMeta env) := by
  unfold stageReconfirmModeMeta stageReconfirmFetchLog
  split_ifs
  all_goals exact ⟨_, _, rfl⟩

theorem stageReconfirming_stageOnly : StageOnly r (r.stageReconfirming env) := by
  unfold stageReconfirming stageStartWorking
  split_ifs
  all_goals exact ⟨_, _, rfl⟩

theorem stageStartWorking_stageOnly : StageOnly r (r.stageStartWorking env) := by
  unfold stageStartWorking
  split_ifs
  all_goals exact ⟨_, _, rfl⟩

theorem RoundInv.of_stageOnly (h : RoundInv r) (hs : r.start ≠ none) (hr : StageOnly r r') :
    RoundInv r' := by
  obtain ⟨st, saved, rfl⟩ := hr
  exact h.of_sameRound ⟨rfl, rfl, rfl, rfl⟩ rfl fun hn => absurd hn hs

theorem RoundInv.stageFetchMaxLogLsn (h : RoundInv r) (hs : r.start ≠ none) :
    RoundInv (r.stageFetchMaxLogLsn env) := by
  unfold LogReconfirm.stageFetchMaxLogLsn
  split_ifs
  · exact (h.submitPrepareLog fun hn => absurd hn hs).1
  · exact h
  have hmeta : StageOnly { r with state := .reconfirmModeMeta }
      ({ r with state := .reconfirmModeMeta }.stageReconfirmModeMeta env) :=
    stageReconfirmModeMeta_stageOnly
  obtain ⟨st, saved, heq⟩ := hmeta
  exact h.of_stageOnly hs ⟨st, saved, heq⟩

/-- **A call of `reconfirm` keeps the invariant.** The mode manager does not report the end of its
own round before a round has been started. -/
theorem RoundInv.reconfirm (h : RoundInv r)
    (hmode : r.start = none → env.reconfirmModeMetaRet ≠ none) : RoundInv (r.reconfirm env) := by
  have hs : r.state ≠ .inited → r.state ≠ .waitingLogFlushed → r.start ≠ none := by
    intro h₁ h₂ hn
    exact (h.idle hn).elim h₁ h₂
  unfold LogReconfirm.reconfirm
  split
  · exact h.stageInited hmode
  · exact h.stageWaitingLogFlushed hmode
  · next hst => exact h.stageFetchMaxLogLsn (hs (by simp [hst]) (by simp [hst]))
  · next hst =>
    exact h.of_stageOnly (hs (by simp [hst]) (by simp [hst])) stageReconfirmModeMeta_stageOnly
  · next hst =>
    exact h.of_stageOnly (hs (by simp [hst]) (by simp [hst])) stageReconfirmFetchLog_stageOnly
  · next hst =>
    exact h.of_stageOnly (hs (by simp [hst]) (by simp [hst])) stageReconfirming_stageOnly
  · next hst =>
    exact h.of_stageOnly (hs (by simp [hst]) (by simp [hst])) stageStartWorking_stageOnly
  · exact h

end LogReconfirm

/-! ## Runs -/

/-- The steps of a replica: calls of `reconfirm`, responses of any server with any content, in any
order and number, and resets. -/
inductive ReconfirmStep : LogReconfirm → LogReconfirm → Prop
  | reconfirm {r : LogReconfirm} (env : ReconfirmEnv)
      (hmode : r.start = none → env.reconfirmModeMetaRet ≠ none) :
      ReconfirmStep r (r.reconfirm env)
  | response {r} (server : Addr) (srcProposalId acceptProposalId : ℤ)
      (lastLsn committedEndLsn : LSN) :
      ReconfirmStep r
        (r.handlePrepareResponse server srcProposalId acceptProposalId lastLsn committedEndLsn)
  | reset {r} : ReconfirmStep r r.resetState

def reconfirmation : Machine LogReconfirm where
  init r := ∃ a, r = .initial a
  step := ReconfirmStep

theorem reconfirmation_roundInv {r} (h : reconfirmation.Reachable r) : r.RoundInv := by
  refine h.of_keeps ?_ ?_
  · rintro _ ⟨a, rfl⟩
    exact LogReconfirm.roundInv_initial a
  intro s s' hs hstep
  cases hstep with
  | reconfirm env hmode => exact hs.reconfirm hmode
  | response server src pid lsn cend => exact hs.handlePrepareResponse server src pid lsn cend
  | reset => exact hs.resetState

/-- **The choice in every run**: from `FETCH_MAX_LOG_LSN` on there is a round, and the recorded
report is its largest one exactly if the round began with the leader's own report, or one of the
answers is not smaller than the leader's own report and larger than what the round began with. -/
theorem reconfirm_newest_iff {r : LogReconfirm} (h : reconfirmation.Reachable r)
    (hr : r.state ≠ .inited ∧ r.state ≠ .waitingLogFlushed) : ∃ i, r.start = some i ∧
      (r.Newest ↔ i.OwnPidOk ∨ ∃ rep ∈ r.answers,
        (i.own r.selfAddr).key ≤ rep.key ∧ (i.carried r.selfAddr).key < rep.key) := by
  have hinv := reconfirmation_roundInv h
  cases hi : r.start with
  | none => exact absurd (hinv.idle hi) (not_or.mpr hr)
  | some i => exact ⟨i, rfl, (hinv.recorded i hi).newest_iff hi⟩

/-! ### Two elections among three servers -/

/-- Server 1 has flushed its log up to `lsn` with proposal id `flushed`, and accepted a
configuration with proposal id `accepted`. -/
def electedEnv (flushed accepted : ℤ) (lsn : LSN) : ReconfirmEnv where
  now := 0
  memberList := trioList
  replicaNum := 3
  purgeThrottlingRet := none
  isAllLogFlushed := true
  maxFlushedLogPid := flushed
  maxFlushedEndLsn := lsn
  reconfirmModeMetaRet := some .eagain
  localAcceptProposalId := accepted
  oldProposalId := 5
  handlePrepareRequestRet := none
  submitPrepareMetaReqRet := none
  needSkipLogBarrier := false
  isFetchLogFinished := false
  isMajorityCatchUp := false
  confirmStartWorkingLogRet := none
  currMaxLsn := lsn
  isAllCommittedLogSlidedOut := false

/-- The election in which server 2 answers with proposal id 3 and LSN 100. -/
def electedRun (flushed accepted : ℤ) (lsn : LSN) : LogReconfirm :=
  (((LogReconfirm.initial 1).reconfirm (electedEnv flushed accepted lsn)).handlePrepareResponse
    2 6 3 100 0).reconfirm (electedEnv flushed accepted lsn)

theorem reachable_electedRun (flushed accepted : ℤ) (lsn : LSN) :
    reconfirmation.Reachable (electedRun flushed accepted lsn) := by
  have h₀ : reconfirmation.Reachable (.initial 1) := .init ⟨1, rfl⟩
  have h₁ := h₀.step (ReconfirmStep.reconfirm (electedEnv flushed accepted lsn)
    (by simp [electedEnv]))
  have h₂ := h₁.step (ReconfirmStep.response 2 6 3 100 0)
  exact h₂.step (ReconfirmStep.reconfirm (electedEnv flushed accepted lsn) (by simp [electedEnv]))

theorem elected_with_log_newest :
    (electedRun 2 2 50).state = .reconfirmModeMeta ∧ (electedRun 2 2 50).chosen = ⟨2, 3, 100⟩ ∧
      (electedRun 2 2 50).Newest := by
  obtain ⟨i, hi, hiff⟩ := reconfirm_newest_iff (reachable_electedRun 2 2 50) (by decide)
  cases hi
  exact ⟨by decide, by decide, hiff.mpr (.inl (by decide))⟩

/-- **The leader's own configuration does not count if it has not flushed a log**: its proposal id
is 5, but it chooses the log that server 2 has accepted with proposal id 3. -/
theorem elected_without_log_not_newest :
    reconfirmation.Reachable (electedRun invalidProposalId 5 0) ∧
      (electedRun invalidProposalId 5 0).state = .reconfirmModeMeta ∧
      (electedRun invalidProposalId 5 0).chosen = ⟨2, 3, 100⟩ ∧
      (⟨1, 5, 0⟩ : Report) ∈ (electedRun invalidProposalId 5 0).reports ∧
      ¬ (electedRun invalidProposalId 5 0).Newest := by
  have hown : (⟨1, 5, 0⟩ : Report) ∈ (electedRun invalidProposalId 5 0).reports := by decide
  have hchosen : (electedRun invalidProposalId 5 0).chosen = ⟨2, 3, 100⟩ := by decide
  refine ⟨reachable_electedRun _ _ _, by decide, hchosen, hown, fun h => ?_⟩
  have hle := h.2 _ hown
  rw [hchosen, LogReconfirm.key_le_key_iff] at hle
  exact absurd hle (by decide)

end OceanBase.Palf
