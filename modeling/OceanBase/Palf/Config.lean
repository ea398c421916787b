import OceanBase.Palf.MemberList

/-!
# Configurations of a replication group

`LogConfigInfo` holds the members that replicate the log, the arbitration member, the learners and
the members that have been degraded to learners. `LogConfigInfoV2` adds the lock that protects the
paxos members against changes. This module models what the source computes from a configuration;
the changes are in `OceanBase.Palf.ConfigChange`.

## Main results

* `LogConfigInfo.complete_servers`
-/

namespace OceanBase.Palf

/-! ## The lock -/

def lockNothing : ℤ := 0

def lockPaxosMemberChange : ℤ := 1

def invalidConfigChangeLockOwner : ℤ := -1

structure LogLockMeta where
  version : ℤ
  lockOwner : ℤ
  lockType : ℤ
  lockTime : ℤ

namespace LogLockMeta

def logLockMetaVersion : ℤ := 1

variable (k : LogLockMeta)

def isValid : Prop :=
  k.version = logLockMetaVersion ∧
  (0 < k.lockOwner ∧ k.lockType = lockPaxosMemberChange ∧ k.lockTime ≠ invalidTimestamp ∨
   k.lockType = lockNothing ∧
    (k.lockOwner = invalidConfigChangeLockOwner ∧ k.lockTime = invalidTimestamp ∨
     k.lockOwner ≠ invalidConfigChangeLockOwner ∧ k.lockTime ≠ invalidTimestamp))
  deriving Decidable

def isLocked : Prop := k.lockType = lockPaxosMemberChange
  deriving Decidable

def generate (now lockOwner lockType : ℤ) : Except ObErr LogLockMeta :=
  if lockType ≠ lockPaxosMemberChange ∨ lockOwner ≤ 0 then .error .invalidArgument
  else .ok ⟨logLockMetaVersion, lockOwner, lockType, now⟩

def unlock (now : ℤ) : LogLockMeta := { k with lockType := lockNothing, lockTime := now }

/-- `reset_as_unlocked` -/
def unlocked : LogLockMeta :=
  ⟨logLockMetaVersion, invalidConfigChangeLockOwner, lockNothing, invalidTimestamp⟩

end LogLockMeta

/-! ## Configurations -/

structure LogConfigInfo where
  logSyncMemberlist : ObMemberList
  logSyncReplicaNum : ℤ
  arbitrationMember : ObMember
  learnerlist : LearnerList
  degradedLearnerlist : LearnerList
  configVersion : LogConfigVersion

/-- `check_list_unique`: adds the members of a list to the servers seen so far. -/
def checkListUnique (serverList : LearnerList) : List ObMember → Except ObErr LearnerList
  | [] => .ok serverList
  | m :: ms =>
    if serverList.containsServer m.server then .error .invalidArgument
    else
      match serverList.addLearner m with
      | .ok serverList' => checkListUnique serverList' ms
      | .error e => .error e

namespace LogConfigInfo

variable (c : LogConfigInfo)

/-- The list that `is_all_list_unique` starts from. -/
def arbServerList : Except ObErr LearnerList :=
  if c.arbitrationMember.isValid then LearnerList.empty.addLearner c.arbitrationMember
  else .ok .empty

/-- The servers `is_all_list_unique` collects, or the error it stops at. -/
def uniqueServerList : Except ObErr LearnerList := do
  let l ← c.arbServerList
  let l ← checkListUnique l c.logSyncMemberlist.members
  let l ← checkListUnique l c.degradedLearnerlist.learners
  checkListUnique l c.learnerlist.learners

def isAllListUnique : Prop := c.uniqueServerList.isOk
  deriving Decidable

def isValid : Prop :=
  c.logSyncMemberlist.isValid ∧ c.isAllListUnique ∧ 0 < c.logSyncReplicaNum ∧
    c.logSyncReplicaNum ≤ obMaxMemberNumber ∧ c.configVersion.isValid
  deriving Decidable

/-- The lists that make up the group are set: the check at the head of the two conversions. -/
def hasMembers : Prop :=
  c.logSyncMemberlist.isValid ∧ 0 < c.logSyncReplicaNum ∧ c.logSyncReplicaNum ≤ obMaxMemberNumber
  deriving Decidable

/-- `get_expected_paxos_memberlist`: every degraded learner counts as a member and as a replica. -/
def getExpectedPaxosMemberlist : Except ObErr (ObMemberList × ℤ) :=
  if c.hasMembers then
    match c.degradedLearnerlist.learners.foldlM ObMemberList.addMember c.logSyncMemberlist with
    | .ok l => .ok (l, c.logSyncReplicaNum + c.degradedLearnerlist.memberNumber)
    | .error e => .error e
  else .ok (.empty, 0)

/-- `all_learners` of `convert_to_complete_config`. -/
def allLearners : Except ObErr LearnerList := do
  let l ← LearnerList.empty.append c.learnerlist
  l.append c.degradedLearnerlist

/-- `alive_paxos_memberlist` and `alive_paxos_replica_num` of `convert_to_complete_config`. -/
def alivePaxosMembers : Except ObErr (ObMemberList × ℤ) :=
  if c.arbitrationMember.isValid then
    match c.logSyncMemberlist.addMember c.arbitrationMember with
    | .ok l => .ok (l, c.logSyncReplicaNum + 1)
    | .error e => .error e
  else .ok (c.logSyncMemberlist, c.logSyncReplicaNum)

/-- `convert_to_complete_config`: the members that are alive, with the arbitration member. -/
def convertToCompleteConfig : Except ObErr (ObMemberList × ℤ × LearnerList) :=
  if ¬ c.hasMembers then .error .notInit
  else do
    let allLearners ← c.allLearners
    let (l, n) ← c.alivePaxosMembers
    pure (l, n, allLearners)

end LogConfigInfo

structure LogConfigInfoV2 where
  version : ℤ
  config : LogConfigInfo
  lockMeta : LogLockMeta

namespace LogConfigInfoV2

def logConfigInfoVersion : ℤ := 1

variable (c : LogConfigInfoV2)

def isValid : Prop :=
  c.version = logConfigInfoVersion ∧ c.config.isValid ∧ c.lockMeta.isValid
  deriving Decidable

def isConfigChangeLocked : Prop := c.lockMeta.isLocked
  deriving Decidable

end LogConfigInfoV2

/-! ## Lists without common addresses -/

theorem checkListUnique_ok {ms l l'} (h : checkListUnique l ms = .ok l') (hnd : l.servers.Nodup) :
    l'.servers.Nodup ∧ l'.servers.Perm (l.servers ++ ms.map ObMember.server) := by
  induction ms generalizing l with
  | nil =>
    cases h
    exact ⟨hnd, by simp⟩
  | cons m ms ih =>
    rw [checkListUnique] at h
    split_ifs at h with hc
    cases hadd : l.addLearner m with
    | error e => rw [hadd] at h; cases h
    | ok l₁ =>
    rw [hadd] at h
    have hperm : l₁.servers.Perm (m.server :: l.servers) :=
      (LearnerList.perm_addLearner hadd).map ObMember.server
    obtain ⟨hnd', hperm'⟩ := ih h (hperm.nodup_iff.mpr (List.nodup_cons.mpr ⟨hc, hnd⟩))
    refine ⟨hnd', hperm'.trans ?_⟩
    apply (hperm.append_right _).trans
    rw [List.map_cons]
    exact List.perm_middle.symm

namespace LogConfigInfo

variable {c : LogConfigInfo}

/-- The address of the arbitration member, if there is one. -/
def arbServers (c : LogConfigInfo) : List Addr :=
  if c.arbitrationMember.isValid then [c.arbitrationMember.server] else []

def allServers (c : LogConfigInfo) : List Addr :=
  c.arbServers ++ c.logSyncMemberlist.servers ++ c.degradedLearnerlist.servers ++
    c.learnerlist.servers

theorem arbServerList_ok {l} (h : c.arbServerList = .ok l) : l.servers = c.arbServers := by
  unfold arbServerList at h
  unfold arbServers
  split_ifs at h ⊢ with ha
  · have hperm := (LearnerList.perm_addLearner h).map ObMember.server
    exact List.perm_singleton.mp hperm
  · cases h
    rfl

/-- **No address occurs twice in a configuration whose lists are unique.** -/
theorem nodup_allServers (h : c.isAllListUnique) : c.allServers.Nodup := by
  unfold isAllListUnique at h
  cases hu : c.uniqueServerList with
  | error e => rw [hu] at h; cases h
  | ok l =>
  simp only [uniqueServerList, bind_eq_ok] at hu
  obtain ⟨l₀, h₀, l₁, h₁, l₂, h₂, h₃⟩ := hu
  have hnd : l₀.servers.Nodup := by
    rw [arbServerList_ok h₀, arbServers]
    split_ifs <;> simp
  obtain ⟨hnd₁, hp₁⟩ := checkListUnique_ok h₁ hnd
  obtain ⟨hnd₂, hp₂⟩ := checkListUnique_ok h₂ hnd₁
  obtain ⟨hnd₃, hp₃⟩ := checkListUnique_ok h₃ hnd₂
  rw [arbServerList_ok h₀] at hp₁
  have hperm : l.servers.Perm c.allServers :=
    hp₃.trans (((hp₂.trans (hp₁.append_right _))).append_right _)
  exact hperm.nodup_iff.mp hnd₃

/-- The members of the complete configuration are the members and the arbitration member. -/
def completeServers (c : LogConfigInfo) : List Addr := c.arbServers ++ c.logSyncMemberlist.servers

/-- The replica number of the complete configuration. -/
def completeReplicaNum (c : LogConfigInfo) : ℤ := c.logSyncReplicaNum + c.arbServers.length

theorem alivePaxosMembers_ok {l n} (h : c.alivePaxosMembers = .ok (l, n)) :
    l.servers.Perm c.completeServers ∧ n = c.completeReplicaNum := by
  unfold alivePaxosMembers at h
  unfold completeServers completeReplicaNum arbServers
  split_ifs at h ⊢ with ha
  · cases hadd : c.logSyncMemberlist.addMember c.arbitrationMember with
    | error e => rw [hadd] at h; cases h
    | ok l' =>
      rw [hadd] at h
      cases h
      exact ⟨(ObMemberList.perm_addMember hadd).map ObMember.server, rfl⟩
  · cases h
    exact ⟨by simp, by simp⟩

/-- **The complete configuration consists of the members and the arbitration member.** -/
theorem complete_servers {l n learners} (h : c.convertToCompleteConfig = .ok (l, n, learners)) :
    l.servers.Perm c.completeServers ∧ n = c.completeReplicaNum := by
  unfold convertToCompleteConfig at h
  split_ifs at h
  simp only [bind_eq_ok] at h
  obtain ⟨_, -, ⟨l', n'⟩, halive, heq⟩ := h
  cases heq
  exact alivePaxosMembers_ok halive

end LogConfigInfo

end OceanBase.Palf
