import OceanBase.Palf.Config

/-!
# Changes of the configuration

The leader checks the arguments of a change (`check_config_change_args_`) against the current
configuration and derives the next one from it (`generate_new_config_info_`). The check ends by
deriving the new configuration and testing that its lists reach a majority of their replica
numbers. If the new lists do not contain the leader itself, it logs an error instead and accepts
the change without that test.
-/

namespace OceanBase.Palf

/-! ## Types of changes -/

inductive LogConfigChangeType
  | invalid | changeReplicaNum | addMember | addArbMember | removeMember | removeArbMember
  | addMemberAndNum | removeMemberAndNum | addLearner | removeLearner
  | switchLearnerToAcceptor | switchAcceptorToLearner | degradeAcceptorToLearner
  | upgradeLearnerToAcceptor | startWorking | forceSingleMember | tryLockConfigChange
  | unlockConfigChange | replaceLearners | switchLearnerToAcceptorAndNum
  deriving DecidableEq

namespace LogConfigChangeType

/-- The types whose arguments carry a config version that must match. The version is only checked
once all servers of the cluster send it. -/
def needCheckConfigVersion (isClusterAlready4200 : Bool) : LogConfigChangeType → Bool
  | addMember | addMemberAndNum | switchLearnerToAcceptor | switchLearnerToAcceptorAndNum =>
    isClusterAlready4200
  | _ => false

def isAddLogSyncMemberList : LogConfigChangeType → Bool
  | addMember | addMemberAndNum | switchLearnerToAcceptor | upgradeLearnerToAcceptor
  | switchLearnerToAcceptorAndNum => true
  | _ => false

def isRemoveLogSyncMemberList : LogConfigChangeType → Bool
  | removeMember | removeMemberAndNum | switchAcceptorToLearner | degradeAcceptorToLearner => true
  | _ => false

def isAddMemberList (t : LogConfigChangeType) : Bool :=
  t.isAddLogSyncMemberList || t = addArbMember

def isRemoveMemberList (t : LogConfigChangeType) : Bool :=
  t.isRemoveLogSyncMemberList || t = removeArbMember

def isArbMemberChangeType : LogConfigChangeType → Bool
  | addArbMember | removeArbMember => true
  | _ => false

def isAddLearnerList : LogConfigChangeType → Bool
  | addLearner | switchAcceptorToLearner | degradeAcceptorToLearner | replaceLearners => true
  | _ => false

def isRemoveLearnerList : LogConfigChangeType → Bool
  | removeLearner | switchLearnerToAcceptor | upgradeLearnerToAcceptor
  | switchLearnerToAcceptorAndNum | replaceLearners => true
  | _ => false

def isUseReplicaNumArgs : LogConfigChangeType → Bool
  | addMember | removeMember | changeReplicaNum | forceSingleMember | switchLearnerToAcceptor
  | switchAcceptorToLearner => true
  | _ => false

def isMayChangeReplicaNum (t : LogConfigChangeType) : Bool :=
  t.isAddMemberList || t.isRemoveMemberList || t = changeReplicaNum || t = forceSingleMember

def isPaxosMemberListChange : LogConfigChangeType → Bool
  | addMember | removeMember | addMemberAndNum | removeMemberAndNum | switchLearnerToAcceptor
  | switchAcceptorToLearner | changeReplicaNum | switchLearnerToAcceptorAndNum => true
  | _ => false

end LogConfigChangeType

open LogConfigChangeType

/-! ## Arguments -/

structure LogConfigChangeArgs where
  server : ObMember
  currMemberList : ObMemberList
  currReplicaNum : ℤ
  newReplicaNum : ℤ
  configVersion : LogConfigVersion
  lockOwner : ℤ
  lockType : ℤ
  type : LogConfigChangeType
  addedList : ObMemberList
  removedList : ObMemberList

def isValidReplicaNum (n : ℤ) : Prop := 0 < n ∧ n ≤ obMaxMemberNumber
  deriving Decidable

namespace LogConfigChangeArgs

variable (args : LogConfigChangeArgs)

/-- A change of members or learners names a server or two lists. The config version is not
checked. -/
def isValid : Prop :=
  args.type ≠ .invalid ∧
  (args.type.isAddMemberList ∨ args.type.isRemoveMemberList ∨ args.type.isAddLearnerList ∨
      args.type.isRemoveLearnerList →
    args.server.isValid ∨ args.addedList.isValid ∧ args.removedList.isValid) ∧
  (args.type.isUseReplicaNumArgs → isValidReplicaNum args.newReplicaNum) ∧
  (args.type = .changeReplicaNum → args.currMemberList.isValid ∧
    isValidReplicaNum args.currReplicaNum ∧ isValidReplicaNum args.newReplicaNum) ∧
  (args.type = .tryLockConfigChange ∨ args.type = .unlockConfigChange →
    args.lockOwner ≠ invalidConfigChangeLockOwner)
  deriving Decidable

end LogConfigChangeArgs

variable (args : LogConfigChangeArgs)

/-! ## The new configuration -/

/-- The member to be removed has been degraded to a learner. -/
def isRemoveDegradedLearner (c : LogConfigInfo) : Prop :=
  args.type.isRemoveLogSyncMemberList ∧ c.degradedLearnerlist.contains args.server
  deriving Decidable

/-- `new_log_sync_replica_num` before the special case of an offline member. -/
def requestedReplicaNum (c : LogConfigInfo) : Except ObErr ℤ :=
  if args.type.isUseReplicaNumArgs then
    -- the replica number of the arguments counts the degraded learners, as they will be
    let degradedCnt : ℤ := c.degradedLearnerlist.memberNumber
    .ok (args.newReplicaNum -
      if isRemoveDegradedLearner args c then degradedCnt - 1 else degradedCnt)
  else if args.type.isAddLogSyncMemberList then .ok (c.logSyncReplicaNum + 1)
  else if args.type.isRemoveLogSyncMemberList ∧ isRemoveDegradedLearner args c then
    .ok c.logSyncReplicaNum
  else if args.type.isRemoveLogSyncMemberList then .ok (c.logSyncReplicaNum - 1)
  else if args.type.isArbMemberChangeType then .ok c.logSyncReplicaNum
  else .error .errUnexpected

/-- `new_log_sync_replica_num`. Removing a degraded learner keeps the replica number if the
remaining members would not be a majority of the requested one. -/
def newLogSyncReplicaNum (c : LogConfigInfo) : Except ObErr ℤ :=
  if args.type.isMayChangeReplicaNum then
    match requestedReplicaNum args c with
    | .ok n =>
      if isRemoveDegradedLearner args c ∧ (c.logSyncMemberlist.memberNumber : ℤ) * 2 = n then
        .ok c.logSyncReplicaNum
      else .ok n
    | .error e => .error e
  else .ok c.logSyncReplicaNum

/-- Members of the log-sync list are never migrating. -/
def addLogSyncMember (l : ObMemberList) : Except ObErr ObMemberList :=
  if args.type.isAddLogSyncMemberList then l.addMember args.server.resetMigrating else .ok l

/-- The member leaves the log-sync list by its address, or the degraded learners as it is. -/
def removeLogSyncMember (l : ObMemberList) (d : LearnerList) :
    Except ObErr (ObMemberList × LearnerList) :=
  if args.type.isRemoveLogSyncMemberList then
    if l.contains args.server then do
      let l' ← l.removeServer args.server.server
      pure (l', d)
    else if d.contains args.server then do
      let d' ← d.removeLearner args.server
      pure (l, d')
    else .error .invalidArgument
  else .ok (l, d)

def newArbitrationMember (arb : ObMember) : ObMember :=
  match args.type with
  | .addArbMember => args.server
  | .removeArbMember => .empty
  | _ => arb

/-- Adds learners one by one; those that are there already are skipped. -/
def addLearnerList (l : LearnerList) : List ObMember → Except ObErr LearnerList
  | [] => .ok l
  | m :: ms =>
    match l.addLearner m with
    | .ok l' => addLearnerList l' ms
    | .error .entryExist => addLearnerList l ms
    | .error e => .error e

/-- Removes learners one by one; those that are not there are skipped. -/
def removeLearnerList (l : LearnerList) : List ObMember → Except ObErr LearnerList
  | [] => .ok l
  | m :: ms =>
    match l.removeLearner m with
    | .ok l' => removeLearnerList l' ms
    | .error .entryNotExist => removeLearnerList l ms
    | .error e => .error e

/-- The degraded and the normal learners after learners have been added. -/
def addLearners (d l : LearnerList) : Except ObErr (LearnerList × LearnerList) :=
  if args.type.isAddLearnerList then
    if args.type = .degradeAcceptorToLearner then do
      let d' ← d.addLearner args.server
      pure (d', l)
    else if args.type = .replaceLearners then do
      let l' ← addLearnerList l args.addedList.members
      pure (d, l')
    else do
      let l' ← l.addLearner args.server
      pure (d, l')
  else .ok (d, l)

/-- The degraded and the normal learners after learners have been removed. -/
def removeLearners (d l : LearnerList) : Except ObErr (LearnerList × LearnerList) :=
  if args.type.isRemoveLearnerList then
    if args.type = .upgradeLearnerToAcceptor then do
      let d' ← d.removeLearner args.server
      pure (d', l)
    else if args.type = .replaceLearners then do
      let l' ← removeLearnerList l args.removedList.members
      pure (d, l')
    else do
      let l' ← l.removeLearner args.server
      pure (d, l')
  else .ok (d, l)

/-- The lists and the replica number after the change. -/
def changeLists (c : LogConfigInfo) : Except ObErr LogConfigInfo := do
  let replicaNum ← newLogSyncReplicaNum args c
  let l₁ ← addLogSyncMember args c.logSyncMemberlist
  let (l₂, d₂) ← removeLogSyncMember args l₁ c.degradedLearnerlist
  let (d₃, n₃) ← addLearners args d₂ c.learnerlist
  let (d₄, n₄) ← removeLearners args d₃ n₃
  pure { c with
    logSyncMemberlist := l₂
    logSyncReplicaNum := replicaNum
    arbitrationMember := newArbitrationMember args c.arbitrationMember
    learnerlist := n₄
    degradedLearnerlist := d₄ }

def changeLock (now : ℤ) (k : LogLockMeta) : Except ObErr LogLockMeta :=
  match args.type with
  | .tryLockConfigChange => LogLockMeta.generate now args.lockOwner args.lockType
  | .unlockConfigChange => .ok (k.unlock now)
  | _ => .ok k

/-- `FORCE_SINGLE_MEMBER` replaces the members; the result of `add_member` is not looked at. -/
def forceSingleMember (c : LogConfigInfo) : LogConfigInfo :=
  if args.type = .forceSingleMember then
    { c with
      logSyncMemberlist := (ObMemberList.empty.addMember args.server).toOption.getD .empty
      logSyncReplicaNum := args.newReplicaNum
      arbitrationMember := .empty
      degradedLearnerlist := .empty }
  else c

/-- The part of `generate_new_config_info_` after the version has been set. -/
def changeConfigInfo (now : ℤ) (c : LogConfigInfoV2) : Except ObErr LogConfigInfoV2 := do
  let config ← changeLists args c.config
  let lockMeta ← changeLock args now c.lockMeta
  let new := { c with config := forceSingleMember args config, lockMeta := lockMeta }
  if new.isValid then .ok new else .error .invalidArgument

def generateNewConfigInfo (now proposalId : ℤ) (c : LogConfigInfoV2) :
    Except ObErr LogConfigInfoV2 :=
  if proposalId = invalidProposalId ∨ ¬ args.isValid then .error .invalidArgument
  else do
    let v ← c.config.configVersion.incUpdateVersion proposalId
    let c₁ := { c with config := { c.config with configVersion := v } }
    if args.type = .startWorking then .ok c₁ else changeConfigInfo args now c₁

/-! ## The check -/

/-- What the cases of `check_config_change_args_by_type_` look at. -/
structure ArgsStatus where
  isInLogSyncMemberlist : Bool
  isInDegradedLearnerlist : Bool
  isInLearnerlist : Bool
  isArbReplica : Bool
  hasArbReplica : Bool

/-- The flag of the member does not matter for the log-sync list. -/
def argsStatus (c : LogConfigInfo) : ArgsStatus where
  isInLogSyncMemberlist :=
    c.logSyncMemberlist.contains (.ofServer args.server.server args.server.timestamp)
  isInDegradedLearnerlist := c.degradedLearnerlist.contains args.server
  isInLearnerlist := c.learnerlist.contains args.server
  isArbReplica := c.arbitrationMember = args.server
  hasArbReplica := c.arbitrationMember.isValid

/-- The first loop over `REPLACE_LEARNERS`: all added servers are learners already. It stops at the
first that is not, so later ones are not compared with the members. -/
def allAddedInLearnerlist (currMemberList : ObMemberList) (learnerlist : LearnerList) :
    List ObMember → Except ObErr Bool
  | [] => .ok true
  | m :: ms =>
    if currMemberList.containsServer m.server then .error .invalidArgument
    else if ¬ learnerlist.contains m then .ok false
    else allAddedInLearnerlist currMemberList learnerlist ms

/-- `is_already_finished`, if the member is where it should be and only the replica number may
differ. -/
def finishedIf (p : Prop) [Decidable p] : Except ObErr Bool :=
  if p then .ok true else .error .invalidArgument

/-- `check_config_change_args_by_type_`, with `curr_member_list` and `curr_replica_num` given. The
result tells whether the change is already finished. -/
def checkByType (c : LogConfigInfoV2) (currMemberList : ObMemberList) (currReplicaNum : ℤ) :
    Except ObErr Bool :=
  let st := argsStatus args c.config
  let d := c.config.degradedLearnerlist
  match args.type with
  | .changeReplicaNum =>
    if currReplicaNum = args.newReplicaNum ∧ currMemberList.memberAddrEqual args.currMemberList then
      .ok true
    else if ¬ currMemberList.memberAddrEqual args.currMemberList ∨
        currReplicaNum ≠ args.currReplicaNum then .error .invalidArgument
    else .ok false
  | .addMember | .addMemberAndNum =>
    if st.isInLearnerlist ∨ st.isInDegradedLearnerlist ∨ st.isArbReplica then
      .error .invalidArgument
    else if st.isInLogSyncMemberlist then
      finishedIf (args.type = .addMemberAndNum ∨ args.newReplicaNum = currReplicaNum)
    else .ok false
  | .removeMember | .removeMemberAndNum =>
    if st.isInLearnerlist ∨ st.isArbReplica then .error .invalidArgument
    else if ¬ st.isInLogSyncMemberlist then
      if st.isInDegradedLearnerlist then .ok false
      else finishedIf (args.type = .removeMemberAndNum ∨ args.newReplicaNum = currReplicaNum ∨
        st.hasArbReplica ∧ d.memberNumber = 0 ∧
          (c.config.logSyncMemberlist.memberNumber : ℤ) * 2 = args.newReplicaNum)
    else .ok false
  | .addArbMember =>
    if st.isInLearnerlist ∨ st.isInDegradedLearnerlist ∨ st.isInLogSyncMemberlist then
      .error .invalidArgument
    else if st.isArbReplica then finishedIf (args.newReplicaNum = currReplicaNum)
    else if st.hasArbReplica then .error .invalidArgument
    else .ok false
  | .removeArbMember =>
    if st.isInLearnerlist ∨ st.isInDegradedLearnerlist ∨ st.isInLogSyncMemberlist then
      .error .invalidArgument
    else if ¬ st.isArbReplica then finishedIf (args.newReplicaNum = currReplicaNum)
    else .ok false
  | .addLearner =>
    if st.isInLogSyncMemberlist ∨ st.isInDegradedLearnerlist ∨ st.isArbReplica then
      .error .invalidArgument
    else .ok st.isInLearnerlist
  | .removeLearner =>
    if st.isInLogSyncMemberlist ∨ st.isInDegradedLearnerlist ∨ st.isArbReplica then
      .error .invalidArgument
    else .ok (!st.isInLearnerlist)
  | .switchLearnerToAcceptor | .switchLearnerToAcceptorAndNum | .upgradeLearnerToAcceptor =>
    if (st.isInDegradedLearnerlist ∨ st.isInLearnerlist) ∧ st.isInLogSyncMemberlist then
      .error .errUnexpected
    else if (st.isInLearnerlist ∨ st.isInDegradedLearnerlist) ∧ ¬ st.isInLogSyncMemberlist then
      if args.type = .upgradeLearnerToAcceptor ∧ st.isInLearnerlist then .error .invalidArgument
      else if args.type ≠ .upgradeLearnerToAcceptor ∧ st.isInDegradedLearnerlist then
        .error .invalidArgument
      else .ok false
    else if st.isInLogSyncMemberlist then
      finishedIf (args.type ≠ .switchLearnerToAcceptor ∨ args.newReplicaNum = currReplicaNum)
    else .error .invalidArgument
  | .switchAcceptorToLearner | .degradeAcceptorToLearner =>
    if ¬ st.hasArbReplica ∧ args.type = .degradeAcceptorToLearner then .error .invalidArgument
    else if (st.isInLearnerlist ∨ st.isInDegradedLearnerlist) ∧ st.isInLogSyncMemberlist then
      .error .errUnexpected
    else if st.isInLearnerlist ∨ st.isInDegradedLearnerlist then
      if args.type = .degradeAcceptorToLearner ∧ st.isInLearnerlist then .error .invalidArgument
      else if args.type = .switchAcceptorToLearner ∧ st.isInDegradedLearnerlist then
        .error .invalidArgument
      else finishedIf (args.type = .degradeAcceptorToLearner ∨ args.newReplicaNum = currReplicaNum)
    else if st.isInLogSyncMemberlist then .ok false
    else .error .invalidArgument
  | .startWorking | .forceSingleMember => .ok false
  | .tryLockConfigChange =>
    if args.lockOwner = c.lockMeta.lockOwner then
      if c.lockMeta.lockType = lockPaxosMemberChange then .ok true else .error .stateNotMatch
    else if c.lockMeta.lockOwner < args.lockOwner then
      if c.lockMeta.lockType = lockNothing then .ok false
      else .error .tryLockConfigChangeConflict
    else .error .stateNotMatch
  | .unlockConfigChange =>
    if args.lockOwner = c.lockMeta.lockOwner then
      if c.lockMeta.lockType = lockPaxosMemberChange then .ok false
      else if c.lockMeta.lockType = lockNothing then .ok true
      else .error .notSupported
    else .error .stateNotMatch
  | .replaceLearners =>
    match allAddedInLearnerlist currMemberList c.config.learnerlist args.addedList.members with
    | .ok allAdded => .ok (allAdded &&
        decide (∀ m ∈ args.removedList.members, ¬ c.config.learnerlist.contains m))
    | .error e => .error e
  | .invalid => .error .invalidArgument

def checkConfigChangeArgsByType (c : LogConfigInfoV2) : Except ObErr Bool :=
  match c.config.getExpectedPaxosMemberlist with
  | .ok (currMemberList, currReplicaNum) => checkByType args c currMemberList currReplicaNum
  | .error e => .error e

/-- `can_memberlist_majority_`; the replica number is positive where it is called. -/
def canMemberlistMajority (newMemberListLen newReplicaNum : ℤ) : Prop :=
  newMemberListLen ≤ newReplicaNum ∧ newReplicaNum / 2 + 1 ≤ newMemberListLen
  deriving Decidable

/-- What the check reads besides the configuration and the arguments. -/
structure ConfigEnv where
  self : Addr
  proposalId : ℤ
  now : ℤ
  isClusterAlready4200 : Bool

/-- The last part of `check_config_change_args_`. New lists without the leader are reported in the
log, but no error code is set. -/
def checkMajority (env : ConfigEnv) (new : LogConfigInfo) : Except ObErr Bool :=
  match new.convertToCompleteConfig with
  | .ok (l, n, _) =>
    if ¬ l.containsServer env.self ∨ ¬ new.logSyncMemberlist.containsServer env.self then .ok false
    else if ¬ canMemberlistMajority new.logSyncMemberlist.memberNumber new.logSyncReplicaNum ∨
        ¬ canMemberlistMajority l.memberNumber n then .error .invalidArgument
    else .ok false
  | .error e => .error e

/-- `check_config_change_args_`: an error, or whether the change is already finished. -/
def checkConfigChangeArgs (env : ConfigEnv) (c : LogConfigInfoV2) : Except ObErr Bool :=
  if ¬ args.isValid then .error .invalidArgument
  else if args.type.isRemoveMemberList ∧ env.self = args.server.server then
    .error .notAllowRemovingLeader
  else if c.isConfigChangeLocked ∧ args.type.isPaxosMemberListChange then .error .eagain
  else if args.type.needCheckConfigVersion env.isClusterAlready4200 ∧
      c.config.configVersion < args.configVersion then .error .errUnexpected
  else do
    let isAlreadyFinished ← checkConfigChangeArgsByType args c
    if isAlreadyFinished then .ok true
    else if args.type.needCheckConfigVersion env.isClusterAlready4200 ∧
        args.configVersion ≠ c.config.configVersion then .error .stateNotMatch
    else do
      let new ← generateNewConfigInfo args env.now env.proposalId c
      checkMajority env new.config

end OceanBase.Palf
