import OceanBase.Lib.Quorum
import OceanBase.Palf.ConfigChange

/-!
# Majorities survive a change of the configuration

A group stays consistent across a reconfiguration if every majority of the old members shares a
member with every majority of the new ones, for the members that replicate the log and for the
complete list with the arbitration member. All types of changes but `FORCE_SINGLE_MEMBER` add or
remove at most one member, so this follows once the lists are not longer than their replica
numbers. The check establishes that on a member of the log-sync list. These changes are made by the
leader only, and a replica becomes leader only if it is a member, so the check always does.

## Main results

* `changesAreSafe_of_leads`
-/

namespace OceanBase.Palf

open LogConfigChangeType LogConfigInfo ObMemberList List LogConfigVersion Except ObMember

variable {args : LogConfigChangeArgs} {env : ConfigEnv} {now proposalId : ℤ} {a : Addr}

/-! ## The leader -/

/-- `need_exec_on_leader_`, which both callers of the check ask before they demand the leader. -/
def needExecOnLeader (t : LogConfigChangeType) : Bool :=
  t ≠ .forceSingleMember

/-- The tests of a replica on its way to leader. `follower_need_update_role_` turns an arbitration
replica away; `init_reconfirm_` and `reconfirm_to_leader_active_` do not go on unless
`alive_paxos_memberlist_` contains the replica. -/
def mayLead (self : Addr) (c : LogConfigInfo) : Prop :=
  self ∉ c.arbServers ∧ ∃ l n, c.alivePaxosMembers = .ok (l, n) ∧ l.containsServer self

/-! ## What a change should keep -/

/-- A configuration the group can work with. -/
structure WellFormed (c : LogConfigInfoV2) : Prop where
  valid : c.isValid
  logSync : canMemberlistMajority c.config.logSyncMemberlist.memberNumber c.config.logSyncReplicaNum
  complete : ∃ l n learners, c.config.convertToCompleteConfig = .ok (l, n, learners) ∧
    canMemberlistMajority l.memberNumber n

/-- The member lists of a configuration, by address. -/
def memberLists (c : LogConfigInfo) : List (List Addr) :=
  [c.logSyncMemberlist.servers, c.arbServers, c.degradedLearnerlist.servers, c.learnerlist.servers]

/-- The step from `c` to `c'` keeps the group consistent. -/
structure SafeChange (c c' : LogConfigInfoV2) : Prop where
  wellFormed : WellFormed c'
  disjoint : (memberLists c'.config).Pairwise List.Disjoint
  version : c.config.configVersion < c'.config.configVersion
  logSync : ∀ Q Q' : Finset Addr,
    IsMajority c.config.logSyncMemberlist.servers c.config.logSyncReplicaNum.toNat Q →
    IsMajority c'.config.logSyncMemberlist.servers c'.config.logSyncReplicaNum.toNat Q' →
    ∃ a, a ∈ Q ∧ a ∈ Q'
  complete : ∀ l n k l' n' k', c.config.convertToCompleteConfig = .ok (l, n, k) →
    c'.config.convertToCompleteConfig = .ok (l', n', k') → ∀ Q Q' : Finset Addr,
    IsMajority l.servers n.toNat Q → IsMajority l'.servers n'.toNat Q' → ∃ a, a ∈ Q ∧ a ∈ Q'

/-- Every change made on the leader that the check accepts on the replica `self` is safe, whichever
proposal id the new configuration is generated with. -/
def ChangesAreSafe (self : Addr) (c : LogConfigInfoV2) : Prop :=
  ∀ (args : LogConfigChangeArgs) (env : ConfigEnv) (now proposalId : ℤ) (c' : LogConfigInfoV2),
    env.self = self → needExecOnLeader args.type = true →
    checkConfigChangeArgs args env c = .ok false →
    generateNewConfigInfo args now proposalId c = .ok c' → SafeChange c c'

/-! ## The steps of a change -/

theorem not_remove_of_add {t : LogConfigChangeType} (h : t.isAddLogSyncMemberList = true) :
    t.isRemoveLogSyncMemberList = false := by
  cases t <;> first | rfl | cases h

theorem addLogSyncMember_cases {l l'} (h : addLogSyncMember args l = .ok l') :
    args.type.isAddLogSyncMemberList = true ∧ l.addMember args.server.resetMigrating = .ok l' ∨
    args.type.isAddLogSyncMemberList = false ∧ l' = l := by
  unfold addLogSyncMember at h
  split_ifs at h with ht
  · exact .inl ⟨ht, h⟩
  cases h
  exact .inr ⟨by simpa using ht, rfl⟩

theorem removeLogSyncMember_cases {l l' d d'} (h : removeLogSyncMember args l d = .ok (l', d')) :
    args.type.isRemoveLogSyncMemberList = true ∧ l.removeServer args.server.server = .ok l' ∨
    l' = l := by
  unfold removeLogSyncMember at h
  split_ifs at h with ht hl hd
  · obtain ⟨l₁, hrem, heq⟩ := bind_eq_ok.mp h
    cases heq
    exact .inl ⟨ht, hrem⟩
  · obtain ⟨d₁, -, heq⟩ := bind_eq_ok.mp h
    cases heq
    exact .inr rfl
  · cases h
    exact .inr rfl

section Lists

variable {c c' : LogConfigInfo}

section

variable (h : changeLists args c = .ok c')
include h

/-- A change adds one member to the log-sync list, removes one from it or leaves it alone. The
arbitration member changes on its own only. -/
theorem changeLists_cases : c'.arbitrationMember = newArbitrationMember args c.arbitrationMember ∧
    c'.configVersion = c.configVersion ∧ (args.type.isAddLogSyncMemberList = true ∧
      c.logSyncMemberlist.addMember args.server.resetMigrating = .ok c'.logSyncMemberlist ∨
     args.type.isRemoveLogSyncMemberList = true ∧
      c.logSyncMemberlist.removeServer args.server.server = .ok c'.logSyncMemberlist ∨
     c'.logSyncMemberlist = c.logSyncMemberlist) := by
  simp only [changeLists, bind_eq_ok] at h
  obtain ⟨R, -, l₁, hadd, ⟨l₂, d₂⟩, hrem, ⟨d₃, n₃⟩, -, ⟨d₄, n₄⟩, -, heq⟩ := h
  cases heq
  refine ⟨rfl, rfl, ?_⟩
  rcases addLogSyncMember_cases hadd with ⟨ht, hadd⟩ | ⟨-, rfl⟩
  · rcases removeLogSyncMember_cases hrem with ⟨hr, -⟩ | rfl
    · exact absurd (not_remove_of_add ht) (by simp [hr])
    · exact .inl ⟨ht, hadd⟩
  · rcases removeLogSyncMember_cases hrem with ⟨hr, hrem⟩ | rfl
    · exact .inr (.inl ⟨hr, hrem⟩)
    · exact .inr (.inr rfl)

theorem changeLists_nearby : Nearby c.logSyncMemberlist.servers c'.logSyncMemberlist.servers := by
  obtain ⟨-, -, ⟨-, hadd⟩ | ⟨-, hrem⟩ | heq⟩ := changeLists_cases h
  · refine .inl ⟨fun a ha => (mem_addMember hadd).mpr (.inr ha), ?_⟩
    rw [length_servers, length_servers, length_addMember hadd]
  · refine .inr ⟨fun a ha => mem_removeServer hrem ha, ?_⟩
    rw [length_servers, length_servers, length_removeServer hrem]
  · rw [heq]
    exact Nearby.refl _

theorem changeLists_mem (ha : c.logSyncMemberlist.containsServer a)
    (hne : args.type.isRemoveLogSyncMemberList = true → a ≠ args.server.server) :
    c'.logSyncMemberlist.containsServer a := by
  obtain ⟨-, -, ⟨-, hadd⟩ | ⟨ht, hrem⟩ | heq⟩ := changeLists_cases h
  · exact (mem_addMember hadd).mpr (.inr ha)
  · exact mem_of_removeServer hrem ha (hne ht)
  rw [heq]
  exact ha

/-- The complete list changes by one member at most, since the arbitration member and the log-sync
list do not change together. -/
theorem changeLists_complete_nearby (harb : args.type = .addArbMember →
    ¬ c.arbitrationMember.isValid) : Nearby c.completeServers c'.completeServers := by
  obtain ⟨hmember, -, -⟩ := changeLists_cases h
  by_cases ht : args.type.isArbMemberChangeType = true
  · -- the log-sync list stays, and one of the arbitration members is unset
    have hsync : c'.logSyncMemberlist = c.logSyncMemberlist := by
      obtain ⟨-, -, ⟨hadd, -⟩ | ⟨hrem, -⟩ | heq⟩ := changeLists_cases h
      · revert ht hadd
        cases args.type <;> simp [isArbMemberChangeType, isAddLogSyncMemberList]
      · revert ht hrem
        cases args.type <;> simp [isArbMemberChangeType, isRemoveLogSyncMemberList]
      · exact heq
    have hlen : ∀ c : LogConfigInfo, c.arbServers.length ≤ 1 := by
      intro c
      unfold arbServers
      split_ifs <;> simp
    rw [completeServers, completeServers, hsync]
    refine Nearby.append_right ?_ _
    have hempty : c.arbServers = [] ∨ c'.arbServers = [] := by
      cases hty : args.type <;> simp only [hty, isArbMemberChangeType, Bool.false_eq_true] at ht
      · exact .inl (if_neg (harb hty))
      refine .inr (if_neg ?_)
      rw [hmember, newArbitrationMember, hty]
      show ¬ ObMember.empty.isValid
      decide
    rcases hempty with h₀ | h₀
    · rw [h₀]
      exact .inl ⟨nil_subset _, by simpa using hlen c'⟩
    · rw [h₀]
      exact .inr ⟨nil_subset _, by simpa using hlen c⟩
  · have heq : c'.arbServers = c.arbServers := by
      have : c'.arbitrationMember = c.arbitrationMember := by
        rw [hmember]
        unfold newArbitrationMember
        split
        · next hty => simp [hty, isArbMemberChangeType] at ht
        · next hty => simp [hty, isArbMemberChangeType] at ht
        · rfl
      unfold arbServers
      rw [this]
    rw [completeServers, completeServers, heq]
    exact (changeLists_nearby h).append_left _

end

/-- The version has no part in the change of the lists. -/
theorem changeLists_version (v) : changeLists args { c with configVersion := v } =
    (fun x => { x with configVersion := v }) <$> changeLists args c := by
  simp only [changeLists, map_bind, map_pure]
  rfl

theorem changeLists_congr {v v' x y}
    (hx : changeLists args { c with configVersion := v } = .ok x)
    (hy : changeLists args { c with configVersion := v' } = .ok y) :
    y = { x with configVersion := v' } := by
  rw [changeLists_version] at hx hy
  cases h : changeLists args c <;> rw [h] at hx hy <;> cases hx
  cases hy
  rfl

end Lists

/-! ## The new configuration -/

section Generate

variable {c c' : LogConfigInfoV2}

theorem generateNewConfigInfo_cases (h : generateNewConfigInfo args now proposalId c = .ok c')
    (hforce : args.type ≠ .forceSingleMember) :
    ∃ v, c.config.configVersion.incUpdateVersion proposalId = .ok v ∧
      (args.type = .startWorking ∧ c' = { c with config := { c.config with configVersion := v } } ∨
       args.type ≠ .startWorking ∧ c'.isValid ∧
        changeLists args { c.config with configVersion := v } = .ok c'.config) := by
  unfold generateNewConfigInfo at h
  by_cases harg : proposalId = invalidProposalId ∨ ¬ args.isValid
  · rw [if_pos harg] at h
    cases h
  rw [if_neg harg] at h
  obtain ⟨v, hv, h⟩ := bind_eq_ok.mp h
  refine ⟨v, hv, ?_⟩
  by_cases ht : args.type = .startWorking
  · rw [if_pos ht] at h
    cases h
    exact .inl ⟨ht, rfl⟩
  rw [if_neg ht] at h
  simp only [changeConfigInfo, bind_eq_ok] at h
  obtain ⟨config, hlists, k, -, h⟩ := h
  split_ifs at h with hvalid
  cases h
  refine .inr ⟨ht, hvalid, ?_⟩
  rw [forceSingleMember, if_neg hforce]
  exact hlists

theorem generateNewConfigInfo_congr {now' proposalId' : ℤ} {c''}
    (h : generateNewConfigInfo args now proposalId c = .ok c')
    (h' : generateNewConfigInfo args now' proposalId' c = .ok c'')
    (hforce : args.type ≠ .forceSingleMember) :
    ∃ v, c''.config = { c'.config with configVersion := v } := by
  obtain ⟨v, -, ⟨hs, rfl⟩ | ⟨hs, -, hl⟩⟩ := generateNewConfigInfo_cases h hforce
  · obtain ⟨v', -, ⟨-, rfl⟩ | ⟨hs', -, -⟩⟩ := generateNewConfigInfo_cases h' hforce
    · exact ⟨v', rfl⟩
    · exact absurd hs hs'
  · obtain ⟨v', -, ⟨hs', -⟩ | ⟨-, -, hl'⟩⟩ := generateNewConfigInfo_cases h' hforce
    · exact absurd hs' hs
    · exact ⟨v', changeLists_congr hl hl'⟩

section

variable (h : generateNewConfigInfo args now proposalId c = .ok c')
  (hforce : args.type ≠ .forceSingleMember)
include h hforce

theorem generateNewConfigInfo_valid (hc : c.isValid) :
    c'.isValid ∧ c.config.configVersion < c'.config.configVersion := by
  obtain ⟨v, hv, ⟨-, rfl⟩ | ⟨-, hvalid, hl⟩⟩ := generateNewConfigInfo_cases h hforce
  · have hlt := lt_of_incUpdateVersion hv
    refine ⟨⟨hc.1, ?_, hc.2.2⟩, hlt⟩
    obtain ⟨hm, hu, hpos, hle, -⟩ := hc.2.1
    exact ⟨hm, hu, hpos, hle, isValid_of_incUpdateVersion hv⟩
  · refine ⟨hvalid, ?_⟩
    rw [(changeLists_cases hl).2.1]
    exact lt_of_incUpdateVersion hv

theorem generateNewConfigInfo_nearby (harb : args.type = .addArbMember →
    ¬ c.config.arbitrationMember.isValid) :
    Nearby c.config.logSyncMemberlist.servers c'.config.logSyncMemberlist.servers ∧
    Nearby c.config.completeServers c'.config.completeServers := by
  obtain ⟨v, -, ⟨-, rfl⟩ | ⟨-, -, hl⟩⟩ := generateNewConfigInfo_cases h hforce
  · exact ⟨Nearby.refl _, Nearby.refl _⟩
  have hsync := changeLists_nearby hl
  have hcomplete := changeLists_complete_nearby hl harb
  exact ⟨hsync, hcomplete⟩

theorem generateNewConfigInfo_mem (ha : c.config.logSyncMemberlist.containsServer a)
    (hne : args.type.isRemoveLogSyncMemberList = true → a ≠ args.server.server) :
    c'.config.logSyncMemberlist.containsServer a := by
  obtain ⟨v, -, ⟨-, rfl⟩ | ⟨-, -, hl⟩⟩ := generateNewConfigInfo_cases h hforce
  · exact ha
  · exact changeLists_mem hl ha hne

end

end Generate

/-! ## The check -/

section Check

variable {c c' : LogConfigInfoV2}

theorem checkByType_addArb {l} {n : ℤ} (h : checkByType args c l n = .ok false)
    (ht : args.type = .addArbMember) : ¬ c.config.arbitrationMember.isValid := by
  simp only [checkByType, ht, finishedIf] at h
  split at h
  · cases h
  split at h
  · split at h <;> cases h
  split at h
  · cases h
  next harb => simpa [argsStatus] using harb

theorem checkConfigChangeArgs_cases (h : checkConfigChangeArgs args env c = .ok false) :
    (args.type.isRemoveMemberList = true → env.self ≠ args.server.server) ∧
    (args.type = .addArbMember → ¬ c.config.arbitrationMember.isValid) ∧
    ∃ new, generateNewConfigInfo args env.now env.proposalId c = .ok new ∧
      checkMajority env new.config = .ok false := by
  unfold checkConfigChangeArgs at h
  split at h
  · cases h
  split at h
  · cases h
  next hremove =>
  split at h
  · cases h
  split at h
  · cases h
  obtain ⟨finished, htype, h⟩ := bind_eq_ok.mp h
  split at h
  · cases h
  next hfin =>
  split at h
  · cases h
  obtain ⟨new, hnew, hmaj⟩ := bind_eq_ok.mp h
  refine ⟨fun ht heq => hremove ⟨ht, heq⟩, fun ht => ?_, new, hnew, hmaj⟩
  unfold checkConfigChangeArgsByType at htype
  obtain rfl : finished = false := by simpa using hfin
  cases hexp : c.config.getExpectedPaxosMemberlist with
  | error e => rw [hexp] at htype; cases htype
  | ok p =>
  rw [hexp] at htype
  exact checkByType_addArb htype ht

theorem checkMajority_member {new} (h : checkMajority env new = .ok false)
    (hself : new.logSyncMemberlist.containsServer env.self) :
    canMemberlistMajority new.logSyncMemberlist.memberNumber new.logSyncReplicaNum ∧
    ∃ l n k, new.convertToCompleteConfig = .ok (l, n, k) ∧
      canMemberlistMajority l.memberNumber n := by
  unfold checkMajority at h
  cases hconv : new.convertToCompleteConfig with
  | error e => rw [hconv] at h; cases h
  | ok p =>
  obtain ⟨l, n, k⟩ := p
  rw [hconv] at h
  have hmem : l.containsServer env.self := by
    apply (complete_servers hconv).1.mem_iff.mpr
    exact mem_append.mpr (.inr hself)
  simp only [hmem, hself, not_true_eq_false, or_self, if_false] at h
  split_ifs at h with hmaj
  rw [not_or, not_not, not_not] at hmaj
  exact ⟨hmaj.1, l, n, k, rfl, hmaj.2⟩

end Check

/-! ## Safety on a member -/

section Safety

variable {c c' : LogConfigInfoV2}

theorem pairwise_disjoint_memberLists {c : LogConfigInfo} (h : c.isAllListUnique) :
    (memberLists c).Pairwise List.Disjoint := by
  have hnd := nodup_allServers h
  simp only [allServers, nodup_append', disjoint_append_left] at hnd
  obtain ⟨⟨⟨-, -, hms⟩, -, had, hsd⟩, -, ⟨hal, hsl⟩, hdl⟩ := hnd
  simp only [memberLists, pairwise_cons, mem_cons, not_mem_nil, or_false]
  refine ⟨?_, ?_, ?_, ?_⟩
  · rintro l (rfl | rfl | rfl)
    · exact hms.symm
    · exact hsd
    · exact hsl
  · rintro l (rfl | rfl)
    · exact had
    · exact hal
  · rintro l rfl
    exact hdl
  · simp

theorem length_le_toNat {n : ℕ} {r : ℤ} (h : canMemberlistMajority n r) : n ≤ r.toNat := by
  have := h.1
  omega

/-- **On a member every accepted change is safe.** -/
theorem changesAreSafe_of_member (hc : WellFormed c)
    (hself : c.config.logSyncMemberlist.containsServer a) : ChangesAreSafe a c := by
  intro args env now proposalId c' henv hleader hcheck hgen
  have hforce : args.type ≠ .forceSingleMember := by simpa [needExecOnLeader] using hleader
  obtain ⟨hremove, harb, new, hnew, hmaj⟩ := checkConfigChangeArgs_cases hcheck
  obtain ⟨v, hv⟩ := generateNewConfigInfo_congr hnew hgen hforce
  -- the leader stays in the list, so the majorities have been tested
  have hmem : new.config.logSyncMemberlist.containsServer env.self := by
    refine generateNewConfigInfo_mem hnew hforce (henv ▸ hself) fun ht => hremove ?_
    rw [isRemoveMemberList, ht, Bool.true_or]
  obtain ⟨hsync, hcomplete⟩ := checkMajority_member hmaj hmem
  have hconv : c'.config.convertToCompleteConfig = new.config.convertToCompleteConfig := by
    rw [hv]
    rfl
  obtain ⟨hvalid, hversion⟩ := generateNewConfigInfo_valid hgen hforce hc.valid
  obtain ⟨hnearby, hnearby'⟩ := generateNewConfigInfo_nearby hgen hforce harb
  have hsync' : canMemberlistMajority c'.config.logSyncMemberlist.memberNumber
      c'.config.logSyncReplicaNum := by
    rw [hv]
    exact hsync
  have hwf : WellFormed c' := ⟨hvalid, hsync', by rw [hconv]; exact hcomplete⟩
  refine ⟨hwf, pairwise_disjoint_memberLists hvalid.2.1.2.1, hversion, ?_, ?_⟩
  · intro Q Q' hQ hQ'
    refine hnearby.exists_common ?_ ?_ hQ hQ'
    · rw [length_servers]
      exact length_le_toNat hc.logSync
    · rw [length_servers]
      exact length_le_toNat hsync'
  intro l n k l' n' k' hl hl' Q Q' hQ hQ'
  obtain ⟨l₁, n₁, k₁, hl₁, hmaj₁⟩ := hc.complete
  obtain ⟨l₂, n₂, k₂, hl₂, hmaj₂⟩ := hwf.complete
  cases hl.symm.trans hl₁
  cases hl'.symm.trans hl₂
  -- the lists of the complete configurations, up to their order
  have hperm := (complete_servers hl).1
  have hperm' := (complete_servers hl').1
  refine hnearby'.exists_common ?_ ?_ ⟨fun b hb => hperm.mem_iff.mp (hQ.subset b hb), hQ.card⟩
    ⟨fun b hb => hperm'.mem_iff.mp (hQ'.subset b hb), hQ'.card⟩
  · rw [← hperm.length_eq, length_servers]
    exact length_le_toNat hmaj₁
  · rw [← hperm'.length_eq, length_servers]
    exact length_le_toNat hmaj₂

end Safety

/-! ## Safety on the leader -/

theorem containsServer_of_mayLead {c : LogConfigInfo} (h : mayLead a c) :
    c.logSyncMemberlist.containsServer a := by
  obtain ⟨harb, l, n, halive, hmem⟩ := h
  have hmem := (alivePaxosMembers_ok halive).1.mem_iff.mp hmem
  exact (mem_append.mp hmem).resolve_left harb

/-- The configurations `self` leads with: one with which it came through the tests, and those that
its own changes lead to. -/
inductive Leads (self : Addr) : LogConfigInfoV2 → Prop
  | elected {c} (hc : WellFormed c) (hlead : mayLead self c.config) : Leads self c
  | changed {c c' args env now proposalId} (h : Leads self c) (hself : env.self = self)
    (hleader : needExecOnLeader args.type = true)
    (hcheck : checkConfigChangeArgs args env c = .ok false)
    (hgen : generateNewConfigInfo args now proposalId c = .ok c') : Leads self c'

section Leader

variable {c : LogConfigInfoV2}

theorem Leads.member (h : Leads a c) :
    WellFormed c ∧ c.config.logSyncMemberlist.containsServer a := by
  induction h with
  | elected hc hlead => exact ⟨hc, containsServer_of_mayLead hlead⟩
  | changed _ hself hleader hcheck hgen ih =>
    refine ⟨(changesAreSafe_of_member ih.1 ih.2 _ _ _ _ _ hself hleader hcheck hgen).wellFormed, ?_⟩
    -- the leader does not remove itself
    refine generateNewConfigInfo_mem hgen (by simpa [needExecOnLeader] using hleader) ih.2
      fun ht => hself ▸ (checkConfigChangeArgs_cases hcheck).1 ?_
    rw [isRemoveMemberList, ht, Bool.true_or]

/-- **Reconfiguration keeps majorities intersecting.** On the leader, every change that the check
accepts is safe. -/
theorem changesAreSafe_of_leads (h : Leads a c) : ChangesAreSafe a c :=
  changesAreSafe_of_member h.member.1 h.member.2

end Leader

/-- The members one, two and three, without arbitration member and learners. -/
def trioConfig : LogConfigInfoV2 where
  version := LogConfigInfoV2.logConfigInfoVersion
  config :=
    { logSyncMemberlist := trioList
      logSyncReplicaNum := 3
      arbitrationMember := .empty
      learnerlist := .empty
      degradedLearnerlist := .empty
      configVersion := ⟨1, 0⟩ }
  lockMeta := .unlocked

/-- The arguments that ask for five replicas. -/
def replicaNumArgs : LogConfigChangeArgs where
  server := .empty
  currMemberList := trioList
  currReplicaNum := 3
  newReplicaNum := 5
  configVersion := ⟨invalidProposalId, -1⟩
  lockOwner := invalidConfigChangeLockOwner
  lockType := lockNothing
  type := .changeReplicaNum
  addedList := .empty
  removedList := .empty

theorem trio_change_safe : ∃ c', generateNewConfigInfo replicaNumArgs 0 1 trioConfig = .ok c' ∧
    SafeChange trioConfig c' :=
  ⟨_, rfl, changesAreSafe_of_leads (.elected ⟨by decide, by decide, trioList, 3, .empty,
    rfl, by decide⟩
    ⟨by decide, trioList, 3, rfl, by decide⟩) replicaNumArgs ⟨1, 1, 0, false⟩ 0 1 _ rfl rfl rfl rfl⟩

end OceanBase.Palf
