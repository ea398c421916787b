import OceanBase.Palf.LsnAllocator

/-!
# Groups are cut at 2 MB boundaries

A group grows by the logs that join it. The allocator closes a group that reaches a 2 MB boundary of
its block, and lets no log join one that would get across it. Only the first log of a group may
therefore cross a boundary, and then it stays alone.

## Main results

* `groups_cut`
-/

namespace OceanBase.Palf

open LSNAllocator

/-- A group entry: where its header begins, where it ends, and how many log entries it has. -/
structure Group where
  lsn : ℕ
  endLsn : ℕ
  logs : ℕ

/-- The two LSNs lie in the same block, and there in the same 2 MB. -/
def SameSegment (lsn lsn' : ℕ) : Prop :=
  lsn / palfBlockSize = lsn' / palfBlockSize ∧
    lsn % palfBlockSize / logCutTrigger = lsn' % palfBlockSize / logCutTrigger

/-- The first and the last byte lie in the same segment. -/
def Group.InOneSegment (g : Group) : Prop := SameSegment g.lsn (g.endLsn - 1)

/-- The log with the result `r` begins a group after the padding entry, or joins the last one. -/
def addLog (r : Allocated) (endLsn : ℕ) (groups : List Group) : List Group :=
  if r.isNewGroupLog then ⟨r.lsn + r.paddingLen, endLsn, 1⟩ :: groups
  else groups.modifyHead fun g => ⟨g.lsn, endLsn, g.logs + 1⟩

/-- An allocator and the groups so far, newest first. Padding entries are left out. -/
structure GroupRun where
  alloc : LSNAllocator
  groups : List Group

/-- The operations of an allocator. A call takes LSNs even if it reports an SCN out of range, and
its log counts as if it had been handed out. -/
inductive GroupStep : GroupRun → GroupRun → Prop
  | alloc {s : GroupRun} {x fuel res a'} (h : s.alloc.allocLsnScn x fuel = some (res, a')) :
      GroupStep s ⟨a', if s.alloc.endLsn < a'.endLsn then
        addLog (res.toOption.getD (s.alloc.handOut x (place s.alloc.lsnTsMeta x.size))) a'.endLsn
          s.groups else s.groups⟩
  | tryFreeze {s} : GroupStep s ⟨s.alloc.tryFreeze.2, s.groups⟩
  | tryFreezeByTime {s} : GroupStep s ⟨s.alloc.tryFreezeByTime.2, s.groups⟩
  | incUpdateScnBase {s : GroupRun} {a' refScn}
      (h : s.alloc.incUpdateScnBase refScn = .ok a') : GroupStep s ⟨a', s.groups⟩
  | incUpdateLastLogInfo {s : GroupRun} {a' lsn logId scn}
      (h : s.alloc.incUpdateLastLogInfo lsn logId scn = .ok a') : GroupStep s ⟨a', s.groups⟩
  | truncate {s a' lsn logId scn}
      (h : LSNAllocator.truncate lsn logId scn = .ok a') : GroupStep s ⟨a', s.groups⟩

/-- The allocator from its initialisation on, with its groups. -/
def groupRuns : Machine GroupRun where
  init s := allocator.init s.alloc ∧ s.groups = []
  step := GroupStep

theorem GroupStep.allocatorStep {s s'} (h : GroupStep s s') : AllocatorStep s.alloc s'.alloc := by
  cases h with
  | alloc h => exact .alloc h
  | tryFreeze => exact .tryFreeze
  | tryFreezeByTime => exact .tryFreezeByTime
  | incUpdateScnBase h => exact .incUpdateScnBase h
  | incUpdateLastLogInfo h => exact .incUpdateLastLogInfo h
  | truncate h => exact .truncate h

/-! ## One log -/

variable {m : LSNTsMeta} {size : ℕ}

/-- There are more than `n` bytes behind `lsn` up to the next boundary. -/
def Room (lsn n : ℕ) : Prop :=
  lsn % palfBlockSize + n < palfBlockSize ∧ lsn % palfBlockSize % logCutTrigger + n < logCutTrigger

theorem Room.sameSegment {lsn n} (h : Room lsn n) : SameSegment lsn (lsn + n) := by
  unfold Room palfBlockSize logCutTrigger at h
  unfold SameSegment palfBlockSize logCutTrigger
  omega

/-- **Where a log is put.** One that leaves its group open ends before the next boundary; one that
joins a group may also end on it. -/
theorem place_group_cases (h : CutOk m) (hsize : 0 < size) : (place m size).isNewGroupLog = true ∧
      (place m size).nextLsn =
        m.lsnVal + (place m size).paddingLen + (size + logGroupEntryHeaderSize) ∧
      ((place m size).isNextNeedCut = false →
        Room (m.lsnVal + (place m size).paddingLen) (size + logGroupEntryHeaderSize)) ∨
    (place m size).isNewGroupLog = false ∧ m.isNeedCut = false ∧
      (place m size).nextLsn = m.lsnVal + size ∧ Room m.lsnVal (size - 1) ∧
      ((place m size).isNextNeedCut = false → Room m.lsnVal size) := by
  unfold place
  rcases @aggregate_cases m size h with heq | ⟨hopen, hle, heq⟩
  on_goal 2 => rw [hopen]
  all_goals
    rw [heq]
    dsimp only [newGroup, padded, Placement.nextLsn]
    unfold Room palfBlockSize logCutTrigger logGroupEntryHeaderSize clogFileTailPaddingTrigger at *
    split_ifs
    all_goals simp only [decide_eq_false_iff_not, true_and, false_and, false_or, or_false,
      false_implies, and_true]
    all_goals omega

/-- **The invariant**: groups of several logs are where they should be, and an open group can grow
up to the next boundary. -/
structure GroupsOk (s : GroupRun) : Prop where
  cutOk : CutOk s.alloc.lsnTsMeta
  groups : ∀ g ∈ s.groups, 2 ≤ g.logs → g.InOneSegment
  isOpen : s.alloc.lsnTsMeta.isNeedCut = false →
    ∃ g gs, s.groups = g :: gs ∧ SameSegment g.lsn s.alloc.endLsn

theorem GroupsOk.addLog {s} (h : GroupsOk s) {x} (hsize : 0 < x.size) {a' b : LSNAllocator}
    (hb : b.endLsn = s.alloc.endLsn)
    (hend : a'.endLsn = (place s.alloc.lsnTsMeta x.size).nextLsn)
    (hneed : a'.lsnTsMeta.isNeedCut = (place s.alloc.lsnTsMeta x.size).isNextNeedCut)
    (hcut : CutOk a'.lsnTsMeta) : s.alloc.endLsn < a'.endLsn ∧ GroupsOk ⟨a', addLog
      (b.handOut x (place s.alloc.lsnTsMeta x.size)) a'.endLsn s.groups⟩ := by
  unfold Palf.addLog handOut
  rw [hb]
  rcases place_group_cases h.cutOk hsize with ⟨hnew, hnext, hopen⟩ |
    ⟨hnew, hold, hnext, hroom, hopen⟩
  · rw [hnew, if_pos rfl, hend, hnext]
    change s.alloc.endLsn < s.alloc.endLsn + _ + _ ∧ _
    refine ⟨by omega, hcut, ?_, fun hc => ⟨_, _, rfl, ?_⟩⟩
    · rintro g (_ | ⟨_, hg⟩) hlogs
      · exact absurd hlogs (by simp)
      · exact h.groups g hg hlogs
    · change SameSegment _ a'.endLsn
      rw [hend, hnext]
      exact (hopen (hneed.symm.trans hc)).sameSegment
  obtain ⟨g, gs, hgs, hseg⟩ := h.isOpen hold
  have hgrow : ∀ {n}, Room s.alloc.endLsn n → SameSegment g.lsn (s.alloc.endLsn + n) := fun hr =>
    ⟨hseg.1.trans hr.sameSegment.1, hseg.2.trans hr.sameSegment.2⟩
  rw [hnew, if_neg Bool.false_ne_true, hgs, List.modifyHead_cons, hend, hnext]
  change s.alloc.endLsn < s.alloc.endLsn + _ ∧ _
  refine ⟨by omega, hcut, ?_, fun hc => ⟨_, _, rfl, ?_⟩⟩
  · rintro g' (_ | ⟨_, hg⟩) hlogs
    · have hlast := hgrow hroom
      rwa [← Nat.add_sub_assoc hsize] at hlast
    · exact h.groups g' (hgs ▸ List.mem_cons_of_mem _ hg) hlogs
  · change SameSegment _ a'.endLsn
    rw [hend, hnext]
    exact hgrow (hopen (hneed.symm.trans hc))

/-! ## Runs -/

theorem GroupStep.groupsOk {s s'} (hstep : GroupStep s s') (h : GroupsOk s) : GroupsOk s' := by
  have hcut : CutOk s'.alloc.lsnTsMeta := hstep.allocatorStep.cutOk h.cutOk
  -- an operation that closes the last group
  have hclosed : ∀ {a'}, CutOk a'.lsnTsMeta → a' = s.alloc ∨ a'.lsnTsMeta.isNeedCut = true →
      GroupsOk ⟨a', s.groups⟩ := by
    rintro a' hc (rfl | hneed)
    · exact h
    · exact ⟨hc, h.groups, fun ho => absurd (hneed.symm.trans ho) (by simp)⟩
  cases hstep with
  | @alloc x fuel res a' hcall =>
    -- moving the base changes neither the end of the log nor the group that is open
    rcases allocLsnScn_ind (C := fun b => b.endLsn = s.alloc.endLsn ∧
        b.lsnTsMeta.isNeedCut = s.alloc.lsnTsMeta.isNeedCut) (fun _ hb => hb) ⟨rfl, rfl⟩ hcall with
      ⟨-, -, rfl⟩ | ⟨hx, b, ⟨hend, hneed⟩, -, hpass⟩
    · rw [if_neg (lt_irrefl _)]
      exact h
    have hplace : place b.lsnTsMeta x.size = place s.alloc.lsnTsMeta x.size := by
      unfold endLsn at hend
      unfold place aggregate padded
      rw [hend, hneed]
    rw [hplace] at hpass
    rcases allocPlaced_cases hpass with ⟨-, rfl⟩ | ⟨rfl, rfl, -⟩ | ⟨rfl, rfl, -⟩
    · rw [if_neg (by rw [hend]; exact lt_irrefl _)]
      refine ⟨hcut, h.groups, fun ho => ?_⟩
      rw [hend]
      exact h.isOpen (hneed.symm.trans ho)
    · obtain ⟨hlt, hok⟩ := h.addLog (b := s.alloc) hx.1 rfl rfl rfl hcut
      rw [if_pos hlt]
      exact hok
    · obtain ⟨hlt, hok⟩ := h.addLog hx.1 hend rfl rfl hcut
      rw [if_pos hlt]
      exact hok
  | tryFreeze => exact (tryFreeze_keeps (P := fun a => GroupsOk ⟨a, s.groups⟩) h
      (hclosed (.inl rfl) (.inr rfl))).1
  | tryFreezeByTime => exact (tryFreeze_keeps (P := fun a => GroupsOk ⟨a, s.groups⟩) h
      (hclosed (.inl rfl) (.inr rfl))).2
  | incUpdateScnBase hcall => exact hclosed hcut (incUpdateScnBase_isNeedCut hcall)
  | incUpdateLastLogInfo hcall => exact hclosed hcut (incUpdateLastLogInfo_isNeedCut hcall)
  | truncate hcall => exact hclosed hcut (.inr (by rw [truncate_eq_ok hcall]))

theorem groupRuns_groupsOk {s} (h : groupRuns.Reachable s) : GroupsOk s := by
  refine h.of_keeps ?_ fun _ _ hs hstep => GroupStep.groupsOk hstep hs
  rintro ⟨a, groups⟩ ⟨⟨logId, scn, startLsn, ha⟩, rfl⟩
  obtain rfl := (init_eq_ok (a := a) ha).1
  exact ⟨.inl rfl, List.forall_mem_nil _, fun ho => absurd ho (by simp)⟩

/-- **Groups are cut at 2 MB boundaries**: in every state of an allocator an open group does not end
on a 2 MB boundary of its block; and in every run a group of two or more logs lies, with its header,
within one segment of 2 MB. -/
theorem groups_cut : (∀ a, allocator.Reachable a → a.lsnTsMeta.isNeedCut = false →
      a.endLsn % palfBlockSize % logCutTrigger ≠ 0) ∧
    ∀ s, groupRuns.Reachable s → ∀ g ∈ s.groups, 2 ≤ g.logs → g.InOneSegment := by
  refine ⟨fun a ha hopen => ?_, fun s hs => (groupRuns_groupsOk hs).groups⟩
  exact (allocator_cutOk ha).resolve_left (by simp [hopen])

theorem groups_cut_two :
    ∃ s, groupRuns.Reachable s ∧ ∃ g ∈ s.groups, g.logs = 2 ∧ g.endLsn = 256 ∧ g.InOneSegment := by
  have h₀ : groupRuns.Reachable ⟨⟨⟨true, 0, 0, 0⟩, 0, 0⟩, []⟩ := .init ⟨⟨0, 0, 0, rfl⟩, rfl⟩
  have h₁ := h₀.step (GroupStep.alloc (show LSNAllocator.allocLsnScn ⟨7, 100, 100, 2 ^ 40⟩
    ⟨⟨true, 0, 0, 0⟩, 0, 0⟩ 1 = some (.ok ⟨0, 1, 7, true, false, 0⟩, ⟨⟨false, 1, 7, 156⟩, 0, 0⟩) by
      decide +kernel))
  have h₂ := h₁.step (GroupStep.alloc (show LSNAllocator.allocLsnScn ⟨9, 100, 100, 2 ^ 40⟩
    ⟨⟨false, 1, 7, 156⟩, 0, 0⟩ 1 = some (.ok ⟨156, 1, 9, false, false, 0⟩,
      ⟨⟨false, 1, 9, 256⟩, 0, 0⟩) by decide +kernel))
  exact ⟨_, h₂, ⟨0, 256, 2⟩, .head _, rfl, rfl, groups_cut.2 _ h₂ _ (.head _) le_rfl⟩

end OceanBase.Palf
