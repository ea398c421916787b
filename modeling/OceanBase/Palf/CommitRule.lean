import OceanBase.Lib.Quorum
import OceanBase.Palf.MemberList

/-!
# The leader's commit rule

A leader keeps in `match_lsn_map_` how far each member has flushed its log, and commits what a
majority has flushed. Around a reconfiguration two member lists count: logs up to the barrier, the
end of the last log submitted before the change, may be committed by the previous or by the current
list, later ones by the current list only.

`get_majority_lsn_` returns the invalid LSN, without an error, for a list of which fewer members
than a majority are in the map. The invalid LSN is the largest one, so the maximum over the two
lists takes it for an answer and the barrier itself is committed. This happens when the removal of
a member leaves the previous list without a majority in the map.

## Main results

* `getMajorityLsn_cases`, `genCommittedEndLsn_covered_iff`
-/

namespace OceanBase.Palf

open Except List

/-! ## The model -/

/-- The part of a configuration that replicates the log. -/
structure LogSyncConfig where
  logSyncMemberlist : ObMemberList
  logSyncReplicaNum : ℕ

/-- The members that make a majority. -/
def LogSyncConfig.quorum (c : LogSyncConfig) : ℕ := c.logSyncReplicaNum / 2 + 1

structure LogReconfigBarrier where
  prevEndLsn : LSN
  prevModePid : ℤ

/-- The state of the leader that the commit rule works on. -/
structure LeaderWindow where
  matchLsnMap : Addr → Option LSN
  committedEndLsn : LSN
  /-- `log_ms_meta_.prev_` and `log_ms_meta_.curr_` -/
  prev : LogSyncConfig
  curr : LogSyncConfig
  reconfigBarrier : LogReconfigBarrier
  /-- the proposal id of the access mode submitted last -/
  lastSubmitModePid : ℤ
  isChangingConfigWithArb : Bool
  isLeaderActive : Bool

/-- The LSNs of those members of the list that are in the map. -/
def matchLsns (map : Addr → Option LSN) (l : ObMemberList) : List LSN := l.servers.filterMap map

/-- `get_majority_lsn_`: members that are not in the map are skipped. With too few members left
the result keeps its initial value and no error is returned. -/
def getMajorityLsn (map : Addr → Option LSN) (c : LogSyncConfig) : Except ObErr LSN :=
  let lsnArray := matchLsns map c.logSyncMemberlist
  if lsnArray.length < c.quorum then .ok invalidLsn
  else
    let resultLsn := (sortDesc lsnArray).getD (c.logSyncReplicaNum / 2) invalidLsn
    if resultLsn = invalidLsn then .error .errUnexpected else .ok resultLsn

namespace LeaderWindow

variable (s : LeaderWindow)

/-- The commit point has not reached the barrier of the last reconfiguration, and the access mode
has not changed since. -/
def isBeforeBarrier : Prop :=
  s.committedEndLsn < s.reconfigBarrier.prevEndLsn ∧ s.reconfigBarrier.prevEndLsn ≠ invalidLsn ∧
    s.lastSubmitModePid = s.reconfigBarrier.prevModePid
  deriving Decidable

/-- `barrier_lsn`, as `get_log_sync_member_list_for_generate_committed_lsn` returns it. -/
def barrierLsn : LSN :=
  if s.isBeforeBarrier then s.reconfigBarrier.prevEndLsn else palfInitialLsn

/-- `try_advance_committed_lsn_`: an invalid LSN is an error of the call, and the commit point
never moves back. -/
def tryAdvanceCommittedLsn (endLsn : LSN) : LeaderWindow :=
  if endLsn = invalidLsn then s
  else if s.committedEndLsn < endLsn then { s with committedEndLsn := endLsn } else s

/-- `gen_committed_end_lsn_`: the new commit point, and the state after it has been handed to
`try_advance_committed_lsn_`. -/
def genCommittedEndLsn : Except ObErr (LSN × LeaderWindow) := do
  let currResultLsn ← getMajorityLsn s.matchLsnMap s.curr
  let prevResultLsn ←
    if s.isBeforeBarrier then getMajorityLsn s.matchLsnMap s.prev else pure invalidLsn
  let resultLsn :=
    if s.isBeforeBarrier then min (max prevResultLsn currResultLsn) s.barrierLsn
    else currResultLsn
  -- with an arbitration member nothing is committed while the configuration changes
  pure (resultLsn, if s.isChangingConfigWithArb then s else s.tryAdvanceCommittedLsn resultLsn)

def genCommittedEndLsnWithMemberlist (c : LogSyncConfig) : LeaderWindow :=
  if c.logSyncMemberlist.isValid ∧ 0 < c.logSyncReplicaNum ∧
      c.logSyncMemberlist.memberNumber ≤ c.logSyncReplicaNum then
    match getMajorityLsn s.matchLsnMap c with
    | .ok resultLsn => s.tryAdvanceCommittedLsn resultLsn
    | .error _ => s
  else s

/-- The part of `config_change_update_match_lsn_map` that changes the map: added members start at
the initial LSN unless they are in the map, removed members leave it. -/
def updateMatchLsnMap (addedMemberlist removedMemberlist : ObMemberList) : LeaderWindow :=
  { s with
    matchLsnMap := fun a =>
      if removedMemberlist.containsServer a then none
      else if addedMemberlist.containsServer a then some ((s.matchLsnMap a).getD palfInitialLsn)
      else s.matchLsnMap a }

def configChangeUpdateMatchLsnMap (addedMemberlist removedMemberlist : ObMemberList)
    (newConfig : LogSyncConfig) : LeaderWindow :=
  let s₁ := s.updateMatchLsnMap addedMemberlist removedMemberlist
  let s₂ := match s₁.genCommittedEndLsn with
    | .ok (_, s') => s'
    | .error _ => s₁
  if s₂.isLeaderActive then s₂.genCommittedEndLsnWithMemberlist newConfig else s₂

end LeaderWindow

/-! ## Majorities that have flushed a log -/

variable {map : Addr → Option LSN} {c : LogSyncConfig} {L v w : LSN} {s : LeaderWindow}

/-- A majority of the configuration has flushed the log up to `v`. -/
def AckedByQuorum (map : Addr → Option LSN) (c : LogSyncConfig) (v : LSN) : Prop :=
  c.quorum ≤ c.logSyncMemberlist.servers.countP fun a => (map a).any fun lsn => decide (v ≤ lsn)
  deriving Decidable

/-- A majority of the configuration is in the map, at whatever LSN. -/
def InMapQuorum (map : Addr → Option LSN) (c : LogSyncConfig) : Prop :=
  c.quorum ≤ c.logSyncMemberlist.servers.countP fun a => (map a).isSome
  deriving Decidable

theorem countP_matchLsns (map : Addr → Option LSN) (l : ObMemberList) (v : LSN) :
    (matchLsns map l).countP (fun lsn => decide (v ≤ lsn)) =
      l.servers.countP fun a => (map a).any fun lsn => decide (v ≤ lsn) := by
  rw [matchLsns, countP_filterMap]
  refine countP_congr fun a _ => ?_
  cases map a <;> simp

theorem length_matchLsns (map : Addr → Option LSN) (l : ObMemberList) :
    (matchLsns map l).length = l.servers.countP fun a => (map a).isSome := by
  rw [matchLsns, length_filterMap_eq_countP]

theorem AckedByQuorum.mono (h : AckedByQuorum map c v) (hw : w ≤ v) : AckedByQuorum map c w := by
  refine h.trans (countP_mono_left fun a _ ha => ?_)
  obtain ⟨lsn, hmap, hle⟩ := (Option.any_eq_true ..).mp ha
  rw [hmap, Option.any_some, decide_eq_true_eq]
  exact hw.trans (of_decide_eq_true hle)

theorem AckedByQuorum.inMap (h : AckedByQuorum map c v) : InMapQuorum map c := by
  refine h.trans (countP_mono_left fun a _ ha => ?_)
  obtain ⟨lsn, hmap, -⟩ := (Option.any_eq_true ..).mp ha
  rw [hmap]
  rfl

/-- **What `get_majority_lsn_` answers.** With too few members in the map it answers with the
invalid LSN. Otherwise a majority has flushed up to `v` exactly for the `v` up to the answer; if
that would be the invalid LSN, the call fails. -/
theorem getMajorityLsn_cases (map : Addr → Option LSN) (c : LogSyncConfig) :
    (¬ InMapQuorum map c ∧ getMajorityLsn map c = .ok invalidLsn) ∨
    (∃ L, InMapQuorum map c ∧ getMajorityLsn map c = .ok L ∧ ∀ v, AckedByQuorum map c v ↔ v ≤ L) ∨
    (AckedByQuorum map c invalidLsn ∧ getMajorityLsn map c = .error .errUnexpected) := by
  have hlen := length_matchLsns map c.logSyncMemberlist
  by_cases hq : InMapQuorum map c
  · -- the element in the middle of the sorted array exists
    have hidx : c.logSyncReplicaNum / 2 <
      (sortDesc (matchLsns map c.logSyncMemberlist)).length := by
      rw [length_sortDesc, hlen]
      exact hq
    have hget := getElem?_eq_getElem hidx
    have hacked : ∀ v, AckedByQuorum map c v ↔
        v ≤ (sortDesc (matchLsns map c.logSyncMemberlist)).get ⟨_, hidx⟩ := by
      intro v
      rw [AckedByQuorum, ← countP_matchLsns]
      exact (le_sortDesc_iff hget).symm
    have heq : getMajorityLsn map c =
        if (sortDesc (matchLsns map c.logSyncMemberlist)).get ⟨_, hidx⟩ = invalidLsn
        then .error .errUnexpected
        else .ok ((sortDesc (matchLsns map c.logSyncMemberlist)).get ⟨_, hidx⟩) := by
      simp only [getMajorityLsn, getD_eq_getElem?_getD, hget, Option.getD_some,
        get_eq_getElem]
      rw [if_neg]
      rw [hlen]
      exact Nat.not_lt.mpr hq
    rw [heq]
    split_ifs with hinv
    · exact .inr (.inr ⟨(hacked _).mpr (by rw [hinv]), rfl⟩)
    · exact .inr (.inl ⟨_, hq, rfl, hacked⟩)
  · refine .inl ⟨hq, ?_⟩
    rw [getMajorityLsn, if_pos]
    rw [hlen]
    exact Nat.lt_of_not_le hq

theorem getMajorityLsn_ok (h : getMajorityLsn map c = .ok L) :
    ¬ InMapQuorum map c ∧ L = invalidLsn ∨
      InMapQuorum map c ∧ ∀ v, AckedByQuorum map c v ↔ v ≤ L := by
  rcases getMajorityLsn_cases map c with ⟨hq, hm⟩ | ⟨L', hq, hm, hv⟩ | ⟨-, hm⟩
  · exact .inl ⟨hq, ok.inj (h.symm.trans hm)⟩
  · obtain rfl : L = L' := ok.inj (h.symm.trans hm)
    exact .inr ⟨hq, hv⟩
  · exact absurd (h.symm.trans hm) (by simp)

theorem acked_of_getMajorityLsn_error {e} (h : getMajorityLsn map c = .error e) :
    AckedByQuorum map c invalidLsn := by
  rcases getMajorityLsn_cases map c with ⟨-, hm⟩ | ⟨L', -, hm, -⟩ | ⟨hq, -⟩
  · exact absurd (h.symm.trans hm) (by simp)
  · exact absurd (h.symm.trans hm) (by simp)
  · exact hq

/-! ## The LSNs that are handed out -/

namespace LeaderWindow

/-- `gen_committed_end_lsn_` hands `L` to `try_advance_committed_lsn_`. -/
def HandsOut (s : LeaderWindow) (L : LSN) : Prop :=
  s.isChangingConfigWithArb = false ∧ ∃ s', s.genCommittedEndLsn = .ok (L, s')

/-- A commit point is covered if a majority of the current list has flushed up to it, or if the
commit point is below the barrier, `L` is not beyond it, and a majority of the previous list has. -/
def Covered (s : LeaderWindow) (L : LSN) : Prop :=
  AckedByQuorum s.matchLsnMap s.curr L ∨
    s.committedEndLsn < s.barrierLsn ∧ L ≤ s.barrierLsn ∧ AckedByQuorum s.matchLsnMap s.prev L
  deriving Decidable

/-- The states in which the commit rule is safe. Before the barrier both lists need a majority in
the map, unless a majority of one of them has flushed up to the barrier already. -/
def CommitSafe (s : LeaderWindow) : Prop :=
  s.isChangingConfigWithArb = true ∨
  if s.isBeforeBarrier then
    InMapQuorum s.matchLsnMap s.curr ∧ InMapQuorum s.matchLsnMap s.prev ∨
    AckedByQuorum s.matchLsnMap s.curr s.barrierLsn ∨
    AckedByQuorum s.matchLsnMap s.prev s.barrierLsn
  else InMapQuorum s.matchLsnMap s.curr
  deriving Decidable

theorem barrierLsn_of_before (hb : s.isBeforeBarrier) :
    s.barrierLsn = s.reconfigBarrier.prevEndLsn := if_pos hb

theorem lt_barrierLsn_iff : s.committedEndLsn < s.barrierLsn ↔ s.isBeforeBarrier := by
  constructor
  · intro h
    by_contra hb
    rw [barrierLsn, if_neg hb] at h
    exact absurd h (not_lt_of_ge (palfInitialLsn_le _))
  · intro hb
    rw [barrierLsn_of_before hb]
    exact hb.1

theorem handsOut_after_iff (hb : ¬ s.isBeforeBarrier) : s.HandsOut L ↔
      s.isChangingConfigWithArb = false ∧ getMajorityLsn s.matchLsnMap s.curr = .ok L := by
  unfold HandsOut genCommittedEndLsn
  cases getMajorityLsn s.matchLsnMap s.curr <;> simp [hb, pure, Except.pure, bind, Except.bind]

theorem handsOut_before_iff (hb : s.isBeforeBarrier) :
    s.HandsOut L ↔ s.isChangingConfigWithArb = false ∧
      ∃ p c, getMajorityLsn s.matchLsnMap s.prev = .ok p ∧
        getMajorityLsn s.matchLsnMap s.curr = .ok c ∧ min (max p c) s.barrierLsn = L := by
  unfold HandsOut genCommittedEndLsn
  cases getMajorityLsn s.matchLsnMap s.curr <;> cases getMajorityLsn s.matchLsnMap s.prev <;>
    simp [hb, pure, Except.pure, bind, Except.bind]

theorem covered_after_iff (hb : ¬ s.isBeforeBarrier) (harb : s.isChangingConfigWithArb = false) :
    (∀ L, s.HandsOut L → s.Covered L) ↔ InMapQuorum s.matchLsnMap s.curr := by
  have hcov : ∀ L, s.Covered L ↔ AckedByQuorum s.matchLsnMap s.curr L := fun L =>
    or_iff_left fun h => hb (lt_barrierLsn_iff.mp h.1)
  simp only [handsOut_after_iff hb, hcov, harb, true_and]
  cases hm : getMajorityLsn s.matchLsnMap s.curr with
  | error e =>
    exact iff_of_true (fun L hL => absurd hL (by simp)) (acked_of_getMajorityLsn_error hm).inMap
  | ok c =>
  simp only [ok.injEq, forall_eq']
  rcases getMajorityLsn_ok hm with ⟨hq, rfl⟩ | ⟨hq, hc⟩
  · -- the invalid LSN is handed out, and nobody has flushed up to it
    exact iff_of_false (fun h => hq h.inMap) hq
  · exact iff_of_true ((hc c).mpr le_rfl) hq

theorem covered_barrier_iff (hb : s.isBeforeBarrier) {p c}
    (hp : getMajorityLsn s.matchLsnMap s.prev = .ok p)
    (hc : getMajorityLsn s.matchLsnMap s.curr = .ok c) (hinv : max p c = invalidLsn)
    (harb : s.isChangingConfigWithArb = false) : (∀ L, s.HandsOut L → s.Covered L) ↔
      AckedByQuorum s.matchLsnMap s.curr s.barrierLsn ∨
      AckedByQuorum s.matchLsnMap s.prev s.barrierLsn := by
  have hout : ∀ L, s.HandsOut L ↔ L = s.barrierLsn := by
    intro L
    rw [handsOut_before_iff hb]
    constructor
    · rintro ⟨-, p', c', hp', hc', rfl⟩
      obtain rfl : p = p' := ok.inj (hp.symm.trans hp')
      obtain rfl : c = c' := ok.inj (hc.symm.trans hc')
      rw [hinv]
      exact min_eq_right (le_invalidLsn _)
    · rintro rfl
      exact ⟨harb, p, c, hp, hc, by rw [hinv]; exact min_eq_right (le_invalidLsn _)⟩
  simp only [hout, forall_eq]
  exact or_congr_right ⟨fun h => h.2.2, fun h => ⟨lt_barrierLsn_iff.mpr hb, le_rfl, h⟩⟩

theorem covered_before_iff (hb : s.isBeforeBarrier) (harb : s.isChangingConfigWithArb = false) :
    (∀ L, s.HandsOut L → s.Covered L) ↔
      InMapQuorum s.matchLsnMap s.curr ∧ InMapQuorum s.matchLsnMap s.prev ∨
      AckedByQuorum s.matchLsnMap s.curr s.barrierLsn ∨
      AckedByQuorum s.matchLsnMap s.prev s.barrierLsn := by
  cases hc : getMajorityLsn s.matchLsnMap s.curr with
  | error e =>
    -- a failed call hands out nothing; a majority has flushed up to the largest LSN there is
    refine iff_of_true (fun L hL => ?_)
      (.inr (.inl ((acked_of_getMajorityLsn_error hc).mono (le_invalidLsn _))))
    obtain ⟨-, p, c, -, hc', -⟩ := (handsOut_before_iff hb).mp hL
    exact absurd (hc.symm.trans hc') (by simp)
  | ok c =>
    cases hp : getMajorityLsn s.matchLsnMap s.prev with
    | error e =>
      refine iff_of_true (fun L hL => ?_)
        (.inr (.inr ((acked_of_getMajorityLsn_error hp).mono (le_invalidLsn _))))
      obtain ⟨-, p, c, hp', -, -⟩ := (handsOut_before_iff hb).mp hL
      exact absurd (hp.symm.trans hp') (by simp)
    | ok p =>
    rcases getMajorityLsn_ok hc with ⟨hqc, rfl⟩ | ⟨hqc, hcv⟩
    · rw [covered_barrier_iff hb hp hc (max_eq_right (le_invalidLsn _)) harb]
      exact (or_iff_right fun h => hqc h.1).symm
    rcases getMajorityLsn_ok hp with ⟨hqp, rfl⟩ | ⟨hqp, hpv⟩
    · rw [covered_barrier_iff hb hp hc (max_eq_left (le_invalidLsn _)) harb]
      exact (or_iff_right fun h => hqp h.2).symm
    refine iff_of_true (fun L hL => ?_) (.inl ⟨hqc, hqp⟩)
    obtain ⟨-, p', c', hp', hc', rfl⟩ := (handsOut_before_iff hb).mp hL
    obtain rfl : p = p' := ok.inj (hp.symm.trans hp')
    obtain rfl : c = c' := ok.inj (hc.symm.trans hc')
    -- the list with the larger majority covers the result
    rcases le_total p c with hle | hle
    · exact .inl ((hcv _).mpr ((min_le_left _ _).trans (max_eq_right hle).le))
    exact .inr ⟨lt_barrierLsn_iff.mpr hb, min_le_right _ _,
      (hpv _).mpr ((min_le_left _ _).trans (max_eq_left hle).le)⟩

/-- **The commit rule across a reconfiguration.** Every LSN that `gen_committed_end_lsn_` hands to
`try_advance_committed_lsn_` is covered exactly in the states described by `CommitSafe`. -/
theorem genCommittedEndLsn_covered_iff (s : LeaderWindow) :
    (∀ L, s.HandsOut L → s.Covered L) ↔ s.CommitSafe := by
  unfold CommitSafe
  cases harb : s.isChangingConfigWithArb with
  | true =>
    refine iff_of_true (fun L hL => ?_) (.inl rfl)
    exact absurd (hL.1.symm.trans harb) (by decide)
  | false =>
  rw [or_iff_right (by decide)]
  split_ifs with hb
  · exact covered_before_iff hb harb
  · exact covered_after_iff hb harb

/-! ## A group of two that removes a member -/

/-- The member lists with the servers one and two, and with the first alone. -/
def pairList : ObMemberList := ⟨[.ofServer 1 0, .ofServer 2 0], by decide, by decide, by decide⟩
def firstList : ObMemberList := ⟨[.ofServer 1 0], by decide, by decide, by decide⟩
def secondList : ObMemberList := ⟨[.ofServer 2 0], by decide, by decide, by decide⟩

/-- The first server leads. Both have flushed up to 50, the leader has submitted logs up to 100,
and the configuration has just changed to the leader alone. -/
def pairWindow : LeaderWindow where
  matchLsnMap a := if a = 1 ∨ a = 2 then some 50 else none
  committedEndLsn := 50
  prev := ⟨pairList, 2⟩
  curr := ⟨firstList, 1⟩
  reconfigBarrier := ⟨100, 1⟩
  lastSubmitModePid := 1
  isChangingConfigWithArb := false
  isLeaderActive := true

/-- Erasing the second server from the map commits the barrier, though nobody has flushed it: not
even the leader itself. -/
theorem removed_member_commits_barrier :
    (pairWindow.updateMatchLsnMap .empty secondList).HandsOut 100 ∧
    ¬ (pairWindow.updateMatchLsnMap .empty secondList).Covered 100 ∧
    (pairWindow.configChangeUpdateMatchLsnMap .empty secondList ⟨firstList, 1⟩).committedEndLsn =
      100 := by
  refine ⟨⟨rfl, _, rfl⟩, ?_, ?_⟩
  · decide
  · decide

end LeaderWindow

end OceanBase.Palf
