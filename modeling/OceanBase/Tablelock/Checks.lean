import OceanBase.Tablelock.Moves

/-!
# The consistency checks of a request

Before a request is compared with the modes that others hold,
`get_exist_lock_mode_without_curr_trans` checks that these modes are possible at all: no count is
negative, and none conflicts with a mode that the transaction holds itself. The list of a
transaction also has its unlock operations, and the check takes them for locks. The lock to be
unlocked is one of the others, in the same mode. So a transaction that unlocks in a mode that
conflicts with itself, or with another lock of the object, gets `OB_ERR_UNEXPECTED` for its next
request. In every other case the check passes.

## Main results

* `lock_mode_check_passes_iff`, `lock_mode_check_fails`
-/

namespace OceanBase.Tablelock

open TableLockOp Records List

variable {H H' : List TableLockOp} {s s' : State} {op : TableLockOp} {dbms : Bool}

theorem LockMode.compatible_comm (m m' : LockMode) : m.compatible m' = m'.compatible m := by
  cases m <;> cases m' <;> rfl

/-- The locks of transactions that can still make requests exclude what others have, also what
others unlock. -/
def Apart (H : List TableLockOp) (s : State) : Prop :=
  ∀ a ∈ H, a.lockOpStatus = .doing → a.opType ≠ .outTransUnlock →
    (s.ctx a.createTransId).phase.isCommit = false →
    ∀ b ∈ H, b.createTransId ≠ a.createTransId → b.lockMode.compatible a.lockMode = true

theorem Apart.anti (hA : Apart H s) (hdoing : ∀ a ∈ H', a.lockOpStatus = .doing → a ∈ H)
    (hmem : ∀ b ∈ H', ∃ b' ∈ H, b'.createTransId = b.createTransId ∧ b'.lockMode = b.lockMode)
    (hphase : ∀ t, (s.ctx t).phase.isCommit = true → (s'.ctx t).phase.isCommit = true) :
    Apart H' s' := by
  intro a ha hd htype hnot b hb hne
  obtain ⟨b', hb', ht, hm⟩ := hmem b hb
  rw [← hm]
  refine hA a (hdoing a ha hd) hd htype ?_ b' hb' (ht ▸ hne)
  exact Bool.eq_false_iff.mpr fun hc => by simp [hphase _ hc] at hnot

theorem Apart.anti_of_mem (hA : Apart H s) (hin : ∀ h ∈ H', h ∈ H)
    (hphase : ∀ t, (s.ctx t).phase.isCommit = true → (s'.ctx t).phase.isCommit = true) :
    Apart H' s' :=
  hA.anti (fun a ha _ => hin a ha) (fun b hb => ⟨b, hin b hb, rfl, rfl⟩) hphase

theorem Base.others_pos (hB : Base H s) {h} (hh : h ∈ H) {t}
    (hne : isDoingOf t h = false) : 0 < s.obj.existLockModeCntWithoutCurrTrans
      (lockModeCntInSameTrans (s.ctx t).lockList) h.lockMode := by
  rw [hB.records.existLockModeCnt]
  have hpos : 0 < H.countP fun x => x.lockMode = h.lockMode && !isDoingOf t x :=
    countP_pos_iff.mpr ⟨h, hh, by simp [hne]⟩
  omega

theorem isDoingOf_of_ne {h : TableLockOp} {t} (hne : h.createTransId ≠ t) :
    isDoingOf t h = false := by
  simp [isDoingOf, hne]

/-- **A granted lock is apart** from what others have: that is what the request was checked for. -/
theorem Apart.grant (hB : Base H s) (hA : Apart H s) (hallow : s.obj.checkAllowLock dbms op
      (lockModeCntInSameTrans (s.ctx op.createTransId).lockList) = .success) :
    Apart (H ++ [op]) { s.record op with granted := s.granted ++ [op] } := by
  have hothers : ∀ h ∈ H, h.createTransId ≠ op.createTransId →
      h.lockMode.compatible op.lockMode = true := by
    intro h hh hne
    have hpos := hB.others_pos hh (isDoingOf_of_ne hne)
    exact (checkAllowLock_success hallow).2 _ (by omega)
  intro a ha hd htype hnot b hb hne
  replace hnot : (s.ctx a.createTransId).phase.isCommit = false := Base.record_phase s op _ ▸ hnot
  simp only [mem_append, mem_singleton] at ha hb
  rcases ha with ha | rfl
  · rcases hb with hb | rfl
    · exact hA a ha hd htype hnot b hb hne
    rw [LockMode.compatible_comm]
    exact hothers a ha hne.symm
  · rcases hb with hb | rfl
    · exact hothers b hb hne
    · exact absurd rfl hne

theorem exists_of_checkOpAllowUnlockLoop {l b}
    (h : checkOpAllowUnlockLoop op l b = .success) :
    b = true ∨ ∃ c ∈ l, c.ownerId = op.ownerId := by
  induction l generalizing b with
  | nil =>
    cases b with
    | true => exact .inl rfl
    | false => cases h
  | cons curr rest ih =>
  by_cases howner : curr.ownerId = op.ownerId
  · exact .inr ⟨curr, mem_cons_self, howner⟩
  rw [checkOpAllowUnlockLoop, if_neg howner] at h
  rcases ih h with hb | ⟨c, hc, hown⟩
  · exact .inl hb
  · exact .inr ⟨c, mem_cons_of_mem _ hc, hown⟩

/-- **An unlock operation is apart** from the locks that its lock is apart from. The transaction of
this lock is about to end, so it is not one of those that can still make requests. -/
theorem Apart.unlock (hB : Base H s) (hA : Apart H s) (htype : op.opType = .outTransUnlock)
    (hallow : checkOpAllowUnlockFromList op (s.obj.map op.lockMode) = .success) :
    Apart (H ++ [op]) (s.record op) := by
  obtain ⟨l, hl, hown⟩ := (exists_of_checkOpAllowUnlockLoop hallow).resolve_left Bool.false_ne_true
  have hcomplete := (checkOpAllowUnlockLoop_success hallow l hl hown).2
  obtain ⟨hlH, -, hmode⟩ := hB.records.mem_map.mp hl
  intro a ha hd hatype hnot b hb hne
  rw [Base.record_phase] at hnot
  simp only [mem_append, mem_singleton] at ha hb
  rcases ha with ha | rfl
  · rcases hb with hb | rfl
    · exact hA a ha hd hatype hnot b hb hne
    rw [← hmode]
    refine hA a ha hd hatype hnot l hlH fun heq => ?_
    have hcommit := (hB.outside l hlH hcomplete).2
    rw [heq, hnot] at hcommit
    cases hcommit
  · exact absurd htype hatype

theorem Apart.move (hB : Base H s) (hA : Apart H s) {a} (hm : Move dbms s a s') :
    ∃ H', Base H' s' ∧ Apart H' s' := by
  cases hm with
  | same => exact ⟨H, hB, hA⟩
  | setPhase t p hok hcommit hpend =>
    exact ⟨H, hB.setPhase t hok hcommit,
      hA.anti_of_mem (fun _ hh => hh) fun _ hc => isCommit_setCtx (c := ⟨_, p⟩) hcommit hc⟩
  | grant op hdoing hrun hlock hnew hallow =>
    obtain ⟨hrecords, houtside, hphases⟩ := hB.record hdoing hrun (hB.key_notMem hrun hnew)
    exact ⟨_, ⟨hrecords, houtside, hphases⟩, hA.grant hB hallow⟩
  | unlock op hdoing hrun htype hnew hallow =>
    exact ⟨_, hB.record hdoing hrun (hB.key_notMem hrun hnew), hA.unlock hB htype hallow⟩
  | remove op p hop hok hcommit hpend =>
    exact ⟨_, hB.remove hop hok hcommit, hA.anti_of_mem (fun _ hh => (mem_del.mp hh).1)
      fun _ hc => isCommit_setCtx (c := ⟨_, p⟩) hcommit hc⟩
  | complete op hop htype =>
    obtain ⟨o', hupdate, hbase⟩ := hB.complete hop htype
    refine ⟨_, hbase, hA.anti ?_ ?_ ?_⟩
    · intro a ha hd
      obtain ⟨a', ha', rfl⟩ := mem_map.mp ha
      rw [(marked_doing hd).2]
      exact ha'
    · intro b hb
      obtain ⟨b', hb', rfl⟩ := mem_map.mp hb
      exact ⟨b', hb', (marked_createTransId op b').symm,
        (key_eq_iff.mp (marked_key op b')).2.2.2.symm⟩
    · intro t hc
      rw [State.complete, hupdate]
      dsimp only
      split <;> exact isCommit_setCtx (fun _ => rfl) hc
  | compactOwn t u n hp =>
    have hphase : Base H (s.setPhase t .committing) := hB.setPhase t trivial fun _ => rfl
    obtain ⟨a, b, hbase, -⟩ := hphase.compactTablelock u false
    exact ⟨_, hbase, hA.anti_of_mem (fun _ hh => (mem_filter.mp hh).1)
      fun _ hc => isCommit_setCtx (c := ⟨_, .committing⟩) (fun _ => rfl) hc⟩
  | compact u f hu hc =>
    obtain ⟨a, b, hbase, -⟩ := hB.compactTablelock u f
    exact ⟨_, hbase, hA.anti_of_mem (fun _ hh => (mem_filter.mp hh).1) fun _ hc => hc⟩
  | drop hempty => exact ⟨H, hB.drop hempty, hA.anti_of_mem (fun _ hh => hh) fun _ hc => hc⟩

theorem exists_apart (hs : (tableLocks dbms).Reachable s) : ∃ H, Base H s ∧ Apart H s := by
  refine hs.of_keeps (I := fun s => ∃ H, Base H s ∧ Apart H s) ?_ ?_
  · rintro s rfl
    exact ⟨[], Base.start, by simp [Apart]⟩
  · rintro s s' ⟨H, hB, hA⟩ ⟨a, hstep⟩
    exact hA.move hB (hB.move_of_step hstep)

/-! ## The checks -/

/-- The object has an operation in the mode that is not one of the transaction: in its list, or
counted and in the list of another transaction. -/
def OthersHave (s : State) (t : ℕ) (m : LockMode) : Prop :=
  (∃ r ∈ s.obj.map m, r ∉ (s.ctx t).lockList) ∨
    ∃ t', t' ≠ t ∧ ∃ r ∈ (s.ctx t').lockList, r.lockMode = m

/-- What the code computes as the others' count is positive exactly if others have an operation in
the mode. -/
theorem Base.others_pos_iff (hB : Base H s) {t m} :
    0 < s.obj.existLockModeCntWithoutCurrTrans (lockModeCntInSameTrans (s.ctx t).lockList) m
      ↔ OthersHave s t m := by
  constructor
  · intro hpos
    rw [hB.records.existLockModeCnt] at hpos
    obtain ⟨h, hh, hp⟩ := countP_pos_iff.mp (Int.natCast_pos.mp hpos)
    simp only [Bool.and_eq_true, decide_eq_true_eq, Bool.not_eq_true'] at hp
    obtain ⟨hm, hnot⟩ := hp
    by_cases hnode : h.needRecordLockOp = true
    · refine .inl ⟨h, hB.records.mem_map.mpr ⟨hh, hnode, hm⟩, fun hmem => ?_⟩
      obtain ⟨-, ht, hd⟩ := hB.records.mem_lockList.mp hmem
      simp [isDoingOf, ht, hd] at hnot
    -- a counted operation is in the list of its transaction
    have hdoing : h.lockOpStatus = .doing := by
      cases hst : h.lockOpStatus with
      | doing => rfl
      | complete =>
        rcases (hB.outside h hh hst).1 with htype | htype
          <;> simp [needRecordLockOp, htype] at hnode
    refine .inr ⟨h.createTransId, fun ht => ?_, h,
      hB.records.mem_lockList.mpr ⟨hh, rfl, hdoing⟩, hm⟩
    simp [isDoingOf, ht, hdoing] at hnot
  · rintro (⟨r, hr, hnot⟩ | ⟨t', hne, r, hr, hm⟩)
    · obtain ⟨hh, -, rfl⟩ := hB.records.mem_map.mp hr
      refine hB.others_pos hh
        (Bool.eq_false_iff.mpr fun hd => hnot (hB.records.mem_lockList.mpr ⟨hh, ?_⟩))
      simpa [isDoingOf] using hd
    · obtain ⟨hh, ht, -⟩ := hB.records.mem_lockList.mp hr
      exact hm ▸ hB.others_pos hh (isDoingOf_of_ne (ht ▸ hne))

theorem mem_othersShouldNotHave {m m'} :
    m' ∈ ObOBJLock.othersShouldNotHave m ↔ m'.compatible m = false := by
  cases m <;> cases m' <;> decide

theorem mem_lockModes (m : LockMode) : m ∈ ObOBJLock.lockModes := by cases m <;> decide

theorem Base.check_iff (hB : Base H s) (t : ℕ) :
    s.obj.existLockModeWithoutCurrTrans (lockModeCntInSameTrans (s.ctx t).lockList) ≠ none ↔
      ∀ op ∈ (s.ctx t).lockList, ∀ m, OthersHave s t m → m.compatible op.lockMode = true := by
  have hneg : ¬ ObOBJLock.lockModes.any (fun m => decide (s.obj.existLockModeCntWithoutCurrTrans
      (lockModeCntInSameTrans (s.ctx t).lockList) m < 0)) = true := by
    simp only [any_eq_true, decide_eq_true_eq, not_exists, not_and]
    intro m _
    rw [hB.records.existLockModeCnt]
    omega
  have hcnt : ∀ m, lockModeCntInSameTrans (s.ctx t).lockList m > 0 ↔
      ∃ op ∈ (s.ctx t).lockList, op.lockMode = m := fun m => by
    simp [lockModeCntInSameTrans, countP_pos_iff]
  simp only [ObOBJLock.existLockModeWithoutCurrTrans, if_neg hneg]
  rw [ne_eq, ite_eq_left_iff, not_forall, exists_prop, and_iff_left (by simp), any_eq_true]
  simp only [Bool.and_eq_true, decide_eq_true_eq, any_eq_true, hcnt, gt_iff_lt, hB.others_pos_iff,
    mem_othersShouldNotHave, not_exists, not_and]
  constructor
  · intro h op hop m hm
    cases hc : m.compatible op.lockMode with
    | true => rfl
    | false => exact absurd hm (h op.lockMode (mem_lockModes _) ⟨op, hop, rfl⟩ m hc)
  · rintro h m - ⟨op, hop, rfl⟩ m' hc hm'
    simp [h op hop m' hm'] at hc

/-- **When the check passes.** In every reachable state, the request of a running transaction gets
past the consistency checks exactly if each unlock operation that the transaction has recorded is in
a mode compatible with everything that others have on the object. -/
theorem lock_mode_check_passes_iff (dbms : Bool) {s : State} (hs : (tableLocks dbms).Reachable s)
    {t : ℕ} (hrun : (s.ctx t).phase.isRunning = true) :
    s.obj.existLockModeWithoutCurrTrans (lockModeCntInSameTrans (s.ctx t).lockList) ≠ none ↔
      ∀ u ∈ (s.ctx t).lockList, u.opType = .outTransUnlock →
        ∀ m, OthersHave s t m → m.compatible u.lockMode = true := by
  obtain ⟨H, hB, hA⟩ := exists_apart hs
  rw [hB.check_iff]
  refine ⟨fun h u hu _ => h u hu, fun h op hop m hm => ?_⟩
  by_cases htype : op.opType = .outTransUnlock
  · exact h op hop htype m hm
  obtain ⟨hopH, ht, hd⟩ := hB.records.mem_lockList.mp hop
  subst ht
  have hpos := hB.others_pos_iff.mpr hm
  rw [hB.records.existLockModeCnt] at hpos
  obtain ⟨b, hb, hp⟩ := countP_pos_iff.mp (Int.natCast_pos.mp hpos)
  simp only [Bool.and_eq_true, decide_eq_true_eq, Bool.not_eq_true'] at hp
  obtain ⟨rfl, hnot⟩ := hp
  refine hA op hopH hd htype (isCommit_of_isRunning hrun) b hb fun heq => ?_
  -- a running transaction has no complete records
  have hdb := hB.doing_of_running hb (heq ▸ hrun)
  simp [isDoingOf, heq, hdb] at hnot

/-- A lock outside of transactions, and a transaction that unlocks it. -/
def unlockRun (m : LockMode) : List Act :=
  [.request 1 m 7 .outTransLock 1 0, .commit 1, .work 1, .work 1,
    .request 2 m 7 .outTransUnlock 1 0]

/-- **The check fails** for a transaction that has recorded an unlock operation and requests a
lock. -/
theorem lock_mode_check_fails : ∃ s : State, State.run false {} (unlockRun .exclusive) = some s ∧
    (tableLocks false).Reachable s ∧ (s.ctx 2).phase.isRunning = true ∧
    s.obj.existLockModeWithoutCurrTrans (lockModeCntInSameTrans (s.ctx 2).lockList) = none ∧
    s.obj.checkAllowLock false (requestOp 2 .rowShare 0 .inTransDmlLock 2 0)
      (lockModeCntInSameTrans (s.ctx 2).lockList) = .errUnexpected := by
  have hrun : (State.run false {} (unlockRun .exclusive)).map (fun s => decide
      ((s.ctx 2).phase.isRunning = true ∧
        s.obj.existLockModeWithoutCurrTrans (lockModeCntInSameTrans (s.ctx 2).lockList) = none ∧
        s.obj.checkAllowLock false (requestOp 2 .rowShare 0 .inTransDmlLock 2 0)
          (lockModeCntInSameTrans (s.ctx 2).lockList) = .errUnexpected)) = some true := by decide
  obtain ⟨s, hs, hfails⟩ := Option.map_eq_some_iff.mp hrun
  exact ⟨s, hs, State.run_reachable (.init rfl) hs, of_decide_eq_true hfails⟩

/-- It passes if the modes are compatible: others have row-share operations only. -/
theorem lock_mode_check_passes_rowShare : ∃ s : State,
    State.run false {} (unlockRun .rowShare) = some s ∧ OthersHave s 2 .rowShare ∧
    (∃ u ∈ (s.ctx 2).lockList, u.opType = .outTransUnlock) ∧
    s.obj.existLockModeWithoutCurrTrans (lockModeCntInSameTrans (s.ctx 2).lockList) ≠ none := by
  let others (s : State) := s.obj.existLockModeCntWithoutCurrTrans
    (lockModeCntInSameTrans (s.ctx 2).lockList)
  have hrun : (State.run false {} (unlockRun .rowShare)).map (fun s => decide
      ((s.ctx 2).phase.isRunning = true ∧ 0 < others s .rowShare ∧
        (∃ u ∈ (s.ctx 2).lockList, u.opType = .outTransUnlock) ∧
        ∀ m ∈ ObOBJLock.lockModes, 0 < others s m → ∀ u ∈ (s.ctx 2).lockList,
          m.compatible u.lockMode = true)) = some true := by decide
  obtain ⟨s, hs, hp⟩ := Option.map_eq_some_iff.mp hrun
  obtain ⟨hphase, hpos, hunlock, hcompat⟩ := of_decide_eq_true hp
  have hr := State.run_reachable (.init rfl) hs
  obtain ⟨H, hB, -⟩ := exists_apart hr
  refine ⟨s, hs, hB.others_pos_iff.mp hpos, hunlock,
    (lock_mode_check_passes_iff false hr hphase).mpr fun u hu _ m hm => ?_⟩
  exact hcompat m (mem_lockModes m) (hB.others_pos_iff.mpr hm) u hu

end OceanBase.Tablelock
