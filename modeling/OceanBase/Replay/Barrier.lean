import OceanBase.Replay.Queues

/-!
# Parallel replay respects the barriers

The reference count of a pre barrier log is the number of queues whose worker has not yet met its
copy, whether that copy is pushed or still to come. The worker of the log's own queue goes on only
when it is the last one, and then every other worker is past the log, so it is past every earlier
log too. A post barrier log keeps `post_barrier_lsn_` set from before its push until after its
replay, and no later log passes the submission check in between.

With both, no barrier check can report an error, and the order of the successful replays is as the
barriers ask.

## Main results

* `replay_respects_barriers`
* `submitted_replayed_or_queued`
-/

namespace OceanBase.Replay

open Palf Function ReplayEntry

/-- The post barrier of the current log is set, if it has one. -/
def SubmitPc.Marked : SubmitPc → Prop
  | .push _ _ => True
  | .update => True
  | .halt => True
  | _ => False

/-- The current log has passed the submission check. -/
def SubmitPc.Passed : SubmitPc → Prop
  | .mark _ => True
  | .push _ _ => True
  | .update => True
  | .halt => True
  | _ => False

theorem SubmitPc.Marked.passed {pc : SubmitPc} (h : pc.Marked) : pc.Passed := by
  cases pc <;> trivial

namespace ReplayState

variable {L : ReplayLog} {s s' : ReplayState} {i j : ℕ} {e : ReplayEntry} {q : QueueIdx}
  {t : ObLogReplayTask} {rest : List ObLogReplayTask}

/-! ## Pre barriers -/

/-- The submit task works on the current log. -/
def Held (s : ReplayState) : Prop := s.submit ≠ .fetch ∧ s.submit ≠ .next

/-- The queues whose worker has not met the copy of the log. -/
def waiting (s : ReplayState) (j : ℕ) : Set QueueIdx := {q | ¬ s.Dec q j}

/-- **The reference counts.** -/
structure PreInv (L : ReplayLog) (s : ReplayState) : Prop where
  ref : ∀ j e, L.Needs j e → e.needPreReplayBarrier = true → j < s.cur ∨ j = s.cur ∧ s.Held →
    ¬ s.Done e.queueIdx j → s.replayLogBuf j = some ((s.waiting j).ncard : ℤ)
  last : ∀ j e q, L.Needs j e → e.needPreReplayBarrier = true → s.Dec e.queueIdx j → s.Dec q j

theorem PreInv.init (L : ReplayLog) (v : Bool) : PreInv L (ReplayState.init L v) where
  ref := by simp [ReplayState.init, Held]
  last := by simp [ReplayState.init, Reached]

theorem Done.dec (h : s.Done q j) : s.Dec q j := by
  refine h.imp_right (And.imp_right ?_)
  rintro (hw | hw) <;> rw [hw] <;> decide

theorem waiting_congr (h : ∀ q, s'.Dec q j ↔ s.Dec q j) : s'.waiting j = s.waiting j := by
  ext q
  exact not_congr (h q)

theorem PreInv.of_submit (h : PreInv L s) (hdec : ∀ j q, s'.Dec q j ↔ s.Dec q j)
    (hdone : ∀ j q, s'.Done q j ↔ s.Done q j)
    (hbuf : ∀ j e, L.Needs j e → e.needPreReplayBarrier = true → j < s'.cur ∨ j = s'.cur ∧ s'.Held →
      s'.replayLogBuf j = s.replayLogBuf j ∧ (j < s.cur ∨ j = s.cur ∧ s.Held) ∨
        s'.replayLogBuf j = some ((s.waiting j).ncard : ℤ)) : PreInv L s' where
  ref := by
    intro j e hn hpre hj hnd
    rw [hdone] at hnd
    rw [waiting_congr fun q => hdec j q]
    rcases hbuf j e hn hpre hj with ⟨hbuf, hj⟩ | hbuf
    · rw [hbuf]
      exact h.ref j e hn hpre hj hnd
    · exact hbuf
  last := by
    intro j e q hn hpre hd
    rw [hdec] at hd ⊢
    exact h.last j e q hn hpre hd

variable {w : WorkerPc}

theorem PreInv.of_worker (h : PreInv L s) {q₀}
    (hstep : WorkerStep s s' q₀ w) (hq₀ : s.taskQueues q₀ = t :: rest)
    (hbuf : ∀ j, j ≠ t.serial → s'.replayLogBuf j = s.replayLogBuf j)
    (href : ∀ e, L.Needs t.serial e → e.needPreReplayBarrier = true →
      ¬ s'.Done e.queueIdx t.serial →
      s'.replayLogBuf t.serial = some ((s'.waiting t.serial).ncard : ℤ))
    (hlast : ∀ e q, L.Needs t.serial e → e.needPreReplayBarrier = true →
      s'.Dec e.queueIdx t.serial → s'.Dec q t.serial) : PreInv L s' where
  ref := by
    intro j e hn hpre hj hnd
    by_cases hjt : j = t.serial
    · subst hjt
      exact href e hn hpre hnd
    have hdone : s'.Done e.queueIdx j ↔ s.Done e.queueIdx j :=
      hstep.reached hq₀ fun _ hx => absurd hx hjt
    have hwait : s'.waiting j = s.waiting j :=
      waiting_congr fun q => hstep.reached hq₀ fun _ hx => absurd hx hjt
    rw [hstep.cur, Held, hstep.submit] at hj
    rw [hdone] at hnd
    rw [hbuf j hjt, hwait]
    exact h.ref j e hn hpre hj hnd
  last := by
    intro j e q hn hpre hd
    by_cases hjt : j = t.serial
    · subst hjt
      exact hlast e q hn hpre hd
    have hdec : ∀ q, s'.Dec q j ↔ s.Dec q j :=
      fun q => hstep.reached hq₀ fun _ hx => absurd hx hjt
    rw [hdec] at hd ⊢
    exact h.last j e q hn hpre hd

theorem QueueInv.head (h : QueueInv L s) (hq : s.taskQueues q = t :: rest) :
    ∃ e, L.Needs t.serial e ∧ t = e.toTask t.serial ∧ s.popped q ≤ t.serial ∧
      (t.serial < s.cur ∨ t.serial = s.cur ∧ s.CurPushed q) := by
  have hmem : t ∈ s.taskQueues q := by simp [hq]
  obtain ⟨e, hn, ht⟩ := h.entry q t hmem
  obtain ⟨hp, -, -, -, hj⟩ := h.pushed hmem
  exact ⟨e, hn, ht, hp, hj⟩

theorem CurPushed.held (h : s.CurPushed q) : s.Held := by
  unfold CurPushed at h
  constructor <;> intro hs <;> simp [hs] at h

/-- **The count at the head.** An idle worker that meets a pre barrier log is one of the workers
the count waits for. -/
theorem PreInv.ref_head (h : PreInv L s) (hQ : QueueInv L s) (hw : s.worker q = .idle)
    (hq : s.taskQueues q = t :: rest) (hpre : t.isPreBarrier = true) :
    s.replayLogBuf t.serial = some ((s.waiting t.serial).ncard : ℤ) ∧
      q ∈ s.waiting t.serial ∧ t.queueIdx ∈ s.waiting t.serial := by
  obtain ⟨e, hn, ht, hp, hj⟩ := hQ.head hq
  rw [ht, toTask_isPreBarrier] at hpre
  have hidle : ¬ s.Dec q t.serial := by
    rw [Dec, reached_head hq hp, hw]
    exact not_not.mpr rfl
  -- the own worker cannot be past a log that another worker has not met
  have hown : ¬ s.Dec e.queueIdx t.serial := fun hd => hidle (h.last _ e q hn hpre hd)
  refine ⟨h.ref _ e hn hpre (hj.imp_right fun hx => ⟨hx.1, hx.2.held⟩) fun hd => hown hd.dec,
    hidle, ?_⟩
  rw [ht, toTask_queueIdx]
  exact hown

theorem WorkerStep.waiting_eq {q₀} (hstep : WorkerStep s s' q₀ w)
    (hq₀ : s.taskQueues q₀ = t :: rest) (hp₀ : s.popped q₀ ≤ t.serial) (hw₀ : w ≠ .idle) :
    s'.waiting t.serial = s.waiting t.serial \ {q₀} := by
  ext q
  by_cases hqq : q = q₀
  · subst hqq
    have hdec : s'.Dec q t.serial := (hstep.reached_head hq₀ hp₀).mpr hw₀
    simp [waiting, hdec]
  · have hdec : s'.Dec q t.serial ↔ s.Dec q t.serial :=
      hstep.reached hq₀ fun hx => absurd hx hqq
    simp [waiting, hdec, hqq]

section

variable (h : PreInv L s) (hQ : QueueInv L s)
include h hQ

theorem PreInv.of_checkCopy (hstep : WorkerStep s s' q .pop)
    (hw : s.worker q = .idle) (hq : s.taskQueues q = t :: rest) (hpre : t.isPreBarrier = true)
    (hown : t.queueIdx ≠ q) {ref} (href : s.replayLogBuf t.serial = some ref)
    (hbuf : s'.replayLogBuf = update s.replayLogBuf t.serial (some (ref - 1))) : PreInv L s' := by
  obtain ⟨e, hn, ht, hpop, -⟩ := hQ.head hq
  obtain ⟨hcount, hmem, hmem'⟩ := h.ref_head hQ hw hq hpre
  obtain rfl := Option.some.inj (href.symm.trans hcount)
  have hidx : e.queueIdx = t.queueIdx := by
    rw [ht]
    rfl
  refine h.of_worker hstep hq ?_ ?_ ?_
  · intro j hj
    rw [hbuf, update_of_ne hj]
  · intro e' hn' _ _
    rw [hbuf, update_self, hstep.waiting_eq hq hpop (by decide),
      ← Set.ncard_sdiff_singleton_add_one hmem]
    simp
  · intro e' q' hn' _ hd
    -- the own worker still waits for this one
    rw [hn'.eq hn, hidx, Dec, hstep.reached hq fun hx => absurd hx hown] at hd
    exact absurd hd hmem'

theorem PreInv.of_checkOwn (hstep : WorkerStep s s' q .replay) (hw : s.worker q = .idle)
    (hq : s.taskQueues q = t :: rest) (hpre : t.isPreBarrier = true)
    (href : s.replayLogBuf t.serial = some 1)
    (hbuf : s'.replayLogBuf = update s.replayLogBuf t.serial (some 0)) : PreInv L s' := by
  obtain ⟨e, hn, ht, hpop, -⟩ := hQ.head hq
  obtain ⟨hcount, hmem, -⟩ := h.ref_head hQ hw hq hpre
  have hone : (s.waiting t.serial).ncard = 1 := by
    exact_mod_cast (Option.some.inj (href.symm.trans hcount)).symm
  have hnone : s'.waiting t.serial = ∅ := by
    obtain ⟨q₁, hq₁⟩ := Set.ncard_eq_one.mp hone
    rw [hq₁, Set.mem_singleton_iff] at hmem
    rw [hstep.waiting_eq hq hpop (by decide), hq₁, hmem, sdiff_self]
    rfl
  refine h.of_worker hstep hq ?_ ?_ ?_
  · intro j hj
    rw [hbuf, update_of_ne hj]
  · intro e' _ _ _
    rw [hbuf, update_self, hnone, Set.ncard_empty, Nat.cast_zero]
  intro e' q' _ _ _
  by_contra hnd
  exact Set.notMem_empty q' (hnone ▸ hnd)

theorem PreInv.of_replayFail (hstep : WorkerStep s s' q .idle) (hw : s.worker q = .replay)
    (hq : s.taskQueues q = t :: rest) (hbuf : s'.replayLogBuf = if t.isPreBarrier then
        update s.replayLogBuf t.serial ((s.replayLogBuf t.serial).map (· + 1))
      else s.replayLogBuf) : PreInv L s' := by
  obtain ⟨e, hn, ht, hpop, hj⟩ := hQ.head hq
  have hown : e.queueIdx = q := by
    have := hQ.own q t rest hq (.inl hw)
    rwa [ht] at this
  have hidle : ¬ s'.Dec q t.serial := fun hd => (hstep.reached_head hq hpop).mp hd rfl
  refine h.of_worker hstep hq ?_ ?_ ?_
  · intro j hj
    rw [hbuf]
    split_ifs
    · exact update_of_ne hj _ _
    · rfl
  · intro e' hn' hpre' _
    obtain rfl := hn'.eq hn
    have hpre : t.isPreBarrier = true := by
      rw [ht]
      exact hpre'
    have hdec : ∀ q', s.Dec q' t.serial := fun q' =>
      h.last _ _ q' hn' hpre' (by rw [hown, Dec, reached_head hq hpop, hw]; decide)
    have hempty : s.waiting t.serial = ∅ := by
      ext q'
      simp [waiting, hdec q']
    have hcount := h.ref _ _ hn' hpre' (hj.imp_right fun hx => ⟨hx.1, hx.2.held⟩)
      (by rw [hown, Done, reached_head hq hpop, hw]; decide)
    have hback : s'.waiting t.serial = {q} := by
      ext q'
      by_cases hqq : q' = q
      · subst hqq
        exact iff_of_true hidle rfl
      · refine iff_of_false (not_not.mpr ?_) hqq
        exact (hstep.reached hq fun hx => absurd hx hqq).mpr (hdec q')
    rw [hback, hbuf, if_pos hpre, update_self, hcount, hempty]
    simp
  · intro e' q' hn' _ hd
    rw [hn'.eq hn, hown] at hd
    exact absurd hd hidle

theorem PreInv.of_past (hstep : WorkerStep s s' q w)
    (hst : s.worker q = .replay ∨ s.worker q = .finish)
    (hq : s.taskQueues q = t :: rest) (hw : w = .finish ∨ w = .pop)
    (hbuf : ∀ j, j ≠ t.serial → s'.replayLogBuf j = s.replayLogBuf j) : PreInv L s' := by
  obtain ⟨e, hn, ht, hpop, -⟩ := hQ.head hq
  have hown : e.queueIdx = q := by
    have := hQ.own q t rest hq hst
    rwa [ht] at this
  have hdec : ∀ q', s'.Dec q' t.serial ↔ s.Dec q' t.serial := fun q' =>
    hstep.reached hq fun _ _ => by
      rcases hst with hst | hst <;> rcases hw with rfl | rfl <;> simp [hst]
  refine h.of_worker hstep hq hbuf ?_ ?_
  · -- the log is replayed now, so its buffer may be gone
    intro e' hn' hpre hnd
    refine absurd ?_ hnd
    rw [hn'.eq hn, hown]
    exact (hstep.reached_head hq hpop).mpr hw
  · intro e' q' hn' hpre hd
    rw [hdec] at hd ⊢
    exact h.last _ e' q' hn' hpre hd

theorem PreInv.of_pop (hstep : PopStep s s' q t rest)
    (hbuf : s'.replayLogBuf = s.replayLogBuf) : PreInv L s' where
  ref := by
    intro j e hn hpre hj hnd
    rw [hstep.cur, Held, hstep.submit] at hj
    rw [Done, hQ.reached_pop (by decide) (by decide) hstep hn (.inr rfl)] at hnd
    rw [hbuf, waiting_congr fun q =>
      hQ.reached_pop (by decide) (by decide) hstep hn (.inl hpre)]
    exact h.ref j e hn hpre hj hnd
  last := by
    intro j e q hn hpre hd
    rw [Dec, hQ.reached_pop (by decide) (by decide) hstep hn (.inr rfl)] at hd
    rw [Dec, hQ.reached_pop (by decide) (by decide) hstep hn (.inl hpre)]
    exact h.last j e q hn hpre hd

theorem PreInv.move (hs : SubmitInv L s) (hm : Move L s s')
    (hu : s'.unexpected = false) : PreInv L s' := by
  have hsame : ∀ {P : WorkerPc → Prop} {u : ReplayState}, u.taskQueues = s.taskQueues →
      u.worker = s.worker → u.popped = s.popped → ∀ j q, Reached P u q j ↔ Reached P s q j :=
    fun hq hw hp j q => reached_congr (by rw [hq]) (by rw [hw]) (by rw [hp])
  cases hm with
  | next v hpc hscn hle =>
    refine h.of_submit (hsame rfl rfl rfl) (hsame rfl rfl rfl) fun j e _ _ hj => ?_
    exact .inl ⟨rfl, .inl (hj.resolve_right fun hx => hx.2.1 rfl)⟩
  | skip hpc he hn =>
    refine h.of_submit (hsame rfl rfl rfl) (hsame rfl rfl rfl) fun j e hn' _ hj => ?_
    refine .inl ⟨rfl, .inl (hj.resolve_right ?_)⟩
    rintro ⟨rfl, -⟩
    exact hn (Option.some.inj (he.symm.trans hn'.1) ▸ hn')
  | @build e hpc hn =>
    refine h.of_submit (hsame rfl rfl rfl) (hsame rfl rfl rfl) fun j e' hn' hpre hj => ?_
    rcases hj with hj | ⟨rfl, -⟩
    · refine .inl ⟨?_, .inl hj⟩
      dsimp only
      split_ifs
      · exact update_of_ne (ne_of_lt hj) _ _
      · rfl
    -- nobody has met a log that is not pushed
    have hall : s.waiting s.cur = Set.univ := by
      ext q
      exact iff_of_true (hQ.not_reached_cur (not_curPushed_of (.inl hpc) q)) trivial
    right
    dsimp only
    rw [← hn'.eq hn, if_pos hpre, update_self, hall, Set.ncard_univ, Nat.card_fin]
  | @giveUp t hpc =>
    obtain ⟨e, hn, rfl⟩ := hs.task t (by rcases hpc with hpc | hpc <;> rw [hpc] <;> rfl)
    refine h.of_submit (hsame rfl rfl rfl) (hsame rfl rfl rfl) fun j e' _ _ hj => ?_
    have hj : j < s.cur := hj.resolve_right fun hx => hx.2.1 rfl
    refine .inl ⟨?_, .inl hj⟩
    dsimp only [freeTask]
    split_ifs
    · exact update_of_ne (ne_of_lt hj) _ _
    · rfl
  | pass hpc hpost | mark hpc hv | badLsn hpc | badScn hpc =>
    refine h.of_submit (hsame rfl rfl rfl) (hsame rfl rfl rfl) fun j e _ _ hj => ?_
    refine .inl ⟨rfl, hj.imp_right fun hx => ⟨hx.1, ?_⟩⟩
    rw [Held, hpc]
    simp
  | @revoke t hpc hpre =>
    obtain ⟨e, hn, rfl⟩ := hs.task t (by rw [hpc]; rfl)
    obtain ⟨hq, hw, hp, -, hcur, hsub⟩ := revoked_eq s (e.toTask s.cur)
    refine h.of_submit (hsame hq hw hp) (hsame hq hw hp) fun j e' _ _ hj => ?_
    rw [hcur] at hj
    have hj : j < s.cur := hj.resolve_right fun hx => hx.2.1 hsub
    refine .inl ⟨?_, .inl hj⟩
    dsimp only [freeTask, setPostBarrierFinished]
    split_ifs <;> exact update_of_ne (ne_of_lt hj) _ _
  | broadcast hpc hpre hi | push hpc hpre =>
    refine h.of_submit (fun j q => hQ.reached_push (by decide) _ _ rfl rfl rfl)
      (fun j q => hQ.reached_push (by decide) _ _ rfl rfl rfl) fun j e _ _ hj => ?_
    refine .inl ⟨rfl, hj.imp_right fun hx => ⟨hx.1, ?_⟩⟩
    rw [Held, hpc]
    simp
  | updateMeta hpc he =>
    refine h.of_submit (hsame rfl rfl rfl) (hsame rfl rfl rfl) fun j e _ _ hj => ?_
    have hj : j < s.cur + 1 := hj.resolve_right fun hx => hx.2.2 rfl
    refine .inl ⟨rfl, (Nat.lt_succ_iff_lt_or_eq.mp hj).imp_right fun hx => ⟨hx, ?_⟩⟩
    rw [Held, hpc]
    simp
  | @checkPlain q t rest hw hq hpre =>
    obtain ⟨e, hn, ht, -, -⟩ := hQ.head hq
    rw [ht, toTask_isPreBarrier] at hpre
    refine h.of_worker (w := .replay) ⟨rfl, rfl, rfl, rfl, rfl⟩ hq (fun _ _ => rfl) ?_ ?_
    · intro e' hn' hpre'
      rw [hn'.eq hn, hpre] at hpre'
      exact nomatch hpre'
    · intro e' q' hn' hpre'
      rw [hn'.eq hn, hpre] at hpre'
      exact nomatch hpre'
  | checkCopy hw hq hpre hbuf hown href =>
    exact h.of_checkCopy hQ ⟨rfl, rfl, rfl, rfl, rfl⟩ hw hq hpre hown hbuf rfl
  | checkOwn hw hq hpre hbuf hown =>
    exact h.of_checkOwn hQ ⟨rfl, rfl, rfl, rfl, rfl⟩ hw hq hpre hbuf rfl
  | checkError | finishError => exact nomatch hu
  | replayOk hw hq =>
    refine h.of_past hQ ⟨rfl, rfl, rfl, rfl, rfl⟩ (.inl hw) hq (.inl rfl) fun j hj => ?_
    dsimp only
    split_ifs
    · exact update_of_ne hj _ _
    · rfl
  | replayFail hw hq => exact h.of_replayFail hQ ⟨rfl, rfl, rfl, rfl, rfl⟩ hw hq rfl
  | finishPlain hw hq hpost | finishPost hw hq hpost hlsn =>
    exact h.of_past hQ ⟨rfl, rfl, rfl, rfl, rfl⟩ (.inr hw) hq (.inr rfl) fun _ _ => rfl
  | pop hw hq => exact h.of_pop hQ ⟨hw, hq, rfl, rfl, rfl, rfl, rfl⟩ rfl

end

/-! ## Post barriers -/

/-- **The post barrier.** While a post barrier log is submitted and its barrier not lifted, its
LSN stands in `post_barrier_lsn_`, and no later log has passed the submission check. -/
structure PostInv (L : ReplayLog) (s : ReplayState) : Prop where
  lsn : ∀ j e, L.Needs j e → e.needPostReplayBarrier = true →
    j < s.cur ∨ j = s.cur ∧ s.submit.Marked → ¬ s.Finished e.queueIdx j →
    s.postBarrierLsn = e.lsn
  alone : ∀ j e, L.Needs j e → e.needPostReplayBarrier = true →
    j < s.cur ∨ j = s.cur ∧ s.submit.Marked → ¬ s.Finished e.queueIdx j →
    ∀ i e', L.Needs i e' → j < i → ¬ (i < s.cur ∨ i = s.cur ∧ s.submit.Passed)

theorem PostInv.init (L : ReplayLog) (v : Bool) : PostInv L (ReplayState.init L v) where
  lsn := by simp [ReplayState.init, SubmitPc.Marked]
  alone := by simp [ReplayState.init, SubmitPc.Marked]

section

variable (h : PostInv L s)
include h

/-- A post barrier that is not lifted keeps all later logs from passing, so a log that has passed
has none before it. -/
theorem PostInv.finished (hn : L.Needs j e)
    (hpost : e.needPostReplayBarrier = true) {e'} (hn' : L.Needs i e') (hji : j < i)
    (hi : i < s.cur ∨ i = s.cur ∧ s.submit.Passed) : s.Finished e.queueIdx j := by
  by_contra hnf
  have hj : j < s.cur := by omega
  exact h.alone j e hn hpost (.inl hj) hnf i e' hn' hji hi

theorem PostInv.of_same (hlsn : s'.postBarrierLsn = s.postBarrierLsn)
    (hfin : ∀ j e, L.Needs j e → s.Finished e.queueIdx j → s'.Finished e.queueIdx j)
    (hmark : ∀ j e, L.Needs j e → j < s'.cur ∨ j = s'.cur ∧ s'.submit.Marked →
      j < s.cur ∨ j = s.cur ∧ s.submit.Marked)
    (hpass : ∀ j e, L.Needs j e → j < s'.cur ∨ j = s'.cur ∧ s'.submit.Passed →
      j < s.cur ∨ j = s.cur ∧ s.submit.Passed) : PostInv L s' where
  lsn := by
    intro j e hn hpost hj hnf
    rw [hlsn]
    exact h.lsn j e hn hpost (hmark j e hn hj) (mt (hfin j e hn) hnf)
  alone := by
    intro j e hn hpost hj hnf i e' hn' hji hi
    exact h.alone j e hn hpost (hmark j e hn hj) (mt (hfin j e hn) hnf) i e' hn' hji
      (hpass i e' hn' hi)

theorem PostInv.of_worker (hstep : WorkerStep s s' q w)
    (hq : s.taskQueues q = t :: rest) (hlsn : s'.postBarrierLsn = s.postBarrierLsn)
    (hw : s.worker q ≠ .pop) : PostInv L s' := by
  refine h.of_same hlsn ?_ ?_ ?_
  · rintro j e hn (hlt | ⟨hhead, hpop⟩)
    · exact .inl (by rw [hstep.popped]; exact hlt)
    have hne : e.queueIdx ≠ q := by
      rintro rfl
      exact hw hpop
    refine .inr ⟨by rw [hstep.taskQueues]; exact hhead, ?_⟩
    rw [hstep.worker, update_of_ne hne]
    exact hpop
  all_goals
    intro j e _ hj
    rwa [hstep.cur, hstep.submit] at hj

theorem PostInv.of_passed (hn : L.Needs s.cur e) (hp : s.submit.Passed)
    (hcur : s'.cur = s.cur) (hfin : ∀ j q, s.Finished q j → s'.Finished q j)
    (hlsn : s'.submit.Marked → e.needPostReplayBarrier = true → s'.postBarrierLsn = e.lsn) :
    PostInv L s' := by
  -- the only log whose barrier can be in force is the current one
  have hself : ∀ j e', L.Needs j e' → e'.needPostReplayBarrier = true →
      j < s'.cur ∨ j = s'.cur ∧ s'.submit.Marked → ¬ s'.Finished e'.queueIdx j →
      j = s.cur ∧ s'.submit.Marked := by
    intro j e' hn' hpost hj hnf
    rw [hcur] at hj
    refine hj.resolve_left fun hlt => ?_
    exact hnf (hfin j _ (h.finished hn' hpost hn hlt (.inr ⟨rfl, hp⟩)))
  refine ⟨?_, ?_⟩
  · intro j e' hn' hpost hj hnf
    obtain ⟨rfl, hm⟩ := hself j e' hn' hpost hj hnf
    rw [hn'.eq hn] at hpost ⊢
    exact hlsn hm hpost
  · intro j e' hn' hpost hj hnf i e'' _ hji hi
    obtain ⟨rfl, hm⟩ := hself j e' hn' hpost hj hnf
    rw [hcur] at hi
    omega

end

theorem CurPushed.marked (h : s.CurPushed q) : s.submit.Marked := by
  unfold CurPushed at h
  split at h <;> simp_all [SubmitPc.Marked]

section

variable (h : PostInv L s) (hQ : QueueInv L s)
include h hQ

theorem PostInv.of_finishPost (hstep : WorkerStep s s' q .pop) (hw : s.worker q = .finish)
    (hq : s.taskQueues q = t :: rest) (hpost : t.isPostBarrier = true) : PostInv L s' := by
  obtain ⟨e, hn, ht, hpop, hj⟩ := hQ.head hq
  rw [ht, toTask_isPostBarrier] at hpost
  have hown : e.queueIdx = q := by
    have := hQ.own q t rest hq (.inr hw)
    rwa [ht] at this
  have hmark : t.serial < s.cur ∨ t.serial = s.cur ∧ s.submit.Marked :=
    hj.imp_right fun hx => ⟨hx.1, hx.2.marked⟩
  have hnf : ¬ s.Finished e.queueIdx t.serial := by
    rw [hown, Finished, reached_head hq hpop, hw]
    decide
  -- two barriers in force would exclude each other
  have hall : ∀ j e', L.Needs j e' → e'.needPostReplayBarrier = true →
      j < s'.cur ∨ j = s'.cur ∧ s'.submit.Marked → s'.Finished e'.queueIdx j := by
    intro j e' hn' hpost' hj'
    rw [hstep.cur, hstep.submit] at hj'
    by_cases hjt : j = t.serial
    · subst hjt
      rw [hn'.eq hn, hown]
      exact (hstep.reached_head hq hpop).mpr rfl
    rw [Finished, hstep.reached hq fun _ hx => absurd hx hjt]
    rcases lt_or_gt_of_ne hjt with hlt | hgt
    · exact h.finished hn' hpost' hn hlt (hmark.imp_right fun hx => ⟨hx.1, hx.2.passed⟩)
    exact absurd (hj'.imp_right fun hx => ⟨hx.1, hx.2.passed⟩)
      (h.alone _ e hn hpost hmark hnf j e' hn' hgt)
  refine ⟨?_, ?_⟩
  all_goals
    intro j e' hn' hpost' hj' hnf'
    exact absurd (hall j e' hn' hpost' hj') hnf'

theorem PostInv.of_pop (hstep : PopStep s s' q t rest)
    (hlsn : s'.postBarrierLsn = s.postBarrierLsn) : PostInv L s' := by
  refine h.of_same hlsn ?_ ?_ ?_
  · intro j e hn hf
    exact Iff.mpr (hQ.reached_pop (by decide) rfl hstep hn (.inr rfl)) hf
  all_goals
    intro j e _ hj
    rwa [hstep.cur, hstep.submit] at hj

theorem PostInv.move (hs : SubmitInv L s)
    (hm : Move L s s') (hu : s'.unexpected = false) : PostInv L s' := by
  cases hm with
  | next v hpc hscn hle | build hpc hn | giveUp hpc =>
    exact h.of_same rfl (fun _ _ _ hf => hf) (fun j e _ hj => .inl (hj.resolve_right (·.2)))
      fun j e _ hj => .inl (hj.resolve_right (·.2))
  | skip hpc he hn =>
    -- the log that is passed over is not one of those the barriers are about
    have hcur : ∀ j e', L.Needs j e' → j ≠ s.cur := by
      rintro j e' hn' rfl
      exact hn (Option.some.inj (he.symm.trans hn'.1) ▸ hn')
    exact h.of_same rfl (fun _ _ _ hf => hf)
      (fun j e hn' hj => .inl (hj.resolve_right fun hx => hcur j e hn' hx.1))
      fun j e hn' hj => .inl (hj.resolve_right fun hx => hcur j e hn' hx.1)
  | @pass t hpc hpost =>
    -- no post barrier is in force, since `post_barrier_lsn_` is invalid
    have hnone : ∀ j e', L.Needs j e' → e'.needPostReplayBarrier = true → j < s.cur →
        s.Finished e'.queueIdx j := by
      intro j e' hn' hpost' hj
      by_contra hnf
      have hlsn := h.lsn j e' hn' hpost' (.inl hj) hnf
      exact (L.valid e' (List.mem_of_getElem? hn'.1)).1 (hlsn.symm.trans hpost)
    refine ⟨?_, ?_⟩
    all_goals
      intro j e' hn' hpost' hj hnf
      exact absurd (hnone j e' hn' hpost' (hj.resolve_right (·.2))) hnf
  | @mark t hpc hv =>
    obtain ⟨e, hn, rfl⟩ := hs.task t (by rw [hpc]; rfl)
    refine h.of_passed hn (by rw [hpc]; trivial) rfl (fun _ _ hf => hf) ?_
    intro _ hpost
    exact if_pos hpost
  | @revoke t hpc hpre =>
    obtain ⟨e, hn, rfl⟩ := hs.task t (by rw [hpc]; rfl)
    obtain ⟨hq, hw, hp, -, hcur, hsub⟩ := revoked_eq s (e.toTask s.cur)
    refine h.of_passed hn (by rw [hpc]; trivial) hcur ?_ ?_
    · intro j e' hf
      exact (reached_congr (by rw [hq]) (by rw [hw]) (by rw [hp])).mpr hf
    intro hm
    rw [hsub] at hm
    exact hm.elim
  | @broadcast t i hpc hpre hi | @push t i hpc hpre =>
    refine h.of_same rfl ?_ ?_ ?_
    · intro j e _ hf
      exact Iff.mpr (hQ.reached_push (by decide) _ _ rfl rfl rfl) hf
    all_goals exact fun j e _ hj => hj.imp_right fun hx => ⟨hx.1, by rw [hpc]; trivial⟩
  | badLsn hpc | badScn hpc =>
    refine h.of_same rfl (fun _ _ _ hf => hf) ?_ ?_
    all_goals exact fun j e _ hj => hj.imp_right fun hx => ⟨hx.1, by rw [hpc]; trivial⟩
  | updateMeta hpc he =>
    have hlt : ∀ {j : ℕ}, j < s.cur + 1 → j < s.cur ∨ j = s.cur := Nat.lt_succ_iff_lt_or_eq.mp
    refine h.of_same rfl (fun _ _ _ hf => hf) ?_ ?_
    all_goals
      intro j e _ hj
      exact (hlt (hj.resolve_right (·.2))).imp_right fun hx => ⟨hx, by rw [hpc]; trivial⟩
  | checkPlain hw hq hpre | checkCopy hw hq hpre hbuf hown href | checkOwn hw hq hpre hbuf hown
    | replayOk hw hq | replayFail hw hq | finishPlain hw hq hpost =>
    exact h.of_worker ⟨rfl, rfl, rfl, rfl, rfl⟩ hq rfl (by rw [hw]; decide)
  | checkError | finishError => exact nomatch hu
  | finishPost hw hq hpost hlsn =>
    exact h.of_finishPost hQ ⟨rfl, rfl, rfl, rfl, rfl⟩ hw hq hpost
  | pop hw hq => exact h.of_pop hQ ⟨hw, hq, rfl, rfl, rfl, rfl, rfl⟩ rfl

end

/-! ## The order of the replays -/

/-- What must have been replayed, and what must not, when a log is replayed in a queue. -/
structure ReplayAllowed (L : ReplayLog) (past : List (ℕ × QueueIdx)) (x : ℕ × QueueIdx) : Prop where
  /-- the queue is the one of the log's hint -/
  own : ∃ e, L.Needs x.1 e ∧ x.2 = e.queueIdx
  /-- the log was not replayed before, in any queue -/
  once : ∀ q, (x.1, q) ∉ past
  /-- the queue has replayed earlier logs only -/
  ordered : ∀ i, (i, x.2) ∈ past → i < x.1
  /-- a pre barrier log comes after all earlier logs -/
  pre : ∀ e, L.Needs x.1 e → e.needPreReplayBarrier = true → ∀ i e', L.Needs i e' → i < x.1 →
    (i, e'.queueIdx) ∈ past
  /-- every log comes after all earlier post barrier logs -/
  post : ∀ i e', L.Needs i e' → e'.needPostReplayBarrier = true → i < x.1 →
    (i, e'.queueIdx) ∈ past

/-- **The invariant of the replay status.** -/
structure ReplayInv (L : ReplayLog) (s : ReplayState) : Prop where
  submit : SubmitInv L s
  queue : QueueInv L s
  pre : PreInv L s
  post : PostInv L s
  unexpected : s.unexpected = false
  history : Justified (ReplayAllowed L) s.replayed

theorem ReplayInv.init (L : ReplayLog) (v : Bool) : ReplayInv L (init L v) where
  submit := .init L v
  queue := .init L v
  pre := .init L v
  post := .init L v
  unexpected := rfl
  history := justified_nil

theorem QueueInv.passed_head (h : QueueInv L s) (hq : s.taskQueues q = t :: rest) :
    t.serial < s.cur ∨ t.serial = s.cur ∧ s.submit.Passed := by
  obtain ⟨-, -, -, -, hj⟩ := h.head hq
  exact hj.imp_right fun hx => ⟨hx.1, hx.2.marked.passed⟩

theorem QueueInv.lt_popped_of_dec (h : QueueInv L s) (hd : s.Dec q j) (hn : L.Needs i e)
    (hgo : e.GoesTo q) (hij : i < j) : i < s.popped q := by
  rcases hd with hlt | ⟨⟨t, rest, hq, rfl⟩, -⟩
  · exact hij.trans hlt
  · exact h.lt_popped hq hn hgo hij

theorem ReplayInv.no_error (h : ReplayInv L s) (hm : Move L s s') : s'.unexpected = false := by
  cases hm with
  | @revoke t hpc hpre =>
    obtain ⟨e, hn, rfl⟩ := h.submit.task t (by rw [hpc]; rfl)
    -- the barrier that is revoked is the one that was set
    have hlsn : e.needPostReplayBarrier = true → s.postBarrierLsn = e.lsn := fun hpost =>
      h.post.lsn s.cur e hn hpost (.inr ⟨rfl, by rw [hpc]; trivial⟩)
        (h.queue.not_reached_cur (not_curPushed_of (.inr (.inr (.inr (.inr ⟨_, hpc⟩)))) _))
    dsimp only [freeTask, setPostBarrierFinished]
    split_ifs with hpost hne
    · exact absurd (hlsn hpost) hne
    · exact h.unexpected
    · exact h.unexpected
  | @checkError q t rest buf hw hq hpre hbuf =>
    obtain ⟨hcount, hmem, hmem'⟩ := h.pre.ref_head h.queue hw hq hpre
    obtain ⟨hown, hle⟩ := hbuf _ hcount
    -- the worker and the one of the log's own queue are two the count waits for
    have hpair : ({t.queueIdx, q} : Set QueueIdx) ⊆ s.waiting t.serial := by
      rintro x (rfl | rfl)
      · exact hmem'
      · exact hmem
    have hcard := Set.ncard_le_ncard hpair (Set.toFinite _)
    rw [Set.ncard_pair hown] at hcard
    omega
  | @finishError q t rest hw hq hpost hlsn =>
    obtain ⟨e, hn, ht, hpop, hj⟩ := h.queue.head hq
    have hown : e.queueIdx = q := by
      have := h.queue.own q t rest hq (.inr hw)
      rwa [ht] at this
    rw [ht, toTask_isPostBarrier] at hpost
    refine absurd ?_ hlsn
    rw [ht]
    refine h.post.lsn _ e hn hpost (hj.imp_right fun hx => ⟨hx.1, hx.2.marked⟩) ?_
    rw [hown, Finished, reached_head hq hpop, hw]
    decide
  | next | skip | build | giveUp | pass | mark | broadcast | push | badLsn | badScn | updateMeta
  | checkPlain | checkCopy | checkOwn | replayOk | replayFail | finishPlain | finishPost | pop =>
    exact h.unexpected

theorem ReplayInv.allowed (h : ReplayInv L s) (hw : s.worker q = .replay)
    (hq : s.taskQueues q = t :: rest) : ReplayAllowed L s.replayed (t.serial, q) := by
  obtain ⟨e, hn, ht, hpop, hj⟩ := h.queue.head hq
  have hown : e.queueIdx = q := by
    have := h.queue.own q t rest hq (.inl hw)
    rwa [ht] at this
  have hnd : ¬ s.Done q t.serial := by
    rw [Done, reached_head hq hpop, hw]
    decide
  refine ⟨⟨e, hn, hown.symm⟩, ?_, ?_, ?_, ?_⟩
  · intro q' hmem
    obtain ⟨e', hn', hown', hd⟩ := (h.queue.replayed _ _).mp hmem
    rw [hn'.eq hn, hown] at hown'
    exact hnd (hown' ▸ hd)
  · intro i hmem
    obtain ⟨-, -, -, hlt | ⟨-, hst⟩⟩ := (h.queue.replayed _ _).mp hmem
    · exact hlt.trans_le hpop
    rw [hw] at hst
    exact absurd hst (by decide)
  · intro e' hn' hpre i e'' hn'' hi
    -- all workers are past the log, hence past every earlier one
    have hdec : s.Dec e''.queueIdx t.serial := by
      apply h.pre.last _ e' _ hn' hpre
      rw [hn'.eq hn, hown, Dec, reached_head hq hpop, hw]
      decide
    exact (h.queue.replayed _ _).mpr
      ⟨e'', hn'', rfl, .inl (h.queue.lt_popped_of_dec hdec hn'' (.inr rfl) hi)⟩
  · intro i e' hn' hpost hi
    have hfin := h.post.finished hn' hpost hn hi (h.queue.passed_head hq)
    exact (h.queue.replayed _ _).mpr
      ⟨e', hn', rfl, hfin.imp_right (And.imp_right .inr)⟩

theorem ReplayInv.move (h : ReplayInv L s) (hm : Move L s s') : ReplayInv L s' where
  submit := h.submit.move hm
  queue := h.queue.move h.submit hm (h.no_error hm)
  pre := h.pre.move h.queue h.submit hm (h.no_error hm)
  post := h.post.move h.queue h.submit hm (h.no_error hm)
  unexpected := h.no_error hm
  history := by
    cases hm with
    | replayOk hw hq => exact justified_concat.mpr ⟨h.history, h.allowed hw hq⟩
    | @revoke t =>
      rw [(revoked_eq s t).2.2.2.1]
      exact h.history
    | next | skip | build | giveUp | pass | mark | broadcast | push | badLsn | badScn
    | updateMeta | checkPlain | checkCopy | checkOwn | checkError | replayFail | finishPlain
    | finishPost | finishError | pop => exact h.history

theorem ReplayInv.of_reachable (h : (replayStatus L).Reachable s) : ReplayInv L s := by
  refine h.of_keeps ?_ ?_
  · rintro s ⟨v, -, rfl⟩
    exact .init L v
  rintro s s' hs ⟨a, ha⟩
  rcases step_move ha with rfl | hm
  · exact hs
  · exact hs.move hm

end ReplayState

open ReplayState in
/-- **Parallel replay respects barriers and queue order.** In every interleaving of submissions,
which may fail and be retried, with the workers' steps, where each replay may fail and be retried:
no barrier check reports `OB_ERR_UNEXPECTED`, and every log is replayed at most once, in the queue
of its hint and in log order there, a pre barrier log after all earlier logs, and every log after
all earlier post barrier logs. -/
theorem replay_respects_barriers (L : ReplayLog) {s : ReplayState}
    (hs : (replayStatus L).Reachable s) :
    s.unexpected = false ∧ Justified (ReplayAllowed L) s.replayed :=
  have h := ReplayInv.of_reachable hs
  ⟨h.unexpected, h.history⟩

/-! ### A run with both barriers -/

/-- A post barrier log, and a pre barrier log after it. -/
def barrierLog : ReplayLog where
  entries := [⟨100, 7, 50, 3, false, true, false⟩, ⟨200, 9, 50, -5, true, false, false⟩]
  baseLsn := 100
  baseScn := 5
  baseLsn_le := by decide
  valid := by decide
  sorted := by decide

open ReplayState in
/-- The second log waits for the first, is met by 31 workers, fails once in its own queue and
is replayed. -/
def barrierRun : List Act :=
  [.fetchLog true, .checkCanSubmit false, .setPostBarrier, .push true, .updateMetaInfo,
    .nextLog true .entry, .fetchLog true, .checkCanSubmit false, .checkHead 3 true,
    .replayHead 3 true, .finishHead 3, .popHead 3, .fetchLog true, .checkCanSubmit false,
    .setPostBarrier] ++ List.replicate 32 (.push true) ++
  ((List.finRange _).eraseIdx 5).map (fun q => .checkHead q true) ++
  [.checkHead 5 true, .replayHead 5 false, .checkHead 5 true, .replayHead 5 true]

theorem replay_respects_barriers_barrierRun :
    ∃ s, ReplayState.run barrierLog barrierRun (.init barrierLog true) = some s ∧
      s.replayed = [(0, 3), (1, 5)] ∧ s.unexpected = false ∧
      Justified (ReplayState.ReplayAllowed barrierLog) s.replayed := by
  have hrun : ∃ s, ReplayState.run barrierLog barrierRun (.init barrierLog true) = some s ∧
      s.replayed = [(0, 3), (1, 5)] := by
    have h : (ReplayState.run barrierLog barrierRun (.init barrierLog true)).map
        ReplayState.replayed = some [(0, 3), (1, 5)] := by decide +kernel
    exact Option.map_eq_some_iff.mp h
  obtain ⟨s, hs, hr⟩ := hrun
  refine ⟨s, hs, hr, replay_respects_barriers barrierLog ?_⟩
  exact ReplayState.reachable_run (.init ⟨true, by decide, rfl⟩) hs

/-- **No submitted log is lost**: it has been replayed, or it waits in its queue. -/
theorem submitted_replayed_or_queued (L : ReplayLog) {s : ReplayState}
    (hs : (replayStatus L).Reachable s) {j e} (hn : L.Needs j e) (hj : j < s.cur) :
    (j, e.queueIdx) ∈ s.replayed ∨ e.toTask j ∈ s.taskQueues e.queueIdx := by
  have h := (ReplayState.ReplayInv.of_reachable hs).queue
  rcases lt_or_ge j (s.popped e.queueIdx) with hpop | hpop
  · exact .inl ((h.replayed _ _).mpr ⟨e, hn, rfl, .inl hpop⟩)
  obtain ⟨t, ht, rfl⟩ := (h.mem _ j).mpr ⟨hpop, e, hn, .inr rfl, .inl hj⟩
  obtain ⟨e', hn', heq⟩ := h.entry _ t ht
  rw [hn'.eq hn] at heq
  exact .inr (heq ▸ ht)

theorem submitted_barrierRun : ∃ s, (replayStatus barrierLog).Reachable s ∧
    ((0, 3) ∈ s.replayed ∨ barrierLog.entries[0].toTask 0 ∈ s.taskQueues 3) := by
  have h : (ReplayState.run barrierLog (barrierRun.take 6) (.init barrierLog true)).map
      ReplayState.cur = some 1 := by decide +kernel
  obtain ⟨s, hs, hcur⟩ := Option.map_eq_some_iff.mp h
  have hr := ReplayState.reachable_run (.init ⟨true, by decide, rfl⟩) hs
  exact ⟨s, hr, submitted_replayed_or_queued barrierLog hr (e := barrierLog.entries[0])
    ⟨rfl, by decide⟩ (hcur ▸ Nat.one_pos)⟩

end OceanBase.Replay
