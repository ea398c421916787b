import OceanBase.Replay.Status

/-!
# What one step of the replay status can do

The step functions are cut where the program accesses shared data, and most of their branches
leave the shared data alone. `Move` lists the branches that do not, one constructor for each,
with the guard under which the branch is taken and the state it leads to; `step_move` says that
nothing else happens. The invariants are proved over the moves.

## Main results

* `step_move`
-/

namespace OceanBase.Replay

open Palf Function Option

def ReplayEntry.queueIdx (e : ReplayEntry) : QueueIdx := calcReplayQueueIdx e.replayHint.natAbs

/-- The log is pushed to the queue: a pre barrier log goes to all of them. -/
def ReplayEntry.GoesTo (e : ReplayEntry) (q : QueueIdx) : Prop :=
  e.needPreReplayBarrier = true ∨ e.queueIdx = q

/-- The log at position `j` is to be replayed: it is not below the base SCN and not a padding
log. -/
def ReplayLog.Needs (L : ReplayLog) (j : ℕ) (e : ReplayEntry) : Prop :=
  L.entries[j]? = some e ∧ L.baseScn ≤ e.scn ∧ e.isPadding = false

@[simp] theorem ReplayEntry.toTask_isPreBarrier (e : ReplayEntry) (j : ℕ) :
    (e.toTask j).isPreBarrier = e.needPreReplayBarrier := rfl

@[simp] theorem ReplayEntry.toTask_isPostBarrier (e : ReplayEntry) (j : ℕ) :
    (e.toTask j).isPostBarrier = e.needPostReplayBarrier := rfl

@[simp] theorem ReplayEntry.toTask_queueIdx (e : ReplayEntry) (j : ℕ) :
    (e.toTask j).queueIdx = e.queueIdx := rfl

namespace ReplayState

variable {L : ReplayLog} {s s' : ReplayState}

/-- The moves of the submit task and of the workers. -/
inductive Move (L : ReplayLog) (s : ReplayState) : ReplayState → Prop
  | next {scn} (v : Bool) (hpc : s.submit = .next ∨ s.submit = .fetch)
      (hscn : s.nextToSubmitScn ≤ scn)
      (hle : ∀ e ∈ L.entries.drop s.cur, s.nextToSubmitScn ≤ e.scn → scn ≤ e.scn) :
      Move L s { s with submit := .fetch, iterValid := v, nextToSubmitScn := scn }
  | skip {e} (hpc : s.submit = .fetch) (he : L.entries[s.cur]? = some e)
      (h : ¬ L.Needs s.cur e) : Move L s { s with submit := .update }
  | build {e} (hpc : s.submit = .fetch) (h : L.Needs s.cur e) :
      Move L s { s with
        submit := .check (e.toTask s.cur)
        replayLogBuf := if e.needPreReplayBarrier then
            update s.replayLogBuf s.cur (some replayTaskQueueSize)
          else s.replayLogBuf }
  | giveUp {t} (hpc : s.submit = .check t ∨ s.submit = .mark t) :
      Move L s (s.freeTask t)
  | pass {t} (hpc : s.submit = .check t)
      (hpost : s.postBarrierLsn = invalidLsnVal) : Move L s { s with submit := .mark t }
  | mark {t} (hpc : s.submit = .mark t) (hv : t.isValid) :
      Move L s { s with
        submit := .push t 0
        postBarrierLsn := if t.isPostBarrier then t.lsn else s.postBarrierLsn }
  | revoke {t} (hpc : s.submit = .push t 0) (hpre : t.isPreBarrier = true) :
      Move L s ((if t.isPostBarrier then s.setPostBarrierFinished t.lsn else s).freeTask t)
  | broadcast {t i} (hpc : s.submit = .push t i)
      (hpre : t.isPreBarrier = true) (hi : i < replayTaskQueueSize) :
      Move L s { s.pushTo ⟨i, hi⟩ t with
        submit := if i + 1 = replayTaskQueueSize then .update else .push t (i + 1) }
  | push {t i} (hpc : s.submit = .push t i)
      (hpre : t.isPreBarrier = false) :
      Move L s { s.pushTo t.queueIdx t with submit := .update }
  | badLsn {e} (hpc : s.submit = .update) (he : L.entries[s.cur]? = some e)
      (h : e.endLsn ≤ s.nextToSubmitLsn) : Move L s { s with submit := .halt }
  | badScn {e} (hpc : s.submit = .update) (he : L.entries[s.cur]? = some e)
      (h : scnLe (scnInc e.scn) s.nextToSubmitScn) :
      Move L s { s with submit := .halt, nextToSubmitLsn := e.endLsn }
  | updateMeta {e} (hpc : s.submit = .update) (he : L.entries[s.cur]? = some e) :
      Move L s { s with
        submit := .next
        cur := s.cur + 1
        nextToSubmitLsn := e.endLsn
        nextToSubmitScn := scnInc e.scn }
  | checkPlain {q t rest}
      (hw : s.worker q = .idle) (hq : s.taskQueues q = t :: rest)
      (hpre : t.isPreBarrier = false) :
      Move L s { s with worker := update s.worker q .replay }
  | checkCopy {q t rest ref}
      (hw : s.worker q = .idle) (hq : s.taskQueues q = t :: rest)
      (hpre : t.isPreBarrier = true) (hbuf : s.replayLogBuf t.serial = some ref)
      (hown : t.queueIdx ≠ q) (href : 1 < ref) :
      Move L s { s with
        worker := update s.worker q .pop
        replayLogBuf := update s.replayLogBuf t.serial (some (ref - 1)) }
  | checkOwn {q t rest}
      (hw : s.worker q = .idle) (hq : s.taskQueues q = t :: rest)
      (hpre : t.isPreBarrier = true) (hbuf : s.replayLogBuf t.serial = some 1)
      (hown : t.queueIdx = q) :
      Move L s { s with
        worker := update s.worker q .replay
        replayLogBuf := update s.replayLogBuf t.serial (some 0) }
  | checkError {q t rest}
      (buf : Option ℤ) (hw : s.worker q = .idle) (hq : s.taskQueues q = t :: rest)
      (hpre : t.isPreBarrier = true)
      (hbuf : ∀ ref, s.replayLogBuf t.serial = some ref → t.queueIdx ≠ q ∧ ref ≤ 1) :
      Move L s { s with replayLogBuf := update s.replayLogBuf t.serial buf, unexpected := true }
  | replayOk {q t rest}
      (hw : s.worker q = .replay) (hq : s.taskQueues q = t :: rest) :
      Move L s { s with
        worker := update s.worker q .finish
        replayLogBuf := if t.isPreBarrier then update s.replayLogBuf t.serial none
          else s.replayLogBuf
        replayed := s.replayed ++ [(t.serial, q)] }
  | replayFail {q t rest}
      (hw : s.worker q = .replay) (hq : s.taskQueues q = t :: rest) :
      Move L s { s with
        worker := update s.worker q .idle
        replayLogBuf := if t.isPreBarrier then
            update s.replayLogBuf t.serial ((s.replayLogBuf t.serial).map (· + 1))
          else s.replayLogBuf }
  | finishPlain {q t rest}
      (hw : s.worker q = .finish) (hq : s.taskQueues q = t :: rest)
      (hpost : t.isPostBarrier = false) : Move L s { s with worker := update s.worker q .pop }
  | finishPost {q t rest}
      (hw : s.worker q = .finish) (hq : s.taskQueues q = t :: rest)
      (hpost : t.isPostBarrier = true) (hlsn : s.postBarrierLsn = t.lsn) :
      Move L s { s with worker := update s.worker q .pop, postBarrierLsn := invalidLsnVal }
  | finishError {q t rest}
      (hw : s.worker q = .finish) (hq : s.taskQueues q = t :: rest)
      (hpost : t.isPostBarrier = true) (hlsn : s.postBarrierLsn ≠ t.lsn) :
      Move L s { s with worker := update s.worker q .idle, unexpected := true }
  | pop {q t rest}
      (hw : s.worker q = .pop) (hq : s.taskQueues q = t :: rest) :
      Move L s { s with
        worker := update s.worker q .idle
        taskQueues := update s.taskQueues q rest
        popped := update s.popped q (t.serial + 1) }

/-! ## The steps are moves -/

theorem nextLog_move {pv r} (hd : Delivers L s.cur r)
    (h : s.nextLog pv r = some s') : Move L s s' := by
  unfold nextLog at h
  split at h
  case isFalse => exact nomatch h
  case isTrue hpc =>
    have hpc : s.submit = .next ∨ s.submit = .fetch := hpc.imp_right And.left
    obtain rfl := some.inj h
    cases r with
    | entry | fail => exact .next _ hpc le_rfl fun _ _ h => h
    | iterEnd m =>
    -- the SCN moves only to a valid bound that is not smaller
    dsimp only [nextScnAtEnd]
    split
    case isTrue => exact .next _ hpc le_rfl fun _ _ h => h
    case isFalse hm =>
    push Not at hm
    exact .next _ hpc hm.2.2.2 fun e he _ => hd hm.2.2.1 e he

theorem fetchLog_move {alloc} (h : s.fetchLog L alloc = some s') : s' = s ∨ Move L s s' := by
  unfold fetchLog at h
  split at h
  case h_2 => exact nomatch h
  case h_1 e hpc he =>
  split at h
  · exact nomatch h
  split at h
  case isTrue hskip =>
    obtain rfl := some.inj h
    refine .inr (.skip hpc he fun hn => ?_)
    rcases hskip with hlt | hpad
    · exact absurd hn.2.1 (by omega)
    · exact Bool.noConfusion (hn.2.2.symm.trans hpad)
  case isFalse hskip =>
    push Not at hskip
    split at h
    · exact .inl (some.inj h).symm
    obtain rfl := some.inj h
    exact .inr (.build hpc ⟨he, hskip.1, by simpa using hskip.2⟩)

theorem checkCanSubmit_move {m} (h : s.checkCanSubmitLogReplayTask m = some s') : Move L s s' := by
  unfold checkCanSubmitLogReplayTask at h
  split at h
  case h_2 => exact nomatch h
  case h_1 t hpc =>
  split at h <;> obtain rfl := some.inj h
  case isTrue => exact .giveUp (.inl hpc)
  case isFalse hb =>
  push Not at hb
  exact .pass hpc hb.1

theorem setPostBarrierSubmitted_move (h : s.setPostBarrierSubmitted = some s') : Move L s s' := by
  unfold setPostBarrierSubmitted at h
  split at h
  case h_2 => exact nomatch h
  case h_1 t hpc =>
  split at h <;> obtain rfl := some.inj h
  case isTrue => exact .giveUp (.inr hpc)
  case isFalse hv => exact .mark hpc (not_not.mp hv)

theorem pushLogReplayTask_move {alloc} (h : s.pushLogReplayTask alloc = some s') : Move L s s' := by
  unfold pushLogReplayTask at h
  split at h
  case h_2 => exact nomatch h
  case h_1 t i hpc =>
  split at h
  case isFalse hpre =>
    obtain rfl := some.inj h
    exact .push hpc (by simpa using hpre)
  case isTrue hpre =>
  split at h
  case isTrue hi =>
    obtain rfl := some.inj h
    exact .revoke (hi.1 ▸ hpc) hpre
  case isFalse =>
  split at h
  case isTrue hi =>
    obtain rfl := some.inj h
    exact .broadcast hpc hpre hi
  case isFalse => exact nomatch h

theorem updateSubmitLogMetaInfo_move (h : s.updateSubmitLogMetaInfo L = some s') : Move L s s' := by
  unfold updateSubmitLogMetaInfo at h
  split at h
  case h_2 => exact nomatch h
  case h_1 e hpc he =>
  split at h
  case isTrue hl =>
    obtain rfl := some.inj h
    exact .badLsn hpc he hl
  case isFalse =>
  split at h <;> obtain rfl := some.inj h
  case isTrue hs => exact .badScn hpc he hs
  case isFalse => exact .updateMeta hpc he

variable {q : QueueIdx}

theorem checkHead_move {can} (h : s.checkHead q can = some s') : s' = s ∨ Move L s s' := by
  unfold checkHead at h
  split at h
  case h_2 => exact nomatch h
  case h_1 t rest hw hq =>
  split at h
  · exact .inl (some.inj h).symm
  by_cases hpre : t.isPreBarrier = true
  · simp only [checkReplayBarrier, if_pos hpre] at h
    cases hbuf : s.replayLogBuf t.serial with
    | none =>
      rw [hbuf] at h
      obtain rfl := some.inj h
      simp only [beq_self_eq_true, Bool.or_true]
      exact .inr (.checkError none hw hq hpre fun ref hr => nomatch hbuf.symm.trans hr)
    | some ref =>
    simp only [hbuf] at h
    by_cases hwait : q = calcReplayQueueIdx t.replayHint ∧ ref ≠ 1
    · -- the own queue waits, and the count is as it was
      rw [if_pos hwait] at h
      obtain rfl := some.inj h
      left
      rw [← hbuf, update_eq_self]
      cases s
      simp
    rw [if_neg hwait] at h
    by_cases hown : q = calcReplayQueueIdx t.replayHint
    · obtain rfl : ref = 1 := by
        by_contra hne
        exact hwait ⟨hown, hne⟩
      rw [if_pos (by omega), if_neg (not_not.mpr hown)] at h
      obtain rfl := some.inj h
      exact .inr (.checkOwn hw hq hpre hbuf hown.symm)
    have hbad (hle : ref ≤ 1) : Move L s { s with
        replayLogBuf := update s.replayLogBuf t.serial (some (ref - 1)), unexpected := true } := by
      refine .checkError _ hw hq hpre fun r hr => ?_
      obtain rfl := some.inj (hbuf.symm.trans hr)
      exact ⟨fun e => hown e.symm, hle⟩
    by_cases hz : ref - 1 = 0
    · rw [if_pos hz, if_pos hown] at h
      obtain rfl := some.inj h
      simpa using .inr (hbad (by omega))
    by_cases hn : ref - 1 < 0
    · rw [if_neg hz, if_pos hn] at h
      obtain rfl := some.inj h
      simpa using .inr (hbad (by omega))
    · rw [if_neg hz, if_neg hn] at h
      obtain rfl := some.inj h
      exact .inr (.checkCopy hw hq hpre hbuf (fun e => hown e.symm) (by omega))
  · simp only [checkReplayBarrier, if_neg hpre, update_eq_self, if_true] at h
    obtain rfl := some.inj h
    exact .inr (.checkPlain hw hq (by simpa using hpre))

theorem replayHead_move {ok} (h : s.replayHead q ok = some s') : Move L s s' := by
  unfold replayHead at h
  split at h
  case h_2 => exact nomatch h
  case h_1 t rest hw hq =>
  split at h <;> obtain rfl := some.inj h
  case isTrue => exact .replayOk hw hq
  case isFalse => exact .replayFail hw hq

theorem finishHead_move (h : s.finishHead q = some s') : Move L s s' := by
  unfold finishHead at h
  split at h
  case h_2 => exact nomatch h
  case h_1 t rest hw hq =>
  split at h
  case isFalse hpost =>
    obtain rfl := some.inj h
    exact .finishPlain hw hq (by simpa using hpost)
  case isTrue hpost =>
  obtain rfl := some.inj h
  by_cases hlsn : s.postBarrierLsn = t.lsn
  · simp only [setPostBarrierFinished, ne_eq, hlsn, not_true_eq_false, if_false]
    exact .finishPost hw hq hpost hlsn
  · simp only [setPostBarrierFinished, ne_eq, hlsn, not_false_eq_true, if_true]
    exact .finishError hw hq hpost hlsn

theorem popHead_move (h : s.popHead q = some s') : Move L s s' := by
  unfold popHead at h
  split at h
  case h_2 => exact nomatch h
  case h_1 t rest hw hq =>
  obtain rfl := some.inj h
  exact .pop hw hq

/-- **Every step is a move**, or leaves the state as it is. -/
theorem step_move {a} (h : s.step L a = some s') : s' = s ∨ Move L s s' := by
  cases a with
  | nextLog pv r =>
    simp only [step] at h
    split at h
    case isFalse => exact nomatch h
    case isTrue hd => exact .inr (nextLog_move hd h)
  | fetchLog alloc => exact fetchLog_move h
  | checkCanSubmit m => exact .inr (checkCanSubmit_move h)
  | setPostBarrier => exact .inr (setPostBarrierSubmitted_move h)
  | push alloc => exact .inr (pushLogReplayTask_move h)
  | updateMetaInfo => exact .inr (updateSubmitLogMetaInfo_move h)
  | checkHead q can => exact checkHead_move h
  | replayHead q ok => exact .inr (replayHead_move h)
  | finishHead q => exact .inr (finishHead_move h)
  | popHead q => exact .inr (popHead_move h)

end ReplayState

end OceanBase.Replay
