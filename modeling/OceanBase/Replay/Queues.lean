import OceanBase.Replay.Moves

/-!
# What the replay queues hold

The queues are described through the log sequence. A queue holds, in log order, exactly the logs
that were pushed to it and lie at or above the bound below which it is popped; a log has been
replayed exactly when the worker of its own queue is past it. The position `next_to_submit`
separates the logs that are consumed from the logs that are not, in LSN and in SCN.

Neither description holds after a barrier check has gone wrong, so the step lemmas assume that the
step reports no error; that none is ever reported needs the barriers.

## Main results

* `SubmitInv.move`, `QueueInv.move`: the moves keep both
-/

namespace OceanBase.Replay

open Palf Function ReplayState List

/-! ## The order of the logs -/

theorem ReplayEntry.lsn_lt_endLsn (e : ReplayEntry) : e.lsn < e.endLsn := by
  unfold endLsn logEntryHeaderSize
  omega

namespace ReplayLog

variable {L : ReplayLog} {i j : ℕ} {e e' : ReplayEntry}

theorem ordered (h : i < j) (he : L.entries[i]? = some e) (he' : L.entries[j]? = some e') :
    e.endLsn ≤ e'.lsn ∧ e.scn < e'.scn := by
  obtain ⟨hi, rfl⟩ := List.getElem?_eq_some_iff.mp he
  obtain ⟨hj, rfl⟩ := List.getElem?_eq_some_iff.mp he'
  exact pairwise_iff_getElem.mp L.sorted i j hi hj h

theorem mem_drop {n} (h : n ≤ j) (he : L.entries[j]? = some e) : e ∈ L.entries.drop n := by
  rw [mem_iff_getElem?]
  refine ⟨j - n, ?_⟩
  rw [List.getElem?_drop, Nat.add_sub_cancel' h]
  exact he

theorem Needs.eq (h : L.Needs j e) (h' : L.Needs j e') : e = e' :=
  Option.some.inj (h.1.symm.trans h'.1)

end ReplayLog

def SubmitPc.task? : SubmitPc → Option ObLogReplayTask
  | .check t => some t
  | .mark t => some t
  | .push t _ => some t
  | _ => none

namespace ReplayState

variable {L : ReplayLog} {s s' : ReplayState} {i j : ℕ} {e : ReplayEntry} {q : QueueIdx}
  {t : ObLogReplayTask} {rest : List ObLogReplayTask}

/-! ## The submit task -/

/-- The task that is being submitted is the one of the current log. -/
structure SubmitInv (L : ReplayLog) (s : ReplayState) : Prop where
  task : ∀ t, s.submit.task? = some t → ∃ e, L.Needs s.cur e ∧ t = e.toTask s.cur
  copies : ∀ t i, s.submit = .push t i →
    i < replayTaskQueueSize ∧ (t.isPreBarrier = false → i = 0)

theorem SubmitInv.init (L : ReplayLog) (v : Bool) : SubmitInv L (ReplayState.init L v) where
  task := by simp [ReplayState.init, SubmitPc.task?]
  copies := by simp [ReplayState.init]

theorem SubmitInv.of_none (h : s.submit.task? = none) : SubmitInv L s where
  task := by simp [h]
  copies := by
    intro t i hpc
    rw [hpc] at h
    exact nomatch h

theorem SubmitInv.of_eq (h : SubmitInv L s) (hcur : s'.cur = s.cur)
    (hsub : s'.submit = s.submit) : SubmitInv L s' where
  task := by rw [hsub, hcur]; exact h.task
  copies := by rw [hsub]; exact h.copies

theorem SubmitInv.move (h : SubmitInv L s) (hm : Move L s s') : SubmitInv L s' := by
  cases hm with
  | next | skip | giveUp | push | badLsn | badScn | updateMeta | revoke => exact .of_none rfl
  | build hpc hn =>
    refine ⟨?_, by simp⟩
    rintro t ht
    exact ⟨_, hn, (Option.some.inj ht).symm⟩
  | pass hpc hpost =>
    refine ⟨fun t ht => h.task t ?_, by simp⟩
    rw [hpc]
    exact ht
  | mark hpc hv =>
    refine ⟨fun t ht => h.task t ?_, ?_⟩
    · rw [hpc]
      exact ht
    rintro t i hti
    obtain ⟨rfl, rfl⟩ := SubmitPc.push.inj hti
    exact ⟨by decide, fun _ => rfl⟩
  | @broadcast t i hpc hpre hi =>
    refine ⟨?_, ?_⟩
    · intro t' ht'
      apply h.task t'
      rw [hpc]
      split_ifs at ht'
      · exact nomatch ht'
      · exact ht'
    · intro t' i' hti
      split_ifs at hti with hlast
      obtain ⟨rfl, rfl⟩ := SubmitPc.push.inj hti
      exact ⟨by omega, fun hf => Bool.noConfusion (hpre.symm.trans hf)⟩
  | checkPlain | checkCopy | checkOwn | checkError | replayOk | replayFail | finishPlain
  | finishPost | finishError | pop => exact h.of_eq rfl rfl

/-! ## The queues -/

def CurPushed (s : ReplayState) (q : QueueIdx) : Prop :=
  match s.submit with
  | .push _ i => q.val < i
  | .update => True
  | .halt => True
  | _ => False

/-- The log at position `j` was pushed to the queue. -/
def Pushed (L : ReplayLog) (s : ReplayState) (j : ℕ) (q : QueueIdx) : Prop :=
  ∃ e, L.Needs j e ∧ e.GoesTo q ∧ (j < s.cur ∨ j = s.cur ∧ s.CurPushed q)

/-- The log at position `j` is popped from the queue, or it is the head and the worker is in a
stage of `P`. -/
def Reached (P : WorkerPc → Prop) (s : ReplayState) (q : QueueIdx) (j : ℕ) : Prop :=
  j < s.popped q ∨ (∃ t rest, s.taskQueues q = t :: rest ∧ t.serial = j) ∧ P (s.worker q)

/-- The worker has decremented the reference count for the log. -/
abbrev Dec : ReplayState → QueueIdx → ℕ → Prop := Reached (· ≠ .idle)

/-- The worker has replayed the log, if the queue is the log's own. -/
abbrev Done : ReplayState → QueueIdx → ℕ → Prop := Reached fun w => w = .finish ∨ w = .pop

/-- The worker has lifted the log's post barrier, if the queue is the log's own. -/
abbrev Finished : ReplayState → QueueIdx → ℕ → Prop := Reached (· = .pop)

/-- **The contents of the queues**, and what was replayed. -/
structure QueueInv (L : ReplayLog) (s : ReplayState) : Prop where
  entry : ∀ q, ∀ t ∈ s.taskQueues q, ∃ e, L.Needs t.serial e ∧ t = e.toTask t.serial
  sorted : ∀ q, (s.taskQueues q).Pairwise (·.serial < ·.serial)
  mem : ∀ q j, (∃ t ∈ s.taskQueues q, t.serial = j) ↔ s.popped q ≤ j ∧ Pushed L s j q
  popped_le : ∀ q, s.popped q ≤ s.cur ∨ s.popped q = s.cur + 1 ∧ s.CurPushed q
  busy : ∀ q, s.worker q ≠ .idle → s.taskQueues q ≠ []
  own : ∀ q t rest, s.taskQueues q = t :: rest → s.worker q = .replay ∨ s.worker q = .finish →
    t.queueIdx = q
  replayed : ∀ j q, (j, q) ∈ s.replayed ↔ ∃ e, L.Needs j e ∧ e.queueIdx = q ∧ s.Done q j

theorem QueueInv.init (L : ReplayLog) (v : Bool) : QueueInv L (ReplayState.init L v) where
  entry := by simp [ReplayState.init]
  sorted := by simp [ReplayState.init]
  mem := by simp [ReplayState.init, Pushed, CurPushed]
  popped_le := by simp [ReplayState.init]
  busy := by simp [ReplayState.init]
  own := by simp [ReplayState.init]
  replayed := by simp [ReplayState.init, Reached]

theorem QueueInv.pushed (h : QueueInv L s) (ht : t ∈ s.taskQueues q) :
    s.popped q ≤ t.serial ∧ Pushed L s t.serial q :=
  (h.mem q t.serial).mp ⟨t, ht, rfl⟩

theorem Pushed.le_cur (h : Pushed L s j q) : j ≤ s.cur := by
  obtain ⟨e, -, -, hlt | ⟨heq, -⟩⟩ := h
  · exact hlt.le
  · exact heq.le

theorem QueueInv.lt_popped (h : QueueInv L s) (hq : s.taskQueues q = t :: rest)
    (hn : L.Needs i e) (hgo : e.GoesTo q) (hi : i < t.serial) : i < s.popped q := by
  by_contra hpop
  have hmem : t ∈ s.taskQueues q := by simp [hq]
  have hcur : i < s.cur := hi.trans_le (h.pushed hmem).2.le_cur
  obtain ⟨u, hu, rfl⟩ := (h.mem q i).mpr ⟨not_lt.mp hpop, e, hn, hgo, .inl hcur⟩
  have hs := h.sorted q
  rw [hq] at hu hs
  rcases mem_cons.mp hu with rfl | hu
  · exact lt_irrefl _ hi
  · exact lt_asymm hi (rel_of_pairwise_cons hs hu)

variable {P : WorkerPc → Prop} {q₀ : QueueIdx} {w : WorkerPc}

theorem QueueInv.not_reached_cur (h : QueueInv L s) (hc : ¬ s.CurPushed q) :
    ¬ Reached P s q s.cur := by
  rintro (hlt | ⟨⟨t, rest, hq, ht⟩, -⟩)
  · rcases h.popped_le q with hle | ⟨-, hcp⟩
    · omega
    · exact hc hcp
  · obtain ⟨-, e, -, -, hlt | ⟨-, hcp⟩⟩ := h.pushed (t := t) (q := q) (by simp [hq])
    · omega
    · exact hc hcp

theorem reached_congr (hq : s'.taskQueues q = s.taskQueues q)
    (hw : s'.worker q = s.worker q) (hp : s'.popped q = s.popped q) :
    Reached P s' q j ↔ Reached P s q j := by
  unfold Reached
  rw [hq, hw, hp]

theorem QueueInv.reached_push (h : QueueInv L s) (hP : ¬ P .idle)
    (q₀ : QueueIdx) (t : ObLogReplayTask)
    (hq : s'.taskQueues = update s.taskQueues q₀ (s.taskQueues q₀ ++ [t]))
    (hw : s'.worker = s.worker) (hp : s'.popped = s.popped) :
    Reached P s' q j ↔ Reached P s q j := by
  unfold Reached
  rw [hq, hw, hp]
  by_cases hqq : q = q₀
  · subst hqq
    rw [update_self]
    cases hs : s.taskQueues q with
    | nil =>
      have hidle : s.worker q = .idle := by
        by_contra hne
        exact h.busy q hne hs
      simp [hidle, hP]
    | cons t' rest => simp
  · rw [update_of_ne hqq]

theorem reached_head (hq : s.taskQueues q = t :: rest)
    (hp : s.popped q ≤ t.serial) : Reached P s q t.serial ↔ P (s.worker q) := by
  constructor
  · rintro (hlt | ⟨-, hP⟩)
    · omega
    · exact hP
  · intro hP
    exact .inr ⟨⟨t, rest, hq, rfl⟩, hP⟩

/-- The worker of queue `q` goes to the stage `w`; queues and submit task are as before. -/
structure WorkerStep (s s' : ReplayState) (q : QueueIdx) (w : WorkerPc) : Prop where
  taskQueues : s'.taskQueues = s.taskQueues
  worker : s'.worker = update s.worker q w
  popped : s'.popped = s.popped
  cur : s'.cur = s.cur
  submit : s'.submit = s.submit

theorem WorkerStep.reached (hst : WorkerStep s s' q₀ w) (hq₀ : s.taskQueues q₀ = t :: rest)
    (hj : q = q₀ → j = t.serial → (P w ↔ P (s.worker q₀))) :
    Reached P s' q j ↔ Reached P s q j := by
  unfold Reached
  rw [hst.taskQueues, hst.worker, hst.popped]
  by_cases hqq : q = q₀
  · subst hqq
    rw [update_self]
    refine or_congr_right (and_congr_right ?_)
    rintro ⟨t', rest', hq', rfl⟩
    rw [hq₀] at hq'
    exact hj rfl (congrArg _ (cons.inj hq').1).symm
  · rw [update_of_ne hqq]

theorem WorkerStep.reached_head
    (hstep : WorkerStep s s' q w) (hq : s.taskQueues q = t :: rest) (hp : s.popped q ≤ t.serial) :
    Reached P s' q t.serial ↔ P w := by
  have hq' : s'.taskQueues q = t :: rest := by rw [hstep.taskQueues, hq]
  rw [ReplayState.reached_head hq' (by rw [hstep.popped]; exact hp), hstep.worker, update_self]

/-- The worker of queue `q` pops its head. -/
structure PopStep (s s' : ReplayState) (q : QueueIdx) (t : ObLogReplayTask)
    (rest : List ObLogReplayTask) : Prop where
  stage : s.worker q = .pop
  head : s.taskQueues q = t :: rest
  taskQueues : s'.taskQueues = update s.taskQueues q rest
  worker : s'.worker = update s.worker q .idle
  popped : s'.popped = update s.popped q (t.serial + 1)
  cur : s'.cur = s.cur
  submit : s'.submit = s.submit

theorem QueueInv.reached_pop (h : QueueInv L s) (hP : ¬ P .idle)
    (hPpop : P .pop) (hstep : PopStep s s' q₀ t rest) (hn : L.Needs j e)
    (hgo : e.GoesTo q) : Reached P s' q j ↔ Reached P s q j := by
  by_cases hqq : q = q₀
  · subst hqq
    unfold Reached
    rw [hstep.taskQueues, hstep.worker, hstep.popped, update_self, update_self, update_self,
      hstep.stage]
    constructor
    · rintro (hlt | ⟨-, hidle⟩)
      · rcases Nat.lt_succ_iff_lt_or_eq.mp hlt with hlt | rfl
        · exact .inl (h.lt_popped hstep.head hn hgo hlt)
        · exact .inr ⟨⟨t, rest, hstep.head, rfl⟩, hPpop⟩
      · exact absurd hidle hP
    rintro (hlt | ⟨⟨t', rest', hq', rfl⟩, -⟩)
    · have := (h.pushed (t := t) (q := q) (by simp [hstep.head])).1
      exact .inl (by omega)
    rw [hstep.head] at hq'
    rw [(cons.inj hq').1]
    exact .inl (Nat.lt_succ_self _)
  · refine reached_congr ?_ ?_ ?_
    · rw [hstep.taskQueues, update_of_ne hqq]
    · rw [hstep.worker, update_of_ne hqq]
    · rw [hstep.popped, update_of_ne hqq]

/-! ### The steps of the submit task -/

section

variable (h : QueueInv L s) (hq : s'.taskQueues = s.taskQueues) (hw : s'.worker = s.worker)
  (hp : s'.popped = s.popped) (hr : s'.replayed = s.replayed)
include h hq hw hp hr

theorem QueueInv.of_submit (hpushed : ∀ j q, Pushed L s' j q ↔ Pushed L s j q)
    (hle : ∀ q, s.popped q ≤ s.cur ∨ s.popped q = s.cur + 1 ∧ s.CurPushed q →
      s.popped q ≤ s'.cur ∨ s.popped q = s'.cur + 1 ∧ s'.CurPushed q) : QueueInv L s' where
  entry := by rw [hq]; exact h.entry
  sorted := by rw [hq]; exact h.sorted
  mem := by
    intro q j
    rw [hq, hp, hpushed]
    exact h.mem q j
  popped_le := fun q => by rw [hp]; exact hle q (h.popped_le q)
  busy := by rw [hq, hw]; exact h.busy
  own := by rw [hq, hw]; exact h.own
  replayed := by
    intro j q
    have hreach : s'.Done q j ↔ s.Done q j := reached_congr (by rw [hq]) (by rw [hw]) (by rw [hp])
    rw [hr, hreach]
    exact h.replayed j q

theorem QueueInv.of_unpushed (hcur : s'.cur = s.cur) (hc : ∀ q, ¬ s.CurPushed q)
    (hc' : ∀ q, ¬ s'.CurPushed q) : QueueInv L s' := by
  refine h.of_submit hq hw hp hr ?_ ?_
  · intro j q
    simp [Pushed, hcur, hc, hc']
  · intro q
    simp [hcur, hc, hc']

end

/-- **One push** of the current log. -/
theorem QueueInv.of_push (h : QueueInv L s) (hn : L.Needs s.cur e)
    (hgo : e.GoesTo q₀) (hq : s'.taskQueues = update s.taskQueues q₀
      (s.taskQueues q₀ ++ [e.toTask s.cur]))
    (hw : s'.worker = s.worker) (hp : s'.popped = s.popped) (hr : s'.replayed = s.replayed)
    (hcur : s'.cur = s.cur) (hc : ¬ s.CurPushed q₀)
    (hc' : ∀ q, e.GoesTo q → (s'.CurPushed q ↔ s.CurPushed q ∨ q = q₀))
    (hmono : ∀ q, s.CurPushed q → s'.CurPushed q) : QueueInv L s' := by
  have hpushed : ∀ j q, Pushed L s' j q ↔ Pushed L s j q ∨ (j = s.cur ∧ q = q₀) := by
    intro j q
    constructor
    · rintro ⟨e', hn', hgo', hj⟩
      rw [hcur] at hj
      rcases hj with hj | ⟨rfl, hcp⟩
      · exact .inl ⟨e', hn', hgo', .inl hj⟩
      obtain rfl := hn'.eq hn
      rcases (hc' q hgo').mp hcp with hcp | rfl
      · exact .inl ⟨e', hn', hgo', .inr ⟨rfl, hcp⟩⟩
      · exact .inr ⟨rfl, rfl⟩
    · rintro (⟨e', hn', hgo', hj⟩ | ⟨rfl, rfl⟩)
      · exact ⟨e', hn', hgo', hcur ▸ hj.imp_right fun hj => ⟨hj.1, hmono q hj.2⟩⟩
      · exact ⟨e, hn, hgo, .inr ⟨hcur.symm, (hc' q hgo).mpr (.inr rfl)⟩⟩
  have hpop : s.popped q₀ ≤ s.cur := (h.popped_le q₀).resolve_right fun hx => hc hx.2
  -- what is in the queue was pushed before, so it comes before the current log
  have hlt : ∀ t ∈ s.taskQueues q₀, t.serial < s.cur := by
    intro t ht
    obtain ⟨-, e', -, -, hj | ⟨-, hcp⟩⟩ := h.pushed ht
    · exact hj
    · exact absurd hcp hc
  refine ⟨?_, ?_, ?_, ?_, ?_, ?_, ?_⟩
  · intro q t ht
    rw [hq] at ht
    by_cases hqq : q = q₀
    · subst hqq
      rw [update_self, mem_append, mem_singleton] at ht
      rcases ht with ht | rfl
      · exact h.entry q t ht
      · exact ⟨e, hn, rfl⟩
    · rw [update_of_ne hqq] at ht
      exact h.entry q t ht
  · intro q
    rw [hq]
    by_cases hqq : q = q₀
    · subst hqq
      rw [update_self, pairwise_append]
      refine ⟨h.sorted q, pairwise_singleton _ _, ?_⟩
      intro t ht u hu
      rw [mem_singleton.mp hu]
      exact hlt t ht
    · rw [update_of_ne hqq]
      exact h.sorted q
  · intro q j
    rw [hq, hp, hpushed]
    by_cases hqq : q = q₀
    · subst hqq
      rw [update_self]
      constructor
      · rintro ⟨t, ht, rfl⟩
        rcases mem_append.mp ht with ht | ht
        · exact ⟨(h.pushed ht).1, .inl (h.pushed ht).2⟩
        rw [mem_singleton.mp ht]
        exact ⟨hpop, .inr ⟨rfl, rfl⟩⟩
      · rintro ⟨hj, hpj | ⟨rfl, -⟩⟩
        · obtain ⟨t, ht, rfl⟩ := (h.mem q j).mpr ⟨hj, hpj⟩
          exact ⟨t, mem_append_left _ ht, rfl⟩
        · exact ⟨e.toTask s.cur, by simp, rfl⟩
    · rw [update_of_ne hqq, h.mem q j]
      simp [hqq]
  · intro q
    rw [hp, hcur]
    exact (h.popped_le q).imp_right fun hx => ⟨hx.1, hmono q hx.2⟩
  · intro q hbusy hnil
    rw [hw] at hbusy
    rw [hq] at hnil
    by_cases hqq : q = q₀
    · subst hqq
      rw [update_self] at hnil
      simp at hnil
    · rw [update_of_ne hqq] at hnil
      exact h.busy q hbusy hnil
  · intro q t rest hqt hst
    rw [hw] at hst
    rw [hq] at hqt
    by_cases hqq : q = q₀
    · subst hqq
      have hne := h.busy q (by rcases hst with hst | hst <;> rw [hst] <;> decide)
      obtain ⟨t', rest', hs⟩ := exists_cons_of_ne_nil hne
      rw [update_self, hs, cons_append] at hqt
      rw [← (cons.inj hqt).1]
      exact h.own q t' rest' hs hst
    · rw [update_of_ne hqq] at hqt
      exact h.own q t rest hqt hst
  · intro j q
    have hreach : s'.Done q j ↔ s.Done q j := h.reached_push (by decide) q₀ _ hq hw hp
    rw [hr, hreach]
    exact h.replayed j q

/-! ### The steps of the workers -/

section

variable (h : QueueInv L s) (hstep : WorkerStep s s' q₀ w) (hq₀ : s.taskQueues q₀ = t :: rest)
include h hstep hq₀

theorem QueueInv.of_worker (hown : w = .replay ∨ w = .finish → t.queueIdx = q₀)
    (hr : ∀ j q, (j, q) ∈ s'.replayed ↔ ∃ e, L.Needs j e ∧ e.queueIdx = q ∧ s'.Done q j) :
    QueueInv L s' := by
  have hc : s'.CurPushed = s.CurPushed := by
    funext q
    unfold CurPushed
    rw [hstep.submit]
  refine ⟨by rw [hstep.taskQueues]; exact h.entry, by rw [hstep.taskQueues]; exact h.sorted, ?_, ?_,
    ?_, ?_, hr⟩
  · intro q j
    rw [hstep.taskQueues, hstep.popped, h.mem q j]
    unfold Pushed
    rw [hstep.cur, hc]
  · intro q
    rw [hstep.popped, hstep.cur, hc]
    exact h.popped_le q
  · intro q hbusy
    rw [hstep.worker] at hbusy
    rw [hstep.taskQueues]
    by_cases hqq : q = q₀
    · subst hqq
      simp [hq₀]
    · rw [update_of_ne hqq] at hbusy
      exact h.busy q hbusy
  intro q t' rest' hqt hst
  rw [hstep.worker] at hst
  rw [hstep.taskQueues] at hqt
  by_cases hqq : q = q₀
  · subst hqq
    rw [update_self] at hst
    rw [hq₀] at hqt
    rw [← (cons.inj hqt).1]
    exact hown hst
  · rw [update_of_ne hqq] at hst
    exact h.own q t' rest' hqt hst

theorem QueueInv.of_worker_same (hr : s'.replayed = s.replayed)
    (hown : w = .replay ∨ w = .finish → t.queueIdx = q₀) (hdone : t.queueIdx = q₀ →
      ((w = .finish ∨ w = .pop) ↔ (s.worker q₀ = .finish ∨ s.worker q₀ = .pop))) :
    QueueInv L s' := by
  apply h.of_worker hstep hq₀ hown
  intro j q
  rw [hr, h.replayed j q]
  refine exists_congr fun e => and_congr_right fun hn => and_congr_right fun heq => ?_
  refine (hstep.reached hq₀ ?_).symm
  rintro rfl rfl
  apply hdone
  obtain ⟨e', hn', ht⟩ := h.entry q t (by simp [hq₀])
  rw [ht, ReplayEntry.toTask_queueIdx, hn'.eq hn, heq]

end

theorem QueueInv.of_pop (h : QueueInv L s) (hstep : PopStep s s' q₀ t rest)
    (hr : s'.replayed = s.replayed) : QueueInv L s' := by
  have hc : s'.CurPushed = s.CurPushed := by
    funext q
    unfold CurPushed
    rw [hstep.submit]
  have hhead : s.popped q₀ ≤ t.serial ∧ Pushed L s t.serial q₀ := h.pushed (by simp [hstep.head])
  have hsorted := h.sorted q₀
  rw [hstep.head, pairwise_cons] at hsorted
  refine ⟨?_, ?_, ?_, ?_, ?_, ?_, ?_⟩
  · intro q t' ht'
    rw [hstep.taskQueues] at ht'
    by_cases hqq : q = q₀
    · subst hqq
      rw [update_self] at ht'
      exact h.entry q t' (by simp [hstep.head, ht'])
    · rw [update_of_ne hqq] at ht'
      exact h.entry q t' ht'
  · intro q
    rw [hstep.taskQueues]
    by_cases hqq : q = q₀
    · subst hqq
      rw [update_self]
      exact hsorted.2
    · rw [update_of_ne hqq]
      exact h.sorted q
  · intro q j
    have hpushed : Pushed L s' j q ↔ Pushed L s j q := by
      unfold Pushed
      rw [hstep.cur, hc]
    rw [hstep.taskQueues, hstep.popped, hpushed]
    by_cases hqq : q = q₀
    · subst hqq
      rw [update_self, update_self]
      constructor
      · rintro ⟨u, hu, rfl⟩
        exact ⟨hsorted.1 u hu, (h.pushed (by simp [hstep.head, hu])).2⟩
      rintro ⟨hj, hpj⟩
      obtain ⟨u, hu, rfl⟩ := (h.mem q j).mpr ⟨by omega, hpj⟩
      rw [hstep.head] at hu
      rcases mem_cons.mp hu with rfl | hu
      · omega
      · exact ⟨u, hu, rfl⟩
    · rw [update_of_ne hqq, update_of_ne hqq]
      exact h.mem q j
  · intro q
    rw [hstep.popped, hstep.cur, hc]
    by_cases hqq : q = q₀
    · subst hqq
      rw [update_self]
      obtain ⟨-, e, -, -, hlt | ⟨heq, hcp⟩⟩ := hhead
      · exact .inl hlt
      · exact .inr ⟨by rw [heq], hcp⟩
    · rw [update_of_ne hqq]
      exact h.popped_le q
  · intro q hbusy
    rw [hstep.worker] at hbusy
    rw [hstep.taskQueues]
    by_cases hqq : q = q₀
    · subst hqq
      rw [update_self] at hbusy
      exact absurd rfl hbusy
    · rw [update_of_ne hqq] at hbusy ⊢
      exact h.busy q hbusy
  · intro q t' rest' hqt hst
    rw [hstep.worker] at hst
    rw [hstep.taskQueues] at hqt
    by_cases hqq : q = q₀
    · subst hqq
      rw [update_self] at hst
      exact absurd hst (by decide)
    · rw [update_of_ne hqq] at hqt hst
      exact h.own q t' rest' hqt hst
  · intro j q
    rw [hr, h.replayed j q]
    refine exists_congr fun e => and_congr_right fun hn => and_congr_right fun heq => ?_
    exact (h.reached_pop (by decide) (by decide) hstep hn (.inr heq)).symm

/-! ### All moves -/

theorem not_curPushed_of {s : ReplayState} (h : s.submit = .fetch ∨ s.submit = .next ∨
    (∃ t, s.submit = .check t) ∨ (∃ t, s.submit = .mark t) ∨ ∃ t, s.submit = .push t 0)
    (q : QueueIdx) : ¬ s.CurPushed q := by
  unfold CurPushed
  rcases h with h | h | ⟨t, h⟩ | ⟨t, h⟩ | ⟨t, h⟩ <;> simp [h]

theorem pushed_iff_of_not_needs (hcur : s'.cur = s.cur) (he : L.entries[s.cur]? = some e)
    (hn : ¬ L.Needs s.cur e) : Pushed L s' j q ↔ Pushed L s j q := by
  unfold Pushed
  rw [hcur]
  refine exists_congr fun e' => and_congr_right fun hn' => and_congr_right fun _ => ?_
  refine or_congr_right (and_congr_right ?_)
  rintro rfl
  exact absurd (Option.some.inj (he.symm.trans hn'.1) ▸ hn') hn

theorem revoked_eq (s : ReplayState) (t : ObLogReplayTask) :
    let s' := (if t.isPostBarrier then s.setPostBarrierFinished t.lsn else s).freeTask t
    s'.taskQueues = s.taskQueues ∧ s'.worker = s.worker ∧ s'.popped = s.popped ∧
      s'.replayed = s.replayed ∧ s'.cur = s.cur ∧ s'.submit = .fetch := by
  dsimp only [freeTask, setPostBarrierFinished]
  split_ifs <;> simp

/-- **The moves keep the contents of the queues**, as long as no barrier check goes wrong. -/
theorem QueueInv.move (h : QueueInv L s) (hs : SubmitInv L s) (hm : Move L s s')
    (hu : s'.unexpected = false) : QueueInv L s' := by
  cases hm with
  | next v hpc hscn hle =>
    refine h.of_unpushed rfl rfl rfl rfl rfl (not_curPushed_of ?_) (not_curPushed_of (.inl rfl))
    exact hpc.elim (fun hpc => .inr (.inl hpc)) .inl
  | skip hpc he hn =>
    refine h.of_submit rfl rfl rfl rfl (fun j q => pushed_iff_of_not_needs rfl he hn) fun q => ?_
    exact Or.imp_right fun hx => ⟨hx.1, trivial⟩
  | build hpc hn =>
    exact h.of_unpushed rfl rfl rfl rfl rfl (not_curPushed_of (.inl hpc))
      (not_curPushed_of (.inr (.inr (.inl ⟨_, rfl⟩))))
  | giveUp hpc =>
    refine h.of_unpushed rfl rfl rfl rfl rfl (not_curPushed_of ?_) (not_curPushed_of (.inl rfl))
    exact hpc.elim (fun hpc => .inr (.inr (.inl ⟨_, hpc⟩)))
      fun hpc => .inr (.inr (.inr (.inl ⟨_, hpc⟩)))
  | pass hpc hpost =>
    exact h.of_unpushed rfl rfl rfl rfl rfl (not_curPushed_of (.inr (.inr (.inl ⟨_, hpc⟩))))
      (not_curPushed_of (.inr (.inr (.inr (.inl ⟨_, rfl⟩)))))
  | mark hpc hv =>
    exact h.of_unpushed rfl rfl rfl rfl rfl
      (not_curPushed_of (.inr (.inr (.inr (.inl ⟨_, hpc⟩)))))
      (not_curPushed_of (.inr (.inr (.inr (.inr ⟨_, rfl⟩)))))
  | @revoke t hpc hpre =>
    obtain ⟨hq, hw, hp, hr, hcur, hsub⟩ := revoked_eq s t
    exact h.of_unpushed hq hw hp hr hcur
      (not_curPushed_of (.inr (.inr (.inr (.inr ⟨_, hpc⟩))))) (not_curPushed_of (.inl hsub))
  | @broadcast t i hpc hpre hi =>
    obtain ⟨e, hn, rfl⟩ := hs.task t (by rw [hpc]; rfl)
    have hcp : ∀ q, s.CurPushed q ↔ q.val < i := by
      intro q
      simp [CurPushed, hpc]
    -- after the last copy every queue has one
    have hcp' : ∀ q, CurPushed { s.pushTo ⟨i, hi⟩ (e.toTask s.cur) with
        submit := if i + 1 = replayTaskQueueSize then .update
          else .push (e.toTask s.cur) (i + 1) } q ↔ q.val < i + 1 := by
      intro q
      unfold CurPushed
      split_ifs with hlast
      · have := q.isLt
        simp
        omega
      · simp
    refine h.of_push hn (.inl hpre) rfl rfl rfl rfl rfl ?_ ?_ ?_
    · rw [hcp]
      exact lt_irrefl i
    · intro q _
      rw [hcp, hcp', Nat.lt_succ_iff_lt_or_eq, Fin.ext_iff]
    intro q hq
    rw [hcp] at hq
    rw [hcp']
    omega
  | @push t i hpc hpre =>
    obtain ⟨e, hn, rfl⟩ := hs.task t (by rw [hpc]; rfl)
    obtain ⟨-, hzero⟩ := hs.copies _ _ hpc
    have hc : ∀ q, ¬ s.CurPushed q :=
      not_curPushed_of (.inr (.inr (.inr (.inr ⟨_, hzero hpre ▸ hpc⟩))))
    refine h.of_push hn (.inr rfl) rfl rfl rfl rfl rfl (hc _) ?_ fun q hq => absurd hq (hc q)
    intro q hgo
    have hown : e.queueIdx = q := hgo.resolve_left fun hx => Bool.noConfusion (hpre.symm.trans hx)
    simp [CurPushed, hown]
  | badLsn hpc | badScn hpc =>
    -- the log is pushed, and stays the current one
    refine h.of_submit rfl rfl rfl rfl ?_ fun q => ?_
    · intro j q
      simp [Pushed, CurPushed, hpc]
    · exact Or.imp_right fun hx => ⟨hx.1, trivial⟩
  | updateMeta hpc he =>
    refine h.of_submit rfl rfl rfl rfl ?_ ?_
    · intro j q
      simp only [Pushed, CurPushed, hpc, Nat.lt_succ_iff_lt_or_eq, and_false, or_false, and_true]
    rintro q (hle | ⟨heq, -⟩)
    · exact .inl (Nat.le_succ_of_le hle)
    · exact .inl heq.le
  | @checkPlain q t rest hw hq hpre =>
    refine h.of_worker_same ⟨rfl, rfl, rfl, rfl, rfl⟩ hq rfl (fun _ => ?_) fun _ => by simp [hw]
    -- a log without a pre barrier goes to its own queue only
    obtain ⟨e, hn, ht⟩ := h.entry q t (by simp [hq])
    obtain ⟨-, e', hn', hgo, -⟩ := h.pushed (t := t) (q := q) (by simp [hq])
    rw [ht, ReplayEntry.toTask_isPreBarrier] at hpre
    rw [ht, ReplayEntry.toTask_queueIdx, hn.eq hn']
    exact hgo.resolve_left fun hx => Bool.noConfusion (hpre.symm.trans (hn.eq hn' ▸ hx))
  | checkCopy hw hq hpre hbuf hown href =>
    exact h.of_worker_same ⟨rfl, rfl, rfl, rfl, rfl⟩ hq rfl (by simp) fun hx => absurd hx hown
  | checkOwn hw hq hpre hbuf hown =>
    exact h.of_worker_same ⟨rfl, rfl, rfl, rfl, rfl⟩ hq rfl (fun _ => hown) fun _ => by simp [hw]
  | checkError | finishError => exact nomatch hu
  | @replayOk q t rest hw hq =>
    have hown : t.queueIdx = q := h.own q t rest hq (.inl hw)
    have hhead := (h.pushed (t := t) (q := q) (by simp [hq])).1
    obtain ⟨e, hn, ht⟩ := h.entry q t (by simp [hq])
    refine h.of_worker (w := .finish) ⟨rfl, rfl, rfl, rfl, rfl⟩ hq (fun _ => hown) ?_
    intro j q'
    rw [mem_append, mem_singleton, Prod.mk.injEq, h.replayed j q']
    by_cases hx : j = t.serial ∧ q' = q
    · -- the log that was replayed
      obtain ⟨rfl, rfl⟩ := hx
      refine iff_of_true (.inr ⟨rfl, rfl⟩) ⟨e, hn, ?_, ?_⟩
      · rw [← hown, ht]
        rfl
      · exact .inr ⟨⟨t, rest, hq, rfl⟩, by simp⟩
    · rw [or_iff_left hx]
      refine exists_congr fun e' => and_congr_right fun _ => and_congr_right fun _ => ?_
      refine Iff.symm (WorkerStep.reached (w := .finish) ⟨rfl, rfl, rfl, rfl, rfl⟩ hq ?_)
      rintro rfl rfl
      exact absurd ⟨rfl, rfl⟩ hx
  | replayFail hw hq | finishPlain hw hq hpost | finishPost hw hq hpost hlsn =>
    exact h.of_worker_same ⟨rfl, rfl, rfl, rfl, rfl⟩ hq rfl (by simp) fun _ => by simp [hw]
  | pop hw hq => exact h.of_pop ⟨hw, hq, rfl, rfl, rfl, rfl, rfl⟩ rfl

end ReplayState

end OceanBase.Replay
