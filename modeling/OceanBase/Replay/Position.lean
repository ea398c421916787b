import OceanBase.Replay.Barrier

/-!
# The reported replay position never passes an unreplayed log

`get_min_unreplayed_log_info` reads the position up to which logs were submitted, and then the
head of one queue after the other, without a lock that spans the reads. Meanwhile logs are
submitted, replayed and popped, and at the end of the iterator the next SCN moves without the LSN.

A pair of an LSN and an SCN *cuts* the log at a position: the logs before it are below both, the
logs from it on are at or above both. The submitted position is a cut, and so is each queue head,
hence the comparison of the two with both components is the comparison of the cuts. While the
queues are scanned, every unreplayed log before the cut is in a queue that is still to be read:
a log is pushed before the position moves over it, and popped after its replay.

A log with the largest SCN breaks this. `SCN::scn_inc` of its SCN is the invalid SCN, which is below
every other one, so `update_submit_log_meta_info` refuses it, but has moved the LSN already.

## Main results

* `replay_position_sound`, `replay_position_passes_last_scn`
-/

namespace OceanBase.Replay

open Palf Function ReplayState List Option

/-! ## Reading the position -/

/-- Where a call of `get_min_unreplayed_log_info` stands, with what it has read. -/
inductive ReadPc
  | start
  /-- before `get_base_scn` -/
  | base (lsn scn : ℕ)
  /-- before the head of queue `i` is read -/
  | scan (i : ℕ) (lsn scn : ℕ)
  /-- the call has returned -/
  | done (lsn scn : ℕ)
deriving DecidableEq

/-- The head of a queue replaces what was read before if it is smaller in both components. -/
def scanQueue (queue : List ObLogReplayTask) (lsn scn : ℕ) : ℕ × ℕ :=
  match queue with
  | [] => (lsn, scn)
  | t :: _ => if t.lsn < lsn ∧ t.scn < scn then (t.lsn, t.scn) else (lsn, scn)

/-- One read of `get_min_unreplayed_log_info`; a call that has returned may be made again. -/
def readStep (L : ReplayLog) (s : ReplayState) : ReadPc → ReadPc
  | .start => .base s.nextToSubmitLsn s.nextToSubmitScn
  | .base lsn scn => if scn ≤ L.baseScn then .done lsn L.baseScn else .scan 0 lsn scn
  | .scan i lsn scn =>
    if h : i < replayTaskQueueSize then
      let p := scanQueue (s.taskQueues ⟨i, h⟩) lsn scn
      .scan (i + 1) p.1 p.2
    else .done lsn scn
  | .done _ _ => .start

/-- `get_max_replayed_scn`, from the SCN that `get_min_unreplayed_log_info` returns. -/
def getMaxReplayedScn (minUnreplayedScn : ℕ) : ℕ :=
  if baseScn < minUnreplayedScn then scnDec minUnreplayedScn else minScn

structure ReaderState where
  status : ReplayState
  reader : ReadPc

/-- All interleavings of the replay status with the reads. -/
def replayReader (L : ReplayLog) : Machine ReaderState where
  init r := (replayStatus L).init r.status ∧ r.reader = .start
  step r r' := (replayStatus L).step r.status r'.status ∧ r'.reader = r.reader ∨
    r'.status = r.status ∧ r'.reader = readStep L r.status r.reader

/-- The state after a sequence of steps, `none` being a read. -/
def readerRun (L : ReplayLog) : List (Option Act) → ReaderState → Option ReaderState
  | [], r => some r
  | none :: as, r => readerRun L as ⟨r.status, readStep L r.status r.reader⟩
  | some a :: as, r => (r.status.step L a).bind fun s => readerRun L as ⟨s, r.reader⟩

theorem reachable_readerRun {L as r r'}
    (hr : (replayReader L).Reachable r) (h : readerRun L as r = some r') :
    (replayReader L).Reachable r' := by
  induction as generalizing r with
  | nil => exact some.inj h ▸ hr
  | cons a as ih =>
    cases a with
    | none =>
      refine ih (r := ⟨r.status, readStep L r.status r.reader⟩) (hr.step ?_) h
      exact .inr ⟨rfl, rfl⟩
    | some a =>
    obtain ⟨s, hs, hrun⟩ := bind_eq_some_iff.mp h
    refine ih (r := ⟨s, r.reader⟩) (hr.step ?_) hrun
    exact .inl ⟨⟨a, hs⟩, rfl⟩

/-! ## Cuts of the log -/

/-- The LSN and the SCN cut the log at position `k`. -/
structure Cut (L : ReplayLog) (k lsn scn : ℕ) : Prop where
  below : ∀ j e, j < k → L.entries[j]? = some e → e.lsn < lsn ∧ e.scn < scn
  above : ∀ j e, k ≤ j → L.entries[j]? = some e → lsn ≤ e.lsn ∧ scn ≤ e.scn

variable {L : ReplayLog} {j k lsn scn : ℕ} {e : ReplayEntry}

theorem Cut.lt_iff (h : Cut L k lsn scn) (he : L.entries[j]? = some e) :
    e.lsn < lsn ∧ e.scn < scn ↔ j < k := by
  constructor
  · rintro ⟨hlt, -⟩
    by_contra hkj
    exact absurd (h.above j e (not_lt.mp hkj) he).1 (not_le.mpr hlt)
  · intro hjk
    exact h.below j e hjk he

theorem Cut.of_entry (he : L.entries[k]? = some e) : Cut L k e.lsn e.scn where
  below := by
    intro j e' hj he'
    obtain ⟨hend, hscn⟩ := L.ordered hj he' he
    exact ⟨e'.lsn_lt_endLsn.trans_le hend, hscn⟩
  above := by
    intro j e' hj he'
    rcases hj.eq_or_lt with rfl | hj
    · obtain rfl := some.inj (he.symm.trans he')
      exact ⟨le_rfl, le_rfl⟩
    · obtain ⟨hend, hscn⟩ := L.ordered hj he he'
      exact ⟨e.lsn_lt_endLsn.le.trans hend, hscn.le⟩

namespace ReplayState

variable {s s' : ReplayState} {q : QueueIdx}

/-- The submitted position separates the logs before the current one from the others. -/
structure PosInv (L : ReplayLog) (s : ReplayState) : Prop where
  lsn_le : ∀ j e, s.cur ≤ j → L.entries[j]? = some e → s.nextToSubmitLsn ≤ e.lsn
  endLsn_le : ∀ j e, j < s.cur → L.entries[j]? = some e → e.endLsn ≤ s.nextToSubmitLsn
  scn_le : ∀ j e, s.cur ≤ j → L.entries[j]? = some e → s.nextToSubmitScn ≤ e.scn
  scn_lt : ∀ j e, j < s.cur → L.entries[j]? = some e → e.scn < s.nextToSubmitScn

theorem PosInv.init (L : ReplayLog) (v : Bool) : PosInv L (ReplayState.init L v) where
  lsn_le := fun _ e _ he => L.baseLsn_le e (mem_of_getElem? he)
  endLsn_le := fun j _ h => absurd h (Nat.not_lt_zero j)
  scn_le := fun _ _ _ _ => Nat.zero_le _
  scn_lt := fun j _ h => absurd h (Nat.not_lt_zero j)

theorem PosInv.of_eq (h : PosInv L s) (hcur : s'.cur = s.cur)
    (hlsn : s'.nextToSubmitLsn = s.nextToSubmitLsn)
    (hscn : s'.nextToSubmitScn = s.nextToSubmitScn) : PosInv L s' where
  lsn_le := by rw [hcur, hlsn]; exact h.lsn_le
  endLsn_le := by rw [hcur, hlsn]; exact h.endLsn_le
  scn_le := by rw [hcur, hscn]; exact h.scn_le
  scn_lt := by rw [hcur, hscn]; exact h.scn_lt

/-- The position is that of the current log, so its LSN can always be moved over the log. -/
theorem PosInv.not_endLsn_le (h : PosInv L s) (he : L.entries[s.cur]? = some e) :
    ¬ e.endLsn ≤ s.nextToSubmitLsn := by
  have := h.lsn_le s.cur e le_rfl he
  have := e.lsn_lt_endLsn
  omega

/-- Its SCN can be moved over the log as well, unless that has the largest SCN. -/
theorem PosInv.not_scnLe (h : PosInv L s) (he : L.entries[s.cur]? = some e)
    (hmax : e.scn < maxScn) : ¬ scnLe (scnInc e.scn) s.nextToSubmitScn := by
  rw [scnInc_of_lt hmax]
  intro hle
  have := (hle hmax).2
  have := h.scn_le s.cur e le_rfl he
  omega

theorem PosInv.move (hmax : ∀ e ∈ L.entries, e.scn < maxScn) (h : PosInv L s)
    (hm : Move L s s') : PosInv L s' := by
  cases hm with
  | next v hpc hscn hle =>
    refine ⟨h.lsn_le, h.endLsn_le, ?_, ?_⟩
    · intro j e hj he
      exact hle e (L.mem_drop hj he) (h.scn_le j e hj he)
    · intro j e hj he
      exact (h.scn_lt j e hj he).trans_le hscn
  | @revoke t =>
    -- whether or not the barrier is revoked, the position is untouched
    refine h.of_eq ?_ ?_ ?_ <;>
    · dsimp only [freeTask, setPostBarrierFinished]
      split_ifs <;> rfl
  | badLsn hpc he hl => exact absurd hl (h.not_endLsn_le he)
  | badScn hpc he hl => exact absurd hl (h.not_scnLe he (hmax _ (mem_of_getElem? he)))
  | @updateMeta e hpc he =>
    have hinc : scnInc e.scn = e.scn + 1 := scnInc_of_lt (hmax e (mem_of_getElem? he))
    refine ⟨?_, ?_, ?_, ?_⟩
    · intro j e' hj he'
      exact (L.ordered hj he he').1
    · intro j e' hj he'
      rcases Nat.lt_succ_iff_lt_or_eq.mp hj with hj | rfl
      · exact (L.ordered hj he' he).1.trans (ReplayEntry.lsn_lt_endLsn _).le
      · exact le_of_eq (congrArg _ (some.inj (he'.symm.trans he)))
    · intro j e' hj he'
      rw [hinc]
      exact (L.ordered hj he he').2
    intro j e' hj he'
    rw [hinc, Nat.lt_succ_iff]
    rcases Nat.lt_succ_iff_lt_or_eq.mp hj with hj | rfl
    · exact (L.ordered hj he' he).2.le
    · exact le_of_eq (congrArg _ (some.inj (he'.symm.trans he)))
  | skip | build | giveUp | pass | mark | broadcast | push | checkPlain | checkCopy | checkOwn
  | checkError | replayOk | replayFail | finishPlain | finishPost | finishError | pop =>
    exact h.of_eq rfl rfl rfl

theorem PosInv.cut (h : PosInv L s) : Cut L s.cur s.nextToSubmitLsn s.nextToSubmitScn where
  below := fun j e hj he =>
    ⟨e.lsn_lt_endLsn.trans_le (h.endLsn_le j e hj he), h.scn_lt j e hj he⟩
  above := fun j e hj he => ⟨h.lsn_le j e hj he, h.scn_le j e hj he⟩

theorem Move.mono (hm : Move L s s') : s.cur ≤ s'.cur ∧ s.replayed ⊆ s'.replayed := by
  cases hm with
  | @revoke t =>
    obtain ⟨-, -, -, hr, hcur, -⟩ := revoked_eq s t
    rw [hcur, hr]
    exact ⟨le_rfl, Subset.refl _⟩
  | updateMeta => exact ⟨Nat.le_succ _, Subset.refl _⟩
  | replayOk => exact ⟨le_rfl, subset_append_left _ _⟩
  | next | skip | build | giveUp | pass | mark | broadcast | push | badLsn | badScn | checkPlain
  | checkCopy | checkOwn | checkError | replayFail | finishPlain | finishPost | finishError
  | pop => exact ⟨le_rfl, Subset.refl _⟩

theorem QueueInv.mem_replayed (h : QueueInv L s) (hn : L.Needs j e) (hj : j < s.cur)
    (hhead : ∀ t rest, s.taskQueues e.queueIdx = t :: rest → j < t.serial) :
    (j, e.queueIdx) ∈ s.replayed := by
  refine (h.replayed _ _).mpr ⟨e, hn, rfl, .inl ?_⟩
  by_contra hpop
  -- otherwise the log is in the queue, at its head or behind it
  obtain ⟨u, hu, rfl⟩ := (h.mem e.queueIdx j).mpr ⟨not_lt.mp hpop, e, hn, .inr rfl, .inl hj⟩
  cases hq : s.taskQueues e.queueIdx with
  | nil => simp [hq] at hu
  | cons t rest =>
  have hlt := hhead t rest hq
  have hs := h.sorted e.queueIdx
  rw [hq] at hu hs
  rcases mem_cons.mp hu with rfl | hu
  · exact lt_irrefl _ hlt
  · exact lt_asymm hlt (rel_of_pairwise_cons hs hu)

end ReplayState

/-! ## The scan -/

/-- What the reads so far say: the log is cut at a position that is submitted, and the unreplayed
logs before it are in the queues that are still to be read. -/
def ReadInv (L : ReplayLog) (s : ReplayState) : ReadPc → Prop
  | .start => True
  | .base lsn scn => ∃ k ≤ s.cur, Cut L k lsn scn
  | .scan i lsn scn => ∃ k ≤ s.cur, Cut L k lsn scn ∧
      ∀ j e, L.Needs j e → j < k → (j, e.queueIdx) ∈ s.replayed ∨ i ≤ e.queueIdx.val
  | .done lsn scn => ∃ k ≤ s.cur,
      (∀ j e, k ≤ j → L.entries[j]? = some e → L.baseScn ≤ e.scn → lsn ≤ e.lsn ∧ scn ≤ e.scn) ∧
      ∀ j e, L.Needs j e → j < k → (j, e.queueIdx) ∈ s.replayed

theorem ReadInv.of_mono {s s' : ReplayState} {rd} (h : ReadInv L s rd)
    (hcur : s.cur ≤ s'.cur) (hr : s.replayed ⊆ s'.replayed) : ReadInv L s' rd := by
  cases rd with
  | start => trivial
  | base lsn scn =>
    obtain ⟨k, hk, hcut⟩ := h
    exact ⟨k, hk.trans hcur, hcut⟩
  | scan i lsn scn =>
    obtain ⟨k, hk, hcut, hq⟩ := h
    exact ⟨k, hk.trans hcur, hcut, fun j e hn hj => (hq j e hn hj).imp_left fun hm => hr hm⟩
  | done lsn scn =>
    obtain ⟨k, hk, hcut, hq⟩ := h
    exact ⟨k, hk.trans hcur, hcut, fun j e hn hj => hr (hq j e hn hj)⟩

/-- **One queue is read.** If its head is before the cut it becomes the cut, and otherwise the
queue has no unreplayed log before the cut. -/
theorem ReadInv.scan_succ {s} (hQ : QueueInv L s) {i}
    (hi : i < replayTaskQueueSize) (h : ReadInv L s (.scan i lsn scn)) :
    ReadInv L s (.scan (i + 1) (scanQueue (s.taskQueues ⟨i, hi⟩) lsn scn).1
      (scanQueue (s.taskQueues ⟨i, hi⟩) lsn scn).2) := by
  obtain ⟨k, hk, hcut, hq⟩ := h
  -- a log before `m` in this queue is replayed when the head of the queue is not before `m`
  have hnext : ∀ m ≤ k, (∀ t rest, s.taskQueues ⟨i, hi⟩ = t :: rest → m ≤ t.serial) →
      ∀ j e, L.Needs j e → j < m → (j, e.queueIdx) ∈ s.replayed ∨ i + 1 ≤ e.queueIdx.val := by
    intro m hm hhead j e hn hj
    rcases hq j e hn (hj.trans_le hm) with hr | hle
    · exact .inl hr
    rcases hle.eq_or_lt with heq | hlt
    · have hqi : e.queueIdx = ⟨i, hi⟩ := Fin.ext heq.symm
      left
      refine hQ.mem_replayed hn (by omega) ?_
      intro t rest ht
      rw [hqi] at ht
      exact hj.trans_le (hhead t rest ht)
    · exact .inr hlt
  cases hs : s.taskQueues ⟨i, hi⟩ with
  | nil => exact ⟨k, hk, hcut, hnext k le_rfl (by simp [hs])⟩
  | cons t rest =>
  obtain ⟨e, hn, ht, -, -⟩ := hQ.head hs
  have hlt := hcut.lt_iff hn.1
  have htl : t.lsn = e.lsn := by rw [ht]; rfl
  have hts : t.scn = e.scn := by rw [ht]; rfl
  unfold scanQueue
  dsimp only
  rw [htl, hts]
  by_cases hbelow : e.lsn < lsn ∧ e.scn < scn
  · rw [if_pos hbelow]
    have hk' : t.serial < k := hlt.mp hbelow
    refine ⟨t.serial, by omega, .of_entry hn.1, hnext _ hk'.le ?_⟩
    intro t' rest' hs'
    rw [hs] at hs'
    rw [(cons.inj hs').1]
  · rw [if_neg hbelow]
    refine ⟨k, hk, hcut, hnext k le_rfl ?_⟩
    intro t' rest' hs'
    rw [hs] at hs'
    rw [← (cons.inj hs').1]
    exact not_lt.mp (mt hlt.mpr hbelow)

theorem ReadInv.read {s} (hS : PosInv L s) (hQ : QueueInv L s) {rd}
    (h : ReadInv L s rd) : ReadInv L s (readStep L s rd) := by
  cases rd with
  | start => exact ⟨s.cur, le_rfl, hS.cut⟩
  | base lsn scn =>
    obtain ⟨k, hk, hcut⟩ := h
    simp only [readStep]
    split_ifs with hskip
    · -- everything before the cut is below the base SCN
      refine ⟨k, hk, ?_, ?_⟩
      · intro j e hj he hb
        exact ⟨(hcut.above j e hj he).1, hb⟩
      intro j e hn hj
      have := (hcut.below j e hj hn.1).2
      have := hn.2.1
      omega
    · exact ⟨k, hk, hcut, fun j e _ _ => .inr (Nat.zero_le _)⟩
  | scan i lsn scn =>
    simp only [readStep]
    split_ifs with hi
    · exact h.scan_succ hQ hi
    obtain ⟨k, hk, hcut, hq⟩ := h
    refine ⟨k, hk, fun j e hj he _ => hcut.above j e hj he, ?_⟩
    intro j e hn hj
    refine (hq j e hn hj).resolve_right fun hle => ?_
    have := e.queueIdx.isLt
    omega
  | done lsn scn => trivial

theorem ReadInv.of_reachable {r} (hmax : ∀ e ∈ L.entries, e.scn < maxScn)
    (h : (replayReader L).Reachable r) :
    ReplayInv L r.status ∧ PosInv L r.status ∧ ReadInv L r.status r.reader := by
  induction h with
  | init h =>
    obtain ⟨⟨v, hv, hinit⟩, hrd⟩ := h
    rw [hinit, hrd]
    exact ⟨.init L v, .init L v, trivial⟩
  | step _ hstep ih =>
  obtain ⟨hinv, hpos, hread⟩ := ih
  rcases hstep with ⟨⟨a, ha⟩, hrd⟩ | ⟨hst, hrd⟩
  · rw [hrd]
    rcases step_move ha with heq | hm
    · rw [heq]
      exact ⟨hinv, hpos, hread⟩
    · exact ⟨hinv.move hm, hpos.move hmax hm, hread.of_mono hm.mono.1 hm.mono.2⟩
  · rw [hst, hrd]
    exact ⟨hinv, hpos, hread.read hpos hinv.queue⟩

/-! ## The position returned -/

/-- Nothing of the log is left to do: it is replayed, or it is a padding log, which has nothing to
replay, and the submit task has passed over it. -/
def Settled (s : ReplayState) (j : ℕ) (e : ReplayEntry) : Prop :=
  (∃ q, (j, q) ∈ s.replayed) ∨ e.isPadding = true ∧ j < s.cur

theorem getMaxReplayedScn_lt {scn scn'} (h : scn ≤ scn') (hv : scnIsValid scn')
    (hpos : minScn < scn') : getMaxReplayedScn scn < scn' := by
  unfold getMaxReplayedScn
  split_ifs with hb
  · have hvalid : scnIsValid scn := h.trans hv
    exact (scnDec_lt hb hvalid).trans_le h
  · exact hpos

/-- **The reported replay position never passes an unreplayed log**, if no log has the largest SCN.
Whatever happens between the reads of `get_min_unreplayed_log_info`, the LSN and the SCN it returns
are not greater than those of any log from the base on that is not settled when it returns, and
`get_max_replayed_scn` is below the SCN of each of these logs. -/
theorem replay_position_sound (L : ReplayLog) (hmax : ∀ e ∈ L.entries, e.scn < maxScn)
    {s : ReplayState} {lsn scn : ℕ}
    (hr : (replayReader L).Reachable ⟨s, .done lsn scn⟩) {j : ℕ} {e : ReplayEntry}
    (he : L.entries[j]? = some e) (hb : L.baseScn ≤ e.scn) (hu : ¬ Settled s j e) :
    lsn ≤ e.lsn ∧ scn ≤ e.scn ∧ getMaxReplayedScn scn < e.scn := by
  obtain ⟨-, -, k, hk, habove, hbefore⟩ := ReadInv.of_reachable hmax hr
  have hkj : k ≤ j := by
    by_contra hlt
    rw [not_le] at hlt
    cases hpad : e.isPadding with
    | true => exact hu (.inr ⟨hpad, hlt.trans_le hk⟩)
    | false => exact hu (.inl ⟨_, hbefore j e ⟨he, hb, hpad⟩ hlt⟩)
  obtain ⟨hlsn, hscn⟩ := habove j e hkj he hb
  obtain ⟨-, hvalid, -, hpos⟩ := L.valid e (List.mem_of_getElem? he)
  exact ⟨hlsn, hscn, getMaxReplayedScn_lt hscn hvalid hpos⟩

/-- The position is read after the first log was submitted, and log and barrier stay while the
queues are scanned. -/
def positionRun : List (Option Act) :=
  [some (.fetchLog true), some (.checkCanSubmit false), some .setPostBarrier, some (.push true),
    some .updateMetaInfo, none, none, some (.nextLog true .entry), none, none, none, none,
    some (.checkHead 3 true)] ++ List.replicate 29 none

theorem replay_position_sound_positionRun :
    ∃ s, readerRun barrierLog positionRun ⟨.init barrierLog true, .start⟩ = some ⟨s, .done 100 7⟩ ∧
      (100 ≤ 100 ∧ 7 ≤ 7 ∧ getMaxReplayedScn 7 < 7) := by
  have hrun : ∃ r, readerRun barrierLog positionRun ⟨.init barrierLog true, .start⟩ = some r ∧
      (r.reader, r.status.replayed) = (.done 100 7, []) := by
    have h : (readerRun barrierLog positionRun ⟨.init barrierLog true, .start⟩).map
        (fun r => (r.reader, r.status.replayed)) = some (.done 100 7, []) := by decide +kernel
    exact Option.map_eq_some_iff.mp h
  obtain ⟨⟨s, rd⟩, hs, hr⟩ := hrun
  obtain ⟨rfl, hrep⟩ := Prod.mk.inj hr
  refine ⟨s, hs, ?_⟩
  refine replay_position_sound barrierLog (by decide) (j := 0) (reachable_readerRun ?_ hs) rfl
    (by decide) ?_
  · exact .init ⟨⟨true, by decide, rfl⟩, rfl⟩
  rintro (⟨q, hq⟩ | ⟨hpad, -⟩)
  · exact absurd hq (by rw [hrep]; simp)
  · exact absurd hpad (by decide)

/-! ### A log with the largest SCN -/

/-- A single log, with the SCN `OB_MAX_SCN_TS_NS`. -/
def lastScnLog : ReplayLog where
  entries := [⟨100, maxScn, 50, 3, false, false, false⟩]
  baseLsn := 100
  baseScn := 5
  baseLsn_le := by decide
  valid := by decide
  sorted := by decide

/-- The log is submitted, and the position is read. -/
def lastScnRun : List (Option Act) :=
  [some (.fetchLog true), some (.checkCanSubmit false), some .setPostBarrier, some (.push true),
    some .updateMetaInfo, none, none]

/-- **The reported position passes an unreplayed log** after the submission of a log with the
largest SCN: the LSN has moved behind the log, and the SCN has not. -/
theorem replay_position_passes_last_scn :
    ∃ s e, (replayReader lastScnLog).Reachable ⟨s, .done 182 5⟩ ∧
      lastScnLog.entries[0]? = some e ∧ lastScnLog.baseScn ≤ e.scn ∧ ¬ Settled s 0 e ∧
      ¬ 182 ≤ e.lsn := by
  have hrun : ∃ r, readerRun lastScnLog lastScnRun ⟨.init lastScnLog true, .start⟩ = some r ∧
      (r.reader, r.status.replayed) = (.done 182 5, []) := by
    have h : (readerRun lastScnLog lastScnRun ⟨.init lastScnLog true, .start⟩).map
        (fun r => (r.reader, r.status.replayed)) = some (.done 182 5, []) := by decide +kernel
    exact Option.map_eq_some_iff.mp h
  obtain ⟨⟨s, rd⟩, hs, hr⟩ := hrun
  obtain ⟨rfl, hrep⟩ := Prod.mk.inj hr
  refine ⟨s, _, reachable_readerRun (.init ⟨⟨true, by decide, rfl⟩, rfl⟩) hs, rfl, by decide, ?_,
    by decide⟩
  rintro (⟨q, hq⟩ | ⟨hpad, -⟩)
  · exact absurd hq (by rw [hrep]; simp)
  · exact absurd hpad (by decide)

end OceanBase.Replay
