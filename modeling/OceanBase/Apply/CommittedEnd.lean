import OceanBase.Apply.Callbacks

/-!
# The committed end of the apply status

The apply status keeps LSN and SCN of the last report of its term. It writes the SCN before the LSN,
so there are moments at which the two belong to different logs. Both are the end of a committed part
of the log at any time, they only grow, and on a leader a callback of the term is below them exactly
when its log is: what is below the LSN has been committed, and what is not is not executed.

## Main results

* `EndInv.committedEndScn_le`, `ReplicaInv.init`, `ReplicaInv.move`
-/

namespace OceanBase.Apply

open Palf Replica CbQueue List

namespace Replica

/-- The LSN of the last report. The SCN of the report is stored already. -/
def reportedEnd (r : Replica) : ℕ := r.reporting.getD r.status.palfCommittedEndLsn

/-- No report and no callback is under way, so the write lock of the apply status is free. -/
def LockFree (r : Replica) : Prop := r.status.WorkersIdle ∧ r.reporting = none
  deriving Decidable

end Replica

variable {r r' : Replica} {e : PalfEntry}

/-- Whether a callback that runs does so for the right reason. -/
def WorkerOk (st : ApplyStatus) (w : CbWorker) : Prop :=
  match w with
  | .run cb success =>
    if success then cb.lsn < st.palfCommittedEndLsn
    else st.role = .follower ∧ st.palfCommittedEndLsn ≤ cb.lsn
  | _ => True

/-- **The committed end, the log handler and the role belong together.** -/
structure EndInv (r : Replica) : Prop where
  term : r.status.role = .leader → ∃ n, r.palf.termStart r.status.proposalId = some n
  handler_le : r.handlerProposalId ≤ r.palf.proposalId
  open_leader : r.AppendOpen →
    r.status.role = .leader ∧ r.status.proposalId = r.palf.proposalId
  given_le : ∀ e ∈ r.palf.given, e.proposalId ≤ r.status.proposalId
  follower : r.status.role = .follower → r.inFlight = []
  /-- the committed end is the end of a committed part of the log -/
  cut : ¬ scnIsValid r.status.palfCommittedEndScn ∧ r.reportedEnd = 0 ∨
    ∃ k ≤ r.palf.committed, r.palf.endLsnAt k = r.reportedEnd ∧
      r.palf.scnAt k = r.status.palfCommittedEndScn
  reporting : ∀ endLsn, r.reporting = some endLsn →
    r.status.role = .leader ∧ r.status.palfCommittedEndLsn < endLsn
  /-- it separates the callbacks of the term by LSN and by SCN alike -/
  below : ∀ e ∈ r.palf.given, e.proposalId = r.status.proposalId → e.lsn < r.reportedEnd →
    scnIsValid r.status.palfCommittedEndScn ∧ e.scn ≤ r.status.palfCommittedEndScn
  worker : ∀ q, WorkerOk r.status (r.status.cbQueues q).worker
  /-- callbacks of the term that are not below the committed end wait -/
  waits : r.status.role = .leader → ∀ e ∈ r.palf.given, e.proposalId = r.status.proposalId →
    r.Waiting e ∨ e.lsn < r.status.palfCommittedEndLsn

namespace EndInv

section

variable (h : EndInv r)
include h

/-- **The committed end is part of the log.** -/
theorem committedEndScn_le (hlog : LogInv r.palf) (hv : scnIsValid r.status.palfCommittedEndScn) :
    r.status.palfCommittedEndScn ≤ r.palf.scnAt r.palf.committed := by
  rcases h.cut with ⟨hinv, -⟩ | ⟨k, hk, -, hscn⟩
  · exact absurd hv hinv
  rw [← hscn]
  exact (hlog.wf.at_le hk hlog.wf.committed_le).2

theorem reportedEnd_le (hlog : LogInv r.palf) : r.reportedEnd ≤ r.palf.maxLsn := by
  rcases h.cut with ⟨-, hzero⟩ | ⟨k, hk, hlsn, -⟩
  · rw [hzero]
    exact Nat.zero_le _
  · rw [← hlsn]
    exact (hlog.wf.at_le (hk.trans hlog.wf.committed_le) le_rfl).1

theorem scnLe_of_lt (hlog : LogInv r.palf) {k} (hk : k < r.palf.committed)
    (he : r.palf.entries[k]? = some e) (hend : r.reportedEnd < e.endLsn) :
    scnLe r.status.palfCommittedEndScn e.scn := by
  intro hv
  refine ⟨(hlog.wf.entry e (mem_of_getElem? he)).2.2.2, ?_⟩
  obtain ⟨hlsn, hscn⟩ := PalfView.at_succ he
  rcases h.cut with ⟨hinv, -⟩ | ⟨m, hm, hmlsn, hmscn⟩
  · exact absurd hv hinv
  have hlt : m < k + 1 := by
    by_contra hge
    have hle := (hlog.wf.at_le (not_lt.mp hge) (hm.trans hlog.wf.committed_le)).1
    rw [hlsn, hmlsn] at hle
    exact absurd hend (not_lt.mpr hle)
  rw [← hmscn, ← hscn]
  exact (hlog.wf.at_lt hlt (hk.trans_le hlog.wf.committed_le)).2.le

theorem committedEndLsn_le : r.status.palfCommittedEndLsn ≤ r.reportedEnd := by
  unfold reportedEnd
  cases hrep : r.reporting with
  | none => exact le_rfl
  | some endLsn => exact (h.reporting endLsn hrep).2.le

theorem scn_le_of_executed (hrole : r.status.role = .leader) (he : e ∈ r.palf.given)
    (hpid : e.proposalId = r.status.proposalId) (hdone : ¬ r.Waiting e) :
    scnIsValid r.status.palfCommittedEndScn ∧ e.scn ≤ r.status.palfCommittedEndScn := by
  have hlt := (h.waits hrole e he hpid).resolve_left hdone
  exact h.below e he hpid (hlt.trans_le h.committedEndLsn_le)

theorem palf (hlog : LogInv r.palf) {p}
    (hm : PalfView.Move r.palf p) : EndInv { r with palf := p } := by
  obtain ⟨hagree, hcom⟩ := hm.agree hlog.wf
  have hgiven := hm.given_eq
  refine ⟨fun hrole => ?_, h.handler_le.trans hm.proposalId_le, ?_, ?_, h.follower, ?_, h.reporting,
    ?_, h.worker, ?_⟩
  · obtain ⟨n, hn⟩ := h.term hrole
    exact ⟨n, hlog.termStart_eq hm hn⟩
  · -- appends that are open were open before
    rintro ⟨hlead, hhandler, hpid⟩
    obtain ⟨hlead', hpid'⟩ := hm.leads hlead hpid.symm h.handler_le
    obtain ⟨hrole, hst⟩ := h.open_leader ⟨hlead', hhandler, hpid'.symm⟩
    exact ⟨hrole, hst.trans (hpid'.trans hpid)⟩
  · simp only [hgiven]
    exact h.given_le
  · rcases h.cut with hcut | ⟨k, hk, hlsn, hscn⟩
    · exact .inl hcut
    obtain ⟨h₁, h₂⟩ := hagree.at_eq hk
    exact .inr ⟨k, hk.trans hcom, h₁.trans hlsn, h₂.trans hscn⟩
  · simp only [hgiven]
    exact h.below
  · simp only [hgiven]
    exact h.waits

theorem append (hlog : LogInv r.palf) (hopen : r.AppendOpen)
    (hfol : r.palf.Follows e) (hpid : e.proposalId = r.palf.proposalId) : EndInv (r.append e) := by
  obtain ⟨hrole, hst⟩ := h.open_leader hopen
  refine ⟨h.term, h.handler_le, h.open_leader, ?_, ?_, ?_, h.reporting, ?_, h.worker, ?_⟩
  · intro a ha
    rcases mem_append.mp ha with ha | ha
    · exact h.given_le a ha
    rw [mem_singleton.mp ha, hpid]
    exact hst.ge
  · intro hfollower
    exact absurd (hrole.symm.trans hfollower) nofun
  · rcases h.cut with hcut | ⟨k, hk, hlsn, hscn⟩
    · exact .inl hcut
    obtain ⟨h₁, h₂⟩ :=
      (PalfView.agree_append r.palf e).at_eq (hk.trans hlog.wf.committed_le)
    exact .inr ⟨k, hk, h₁.trans hlsn, h₂.trans hscn⟩
  · intro a ha hapid hlt
    rcases mem_append.mp ha with ha | ha
    · exact h.below a ha hapid hlt
    rw [mem_singleton.mp ha] at hlt
    exact absurd hlt (not_lt.mpr ((h.reportedEnd_le hlog).trans hfol.1))
  · intro _ a ha hapid
    rcases mem_append.mp ha with ha | ha
    · rcases h.waits hrole a ha hapid with (hin | hpend) | hlt
      · refine .inl (.inl ?_)
        simp only [Replica.append, map_append]
        exact mem_append_left _ hin
      · exact .inl (.inr hpend)
      · exact .inr hlt
    · refine .inl (.inl ?_)
      rw [mem_singleton.mp ha]
      simp [Replica.append]

theorem withCbs {inFlight} {qs : CbQueueIdx → CbQueue}
    (hin : r.inFlight = [] → inFlight = []) (hw : ∀ q, WorkerOk r.status (qs q).worker)
    (hwait : r.status.role = .leader → ∀ e, r.Waiting e →
      e ∈ inFlight.map Prod.fst ∨ (∃ q, e ∈ (qs q).pending) ∨
        e.lsn < r.status.palfCommittedEndLsn) :
    EndInv { r with inFlight := inFlight, status := { r.status with cbQueues := qs } } := by
  refine { h with follower := fun hrole => hin (h.follower hrole), worker := hw, waits := ?_ }
  intro hrole e he hpid
  rcases h.waits hrole e he hpid with hwt | hlt
  · rcases hwait hrole e hwt with hmem | hpend | hlt
    · exact .inl (.inl hmem)
    · exact .inl (.inr hpend)
    · exact .inr hlt
  · exact .inr hlt

theorem setQueue {q} {x : CbQueue}
    (hpend : x.pending = (r.status.cbQueues q).pending) (hw : WorkerOk r.status x.worker) :
    EndInv (r.setQueue q x) := by
  refine h.withCbs id (forall_setQueue (P := fun _ y => WorkerOk r.status y.worker) h.worker
    hw) ?_
  rintro - e (hin | hwt)
  · exact .inl hin
  · exact .inr (.inl ((pending_setQueue hpend).mpr hwt))

end

variable {l l' : List (PalfEntry × Bool)}

section

variable (h : EndInv r)
include h

theorem countAppend (hin : r.inFlight = l ++ (e, false) :: l') :
    EndInv { r.setQueue e.queueIdx (r.status.cbQueues e.queueIdx).incTotalSubmitCbCnt with
      inFlight := l ++ (e, true) :: l' } := by
  refine h.withCbs (by simp [hin]) (forall_setQueue
    (P := fun _ y => WorkerOk r.status y.worker) h.worker (h.worker e.queueIdx)) ?_
  rintro - a (ha | hwt)
  · refine .inl ?_
    simpa [hin] using ha
  · exact .inr (.inl ((pending_setQueue pending_incTotalSubmitCbCnt).mpr hwt))

theorem pushAppend (hin : r.inFlight = l ++ (e, true) :: l') :
    EndInv { r.setQueue e.queueIdx ((r.status.cbQueues e.queueIdx).push e) with
      inFlight := l ++ l' } := by
  refine h.withCbs (by simp [hin]) (Replica.forall_setQueue
    (P := fun _ y => WorkerOk r.status y.worker) h.worker (h.worker e.queueIdx)) ?_
  -- the pushed callback is the last one of its queue now
  have hmono : ∀ a, (a = e ∨ r.status.Pending a) →
      ∃ q, a ∈ ((r.setQueue e.queueIdx
        ((r.status.cbQueues e.queueIdx).push e)).status.cbQueues q).pending := by
    rintro a (rfl | ⟨q, hq⟩)
    · refine ⟨a.queueIdx, ?_⟩
      rw [Replica.cbQueues_self, CbQueue.pending_push]
      exact mem_append_right _ (mem_singleton_self _)
    refine ⟨q, ?_⟩
    by_cases hqe : q = e.queueIdx
    · subst hqe
      rw [Replica.cbQueues_self, CbQueue.pending_push]
      exact mem_append_left _ hq
    · rwa [Replica.cbQueues_of_ne hqe]
  rintro - a (ha | hwt)
  · simp only [hin, map_append, map_cons, mem_append, mem_cons] at ha ⊢
    rcases ha with ha | rfl | ha
    · exact .inl (.inl ha)
    · exact .inr (.inl (hmono a (.inl rfl)))
    · exact .inl (.inr ha)
  · exact .inr (.inl (hmono a (.inr hwt)))

theorem execute {q x} (hx : (r.status.cbQueues q).execute = some x) : EndInv (r.setQueue q x) := by
  obtain ⟨cb, success, hw, rfl⟩ := execute_eq_some hx
  refine h.withCbs id (forall_setQueue (P := fun _ y => WorkerOk r.status y.worker) h.worker
    trivial) ?_
  have hok := h.worker q
  rw [hw] at hok
  rintro hrole a (ha | ⟨q', hq'⟩)
  · exact .inl ha
  by_cases hqq : q' = q
  · subst hqq
    simp only [pending, running, hw, singleton_append, mem_cons] at hq'
    rcases hq' with rfl | hmem
    · cases success with
      | false => cases hrole.symm.trans hok.1
      | true => exact .inr (.inr hok)
    · refine .inr (.inl ⟨q', ?_⟩)
      simpa [pending, running] using hmem
  · refine .inr (.inl ⟨q', ?_⟩)
    simpa [Function.update_of_ne hqq] using hq'

theorem startReport (hlog : LogInv r.palf) {n}
    (hslid : r.palf.slid < n) (hcom : n ≤ r.palf.committed)
    (he : r.palf.entries[n - 1]? = some e) (hpid : e.proposalId = r.status.proposalId)
    (hrole : r.status.role = .leader) (hlsn : r.status.palfCommittedEndLsn < e.endLsn) :
    EndInv { r.slide n with
      status := { r.status with palfCommittedEndScn := e.scn }
      reporting := some e.endLsn } := by
  obtain ⟨k, rfl⟩ : ∃ k, n = k + 1 := ⟨n - 1, by omega⟩
  refine { h with cut := .inr ⟨k + 1, hcom, ?_⟩, reporting := ?_, below := ?_ }
  · exact PalfView.at_succ he
  · intro endLsn heq
    exact ⟨hrole, Option.some.inj heq ▸ hlsn⟩
  intro a ha hapid hlt
  exact ⟨(hlog.wf.entry e (mem_of_getElem? he)).2.2.2,
    hlog.scn_le ha he (hapid.trans hpid.symm) hlt⟩

theorem finishReport {endLsn} (hrep : r.reporting = some endLsn) :
    EndInv { r with
      status := { r.status with palfCommittedEndLsn := endLsn }
      reporting := none } := by
  have hend : r.reportedEnd = endLsn := by simp [reportedEnd, hrep]
  obtain ⟨hrole, hlt⟩ := h.reporting endLsn hrep
  refine ⟨h.term, h.handler_le, h.open_leader, h.given_le, h.follower, ?_, nofun, ?_, ?_, ?_⟩
  · have hcut := h.cut
    rwa [hend] at hcut
  · have hbelow := h.below
    rwa [hend] at hbelow
  · intro q
    have hok := h.worker q
    cases hw : (r.status.cbQueues q).worker with
    | idle | ran => trivial
    | run cb success =>
      rw [hw] at hok
      cases success with
      | false => cases hrole.symm.trans hok.1
      | true => exact lt_trans (show cb.lsn < _ from hok) hlt
  · intro _ e he hpid
    exact (h.waits hrole e he hpid).imp_right fun hlt' => hlt'.trans hlt

theorem move (hlog : LogInv r.palf) (hm : Move r r') : EndInv r' := by
  cases hm with
  | palf hp => exact h.palf hlog hp
  | append e hopen hfol hpid => exact h.append hlog hopen hfol hpid
  | countAppend l l' hin => exact h.countAppend hin
  | pushAppend l l' hin => exact h.pushAppend hin
  | take q hx =>
    obtain ⟨-, hpend⟩ := pushed_take hx
    obtain ⟨cb, rest, success, hw, hq, rfl, hwhy⟩ := take_eq_some hx
    refine h.setQueue hpend ?_
    rcases hwhy with ⟨rfl, hlt⟩ | ⟨rfl, hge, hrole⟩
    · exact hlt
    · exact ⟨hrole, not_lt.mp hge⟩
  | execute q hx => exact h.execute hx
  | countApply q hx =>
    obtain ⟨-, hpend⟩ := pushed_incTotalApplyCbCnt hx
    obtain ⟨hw, rfl⟩ := incTotalApplyCbCnt_eq_some hx
    exact h.setQueue hpend trivial
  | skipReport n => exact { h with }
  | startReport n hidle hslid hcom he hpid hrole hlsn =>
    exact h.startReport hlog hslid hcom he hpid hrole hlsn
  | finishReport hrep => exact h.finishReport hrep

end

/-! ## Role changes -/

/-- The apply status becomes leader of a term of PALF. It may have led the term before if none of
its callbacks was dropped. -/
theorem switchToLeader (h : EndInv r) {pid n} (hlock : r.LockFree)
    (hrole : r.status.role = .follower) (hle : r.status.proposalId ≤ pid)
    (hn : r.palf.termStart pid = some n) (hwaits : ∀ e ∈ r.palf.given, e.proposalId = pid →
      r.Waiting e ∨ e.lsn < r.status.palfCommittedEndLsn) :
    EndInv { r with status := { r.status with proposalId := pid, role := .leader } } := by
  refine ⟨fun _ => ⟨n, hn⟩, h.handler_le, ?_, fun e he => (h.given_le e he).trans hle, nofun, h.cut,
    ?_, ?_, ?_, fun _ => hwaits⟩
  · intro hopen
    exact absurd ((h.open_leader hopen).1.symm.trans hrole) nofun
  · intro endLsn hrep
    exact absurd (hlock.2.symm.trans hrep) nofun
  · -- entries of the term that were given out before belong to the term the apply status had
    intro e he hpid hlt
    have hpid' : e.proposalId = r.status.proposalId :=
      le_antisymm (h.given_le e he) (hle.trans hpid.ge)
    exact h.below e he hpid' hlt
  · intro q
    simp only [hlock.1 q]
    trivial

/-- The apply status becomes follower when the log handler cannot append any more and all appends
have pushed their callbacks. -/
theorem switchToFollower (h : EndInv r) (hlock : r.LockFree) (hin : r.inFlight = [])
    (hopen : ¬ r.AppendOpen) :
    EndInv { r with
      status := { r.status with lastCheckScn := invalidScn, role := .follower } } := by
  refine ⟨nofun, h.handler_le, fun ho => absurd ho hopen, h.given_le, fun _ => hin, h.cut, ?_,
    h.below, ?_, nofun⟩
  · intro endLsn hrep
    exact absurd (hlock.2.symm.trans hrep) nofun
  intro q
  simp only [hlock.1 q]
  trivial

theorem openHandler (h : EndInv r) (hlog : LogInv r.palf) (hrole : r.status.role = .leader) :
    EndInv { r with handlerRole := .leader, handlerProposalId := r.status.proposalId } := by
  refine { h with handler_le := ?_, open_leader := fun ho => ⟨hrole, ho.2.2⟩ }
  obtain ⟨n, hn⟩ := h.term hrole
  exact (hlog.term _ _ hn).2

theorem closeHandler (h : EndInv r) {pid} (hpid : pid ≤ r.palf.proposalId) :
    EndInv { r with handlerRole := .follower, handlerProposalId := pid } :=
  { h with handler_le := hpid, open_leader := fun ho => (nomatch ho.2.1) }

end EndInv

/-! ## The replica -/

/-- **A replica whose log, callbacks and committed end belong together.** -/
structure ReplicaInv (r : Replica) : Prop where
  log : LogInv r.palf
  cbs : CbInv r
  fin : EndInv r

namespace ReplicaInv

theorem move (h : ReplicaInv r) (hm : Move r r') : ReplicaInv r' := by
  refine ⟨?_, h.cbs.move hm, h.fin.move h.log hm⟩
  cases hm with
  | palf hp => exact h.log.move hp
  | append e hopen hfol hpid => exact h.log.append hopen.1 hfol hpid
  | countAppend | pushAppend | take | execute | countApply | finishReport => exact h.log
  | skipReport n hidle hslid hcom | startReport n hidle hslid hcom => exact h.log.slide hcom

theorem withScns (h : ReplicaInv r) (lastCheckScn maxAppliedCbScn : ℕ) :
    ReplicaInv { r with status := { r.status with
      lastCheckScn := lastCheckScn, maxAppliedCbScn := maxAppliedCbScn } } :=
  ⟨h.log, ⟨h.cbs.located, h.cbs.counted, h.cbs.applied⟩, h.fin.term, h.fin.handler_le,
    h.fin.open_leader, h.fin.given_le, h.fin.follower, h.fin.cut, h.fin.reporting, h.fin.below,
    h.fin.worker, h.fin.waits⟩

theorem init {p : PalfView} (hp : p.Init) {pid} (hpid : pid ≤ p.proposalId) :
    ReplicaInv ⟨p, .follower, pid, [], .init, none⟩ := by
  refine ⟨hp.logInv, ⟨fun q => ?_, fun _ => le_rfl, fun _ => le_rfl⟩, nofun, hpid,
    fun h => (nomatch h.2.1), ?_, fun _ => rfl, .inl ⟨not_scnIsValid_invalidScn, rfl⟩, nofun, ?_,
    fun _ => trivial, nofun⟩
  · simp only [hp.given]
    exact .nil
  · simp only [hp.given]
    exact nofun
  · simp only [hp.given]
    exact nofun

end ReplicaInv

end OceanBase.Apply
