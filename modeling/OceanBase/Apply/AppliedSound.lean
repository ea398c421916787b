import OceanBase.Apply.AppliedScn
import OceanBase.Apply.Growth

/-!
# The reported apply position

A value that `get_max_applied_scn` returns is sound because no callback at or below it is waiting,
and because none will be pushed: new entries of the term are above PALF's largest SCN, from which
the value was taken. On a leader this takes a snapshot of the counters in the right order: PALF's
largest SCN is read first, appends that have an SCN are waited for next, and the counters are read
last. On a follower there are no appends, and the SCN of the last report is above all callbacks that
were successful.

The value is kept when the role changes, and it has to fit to what the new role compares it with. As
a follower it is compared with the SCN of the last report. A leader may have adopted the SCN of the
log its term began with, though, which is older than the term and not reported to the apply status.
If it becomes follower before a report of its term arrives, the next call fails.

## Main results

* `maxAppliedScn_sound`, `maxAppliedScn_unreported`
-/

namespace OceanBase.Apply

open Palf AppliedState Option List Nat

variable {r r' : Replica} {e : PalfEntry} {scn : ℕ}

/-! ## Values that are sound -/

/-- No callback at or below the SCN is waiting. -/
def Sound (r : Replica) (scn : ℕ) : Prop := scnIsValid scn → ∀ e, r.Waiting e → scn < e.scn

/-- The SCN is not above the committed end, or it is that of a log from before the term. -/
def Bounded (r : Replica) (scn : ℕ) : Prop :=
  scnIsValid scn →
    scnIsValid r.status.palfCommittedEndScn ∧ scn ≤ r.status.palfCommittedEndScn ∨
    r.status.role = .leader ∧
      ∃ n, r.palf.termStart r.status.proposalId = some n ∧ scn ≤ r.palf.scnAt n

/-- The SCN was PALF's largest one during the term. -/
def Origin (r : Replica) (scn : ℕ) : Prop :=
  ∃ n, r.palf.termStart r.status.proposalId = some n ∧
    (scn ≤ r.palf.scnAt n ∨ ∃ e ∈ r.palf.given, e.proposalId = r.status.proposalId ∧ e.scn = scn)

/-- The callbacks behind the snapshot of the queue are above the SCN. -/
def CbQueue.Snap (scn : ℕ) (x : CbQueue) : Prop :=
  ∀ e ∈ x.pushed.drop x.lastCheckSubmitCbCnt, scn < e.scn

/-- The appends on the way are above the SCN. -/
def Synced (r : Replica) (scn : ℕ) : Prop := ∀ e ∈ r.inFlight.map Prod.fst, scn < e.scn

theorem Bounded.le_maxScn (h : Bounded r scn) (hr : ReplicaInv r) (hv : scnIsValid scn) :
    scn ≤ r.palf.maxScn := by
  have hmax := (hr.log.wf.at_le hr.log.wf.committed_le le_rfl).2
  rcases h hv with ⟨hvc, hle⟩ | ⟨-, n, hn, hle⟩
  · exact (hle.trans (hr.fin.committedEndScn_le hr.log hvc)).trans hmax
  have hcom := (hr.log.term _ n hn).1
  exact hle.trans (hr.log.wf.at_le (hcom.trans hr.log.wf.committed_le) le_rfl).2

theorem Origin.lt_fresh (h : Origin r scn) (hr : ReplicaInv r) (he : r.Fresh e) : scn < e.scn := by
  obtain ⟨n, hn, hscn⟩ := h
  obtain ⟨-, hpid⟩ := hr.fin.open_leader he.isOpen
  rw [hpid] at hn hscn
  exact lt_of_le_of_lt (hr.log.le_maxScn he.isOpen.1 hn hscn) he.follows.2.2.1

namespace Grows

variable (h : Grows r r')

include h

theorem sound (hs : Sound r scn) (hlt : ∀ e, scnIsValid scn → r.Fresh e → scn < e.scn) :
    Sound r' scn := by
  intro hv e he
  rcases h.waiting he with hwait | hfresh
  · exact hs hv e hwait
  · exact hlt e hv hfresh

theorem snap {q} (hs : Synced r scn) (hq : (r.status.cbQueues q).Snap scn) :
    (r'.status.cbQueues q).Snap scn := by
  obtain ⟨l, hl, hmem⟩ := (h.queue q).pushed
  intro e he
  rw [hl, (h.queue q).lastCheck, drop_append] at he
  rcases mem_append.mp he with he | he
  · exact hq e he
  · exact hs e (hmem e (mem_of_mem_drop he))

variable (hr : ReplicaInv r)

include hr

theorem bounded (hb : Bounded r scn) : Bounded r' scn := by
  intro hv
  rcases hb hv with ⟨hvc, hle⟩ | ⟨hrole, n, hn, hle⟩
  · obtain ⟨hvc', hle'⟩ := h.committedEndScn hr hvc
    exact .inl ⟨hvc', hle.trans hle'⟩
  · refine .inr ⟨h.role.trans hrole, n, h.proposalId ▸ h.term _ n hn, ?_⟩
    rwa [(h.at_term hr hn).2]

theorem origin (ho : Origin r scn) : Origin r' scn := by
  obtain ⟨n, hn, hscn⟩ := ho
  refine ⟨n, h.proposalId ▸ h.term _ n hn, ?_⟩
  rw [(h.at_term hr hn).2, h.proposalId]
  exact hscn.imp_right fun ⟨e, he, hpid, heq⟩ => ⟨e, h.given e he, hpid, heq⟩

theorem synced (ho : Origin r scn) (hs : Synced r scn) : Synced r' scn := by
  intro e he
  rcases h.inFlight e he with hin | hfresh
  · exact hs e hin
  · exact ho.lt_fresh hr hfresh

end Grows

/-! ## The invariant -/

def PcInv (r : Replica) : ReadPc → Prop
  | .idle => True
  | .applyCnt i cur =>
    r.status.role = .follower ∧ cur = r.status.palfCommittedEndScn ∧
      ∀ q : CbQueueIdx, q.val < i → (r.status.cbQueues q).pending = []
  | .submitCnt i cur totalApplyCbCnt =>
    (r.status.role = .follower ∧ cur = r.status.palfCommittedEndScn ∧
      ∀ q : CbQueueIdx, q.val < i → (r.status.cbQueues q).pending = []) ∧
    ∃ q : CbQueueIdx, q.val = i ∧ totalApplyCbCnt ≤ (r.status.cbQueues q).totalApplyCbCnt
  | .snapshotDone i =>
    scnIsValid r.status.lastCheckScn ∧ ∀ q : CbQueueIdx, q.val < i →
      (r.status.cbQueues q).lastCheckSubmitCbCnt ≤ (r.status.cbQueues q).totalApplyCbCnt
  | .getMaxScn => r.status.role = .leader
  | .getRole m =>
    r.status.role = .leader ∧ scnIsValid m ∧ scnLe r.status.maxAppliedCbScn m ∧
      (r.palf.isLeader = true → r.palf.proposalId = r.status.proposalId → Origin r m)
  | .waitAppendSync m appends =>
    r.status.role = .leader ∧ scnIsValid m ∧ scnLe r.status.maxAppliedCbScn m ∧ Origin r m ∧
      ∀ e ∈ r.inFlight.map Prod.fst, e ∈ appends ∨ m < e.scn
  | .setSnapshot m i =>
    r.status.role = .leader ∧ scnIsValid m ∧ scnLe r.status.maxAppliedCbScn m ∧ Origin r m ∧
      Synced r m ∧ ∀ q : CbQueueIdx, q.val < i → (r.status.cbQueues q).Snap m
  | .done ret => ret = .success

/-- The snapshot of a leader is complete, and above the value adopted before it. -/
structure Checked (r : Replica) (scn : ℕ) : Prop where
  role : r.status.role = .leader
  le : scnLe r.status.maxAppliedCbScn scn
  origin : Origin r scn
  synced : Synced r scn
  snap : ∀ q, (r.status.cbQueues q).Snap scn

/-- **The cached SCNs are sound**, and so is what the call has found out. -/
structure AppliedInv (s : AppliedState) : Prop where
  replica : ReplicaInv s.replica
  sound : Sound s.replica s.status.maxAppliedCbScn
  bounded : Bounded s.replica s.status.maxAppliedCbScn
  check : scnIsValid s.status.lastCheckScn → Checked s.replica s.status.lastCheckScn
  pc : PcInv s.replica s.pc
  success : ∀ x ∈ s.results, x.1 = .success
  results_le : ∀ x ∈ s.results, scnLe x.2 s.status.maxAppliedCbScn
  sorted : s.results.Pairwise fun x y => scnLe x.2 y.2

variable {s s' : AppliedState}

theorem PcInv.grows {pc} (hpc : PcInv r pc) (hr : ReplicaInv r) (h : Grows r r') : PcInv r' pc := by
  -- on a follower no append is on the way, so its queues get no callbacks
  have hempty : r.status.role = .follower → ∀ q,
      (r.status.cbQueues q).pending = [] → (r'.status.cbQueues q).pending = [] := by
    intro hrole q hq
    refine eq_nil_iff_forall_not_mem.mpr fun e he => ?_
    rcases (h.queue q).pending e he with hpend | hin
    · rw [hq] at hpend
      exact absurd hpend not_mem_nil
    · rw [hr.fin.follower hrole] at hin
      exact absurd hin not_mem_nil
  cases pc with
  | idle => trivial
  | applyCnt i cur =>
    obtain ⟨hrole, hcur, hq⟩ := hpc
    exact ⟨h.role.trans hrole, hcur.trans (h.follower hrole).2.symm,
      fun q hi => hempty hrole q (hq q hi)⟩
  | submitCnt i cur a =>
    obtain ⟨⟨hrole, hcur, hq⟩, q, hi, ha⟩ := hpc
    exact ⟨⟨h.role.trans hrole, hcur.trans (h.follower hrole).2.symm,
      fun q hi => hempty hrole q (hq q hi)⟩, q, hi, ha.trans (h.queue q).totalApply⟩
  | snapshotDone i =>
    obtain ⟨hv, hq⟩ := hpc
    refine ⟨h.lastCheckScn ▸ hv, fun q hi => ?_⟩
    rw [(h.queue q).lastCheck]
    exact (hq q hi).trans (h.queue q).totalApply
  | getMaxScn => exact h.role.trans hpc
  | getRole m =>
    obtain ⟨hrole, hv, hle, ho⟩ := hpc
    refine ⟨h.role.trans hrole, hv, h.maxAppliedCbScn ▸ hle, fun hlead hpid => ?_⟩
    obtain ⟨n, hn⟩ := hr.fin.term hrole
    rw [h.proposalId] at hpid
    obtain ⟨⟨hlead', hpid'⟩, -⟩ := h.leads _ (hr.log.term _ n hn).2 ⟨hlead, hpid⟩
    exact h.origin hr (ho hlead' hpid')
  | waitAppendSync m appends =>
    obtain ⟨hrole, hv, hle, ho, hin⟩ := hpc
    refine ⟨h.role.trans hrole, hv, h.maxAppliedCbScn ▸ hle, h.origin hr ho, fun e he => ?_⟩
    rcases h.inFlight e he with hin' | hfresh
    · exact hin e hin'
    · exact .inr (ho.lt_fresh hr hfresh)
  | setSnapshot m i =>
    obtain ⟨hrole, hv, hle, ho, hs, hq⟩ := hpc
    exact ⟨h.role.trans hrole, hv, h.maxAppliedCbScn ▸ hle, h.origin hr ho, h.synced hr ho hs,
      fun q hi => h.snap hs (hq q hi)⟩
  | done ret => exact hpc

theorem Checked.grows (hc : Checked r scn) (hr : ReplicaInv r) (h : Grows r r') : Checked r' scn :=
  ⟨h.role.trans hc.role, h.maxAppliedCbScn ▸ hc.le, h.origin hr hc.origin,
    h.synced hr hc.origin hc.synced, fun q => h.snap hc.synced (hc.snap q)⟩

theorem AppliedInv.move (h : AppliedInv s) (hm : Replica.Move s.replica r') :
    AppliedInv { s with replica := r' } := by
  have hg := hm.grows h.replica
  have hmax : r'.status.maxAppliedCbScn = s.status.maxAppliedCbScn := hg.maxAppliedCbScn
  have hlast : r'.status.lastCheckScn = s.status.lastCheckScn := hg.lastCheckScn
  refine ⟨h.replica.move hm, ?_, ?_, ?_, h.pc.grows h.replica hg, h.success, ?_, h.sorted⟩
  · show Sound r' r'.status.maxAppliedCbScn
    rw [hmax]
    exact hg.sound h.sound fun e hv hfresh =>
      lt_of_le_of_lt (h.bounded.le_maxScn h.replica hv) hfresh.follows.2.2.1
  · show Bounded r' r'.status.maxAppliedCbScn
    rw [hmax]
    exact hg.bounded h.replica h.bounded
  · show scnIsValid r'.status.lastCheckScn → Checked r' r'.status.lastCheckScn
    rw [hlast]
    exact fun hv => (h.check hv).grows h.replica hg
  · show ∀ x ∈ s.results, scnLe x.2 r'.status.maxAppliedCbScn
    rw [hmax]
    exact h.results_le

/-! ## The call -/

namespace AppliedInv

variable {i m : ℕ}

section

variable (h : AppliedInv s)
include h

theorem goto {pc} (hpc : PcInv s.replica pc) : AppliedInv (s.goto pc) :=
  { h with pc := hpc }

theorem adopt (hle : scnLe s.status.maxAppliedCbScn scn)
    (hsound : Sound s.replica scn) (hbounded : Bounded s.replica scn)
    (hcheck : scnIsValid s.status.lastCheckScn → scnLe scn s.status.lastCheckScn)
    {pc} (hpc : PcInv { s.replica with
      status := { s.status with maxAppliedCbScn := scn } } pc) :
    AppliedInv ((s.setStatus { s.status with maxAppliedCbScn := scn }).goto pc) := by
  refine ⟨h.replica.withScns s.status.lastCheckScn scn, hsound, hbounded, fun hv => ?_, hpc,
    h.success, fun x hx => scnLe_trans (h.results_le x hx) hle, h.sorted⟩
  have hc := h.check hv
  exact { hc with le := hcheck hv }

theorem enter : AppliedInv s.enter := by
  unfold AppliedState.enter
  split_ifs with hrole hgt heq hcheck hlt
  · -- on a follower the value is not above the committed end
    refine absurd hgt (not_scnLt.mpr fun hv => ?_)
    rcases h.bounded hv with hle | ⟨hlead, -⟩
    · exact hle
    · exact absurd (hlead.symm.trans hrole) nofun
  · exact h.goto rfl
  · exact h.goto ⟨hrole, rfl, fun q hq => absurd hq (not_lt_zero _)⟩
  · apply h.goto
    cases hr : s.status.role with
    | leader => exact hr
    | follower => exact absurd hr hrole
  · have hv : scnIsValid s.status.lastCheckScn := not_not.mp (not_or.mp hcheck).1
    exact h.goto ⟨hv, fun q hq => absurd hq (not_lt_zero _)⟩
  · -- the snapshot is not below the value, and not equal to it
    obtain ⟨hv, hne⟩ := not_or.mp hcheck
    obtain ⟨hv', hnlt⟩ := not_or.mp hlt
    have hv := not_not.mp hv
    have hv' := not_not.mp hv'
    obtain ⟨-, hle⟩ := (h.check hv).le hv'
    exact absurd ((scnLt_of_valid hv' hv).mpr (lt_of_le_of_ne hle (Ne.symm hne))) hnlt

/-- **A follower adopts the committed end** when all queues were found empty. -/
theorem applyCnt {cur} (hpc : s.pc = .applyCnt i cur) : AppliedInv (s.applyCnt i cur) := by
  have hfound := h.pc
  rw [hpc] at hfound
  obtain ⟨hrole, hcur, hq⟩ := hfound
  unfold AppliedState.applyCnt
  split_ifs with hi hlt
  · exact h.goto ⟨⟨hrole, hcur, hq⟩, ⟨i, hi⟩, rfl, le_rfl⟩
  · refine h.adopt (fun hv => ⟨hlt.1, (hlt.2 hv).le⟩) ?_ (fun _ => .inl ?_) ?_ rfl
    · rintro - e (hin | ⟨q, hmem⟩)
      · rw [h.replica.fin.follower hrole] at hin
        exact absurd hin List.not_mem_nil
      · rw [hq q (lt_of_lt_of_le q.isLt (not_lt.mp hi))] at hmem
        exact absurd hmem List.not_mem_nil
    · exact ⟨hcur ▸ hlt.1, hcur.le⟩
    · intro hv
      exact absurd ((h.check hv).role.symm.trans hrole) nofun
  · exact h.goto rfl

open CbQueue

theorem submitCnt {cur a} (hpc : s.pc = .submitCnt i cur a) : AppliedInv (s.submitCnt i cur a) := by
  have hfound := h.pc
  rw [hpc] at hfound
  obtain ⟨⟨hrole, hcur, hq⟩, q, rfl, ha⟩ := hfound
  have happlied : (s.status.cbQueues q).totalApplyCbCnt ≤ (s.status.cbQueues q).executed.length :=
    (le_add_right _ _).trans (h.replica.cbs.applied q)
  have hcounted : (s.status.cbQueues q).pushed.length ≤ (s.status.cbQueues q).totalSubmitCbCnt :=
    (le_add_right _ _).trans (h.replica.cbs.counted q)
  have hlen : (s.status.cbQueues q).pushed.length =
      (s.status.cbQueues q).executed.length + (s.status.cbQueues q).pending.length := by
    simp [pushed]
  have ha : a ≤ (s.status.cbQueues q).totalApplyCbCnt := ha
  unfold submitCnt
  rw [dif_pos q.isLt]
  split_ifs with hlt heq
  · have hlt : (s.status.cbQueues q).totalSubmitCbCnt < a := hlt
    omega
  · have heq : a = (s.status.cbQueues q).totalSubmitCbCnt := heq
    refine h.goto ⟨hrole, hcur, fun q' hq' => ?_⟩
    rcases Nat.lt_succ_iff_lt_or_eq.mp hq' with hlt' | heq'
    · exact hq q' hlt'
    rw [Fin.ext heq']
    exact eq_nil_of_length_eq_zero (show (s.status.cbQueues q).pending.length = 0 by omega)
  · exact h.goto rfl

/-- **A leader adopts the snapshot** when all queues have executed what was submitted before it. -/
theorem snapshotDone (hpc : s.pc = .snapshotDone i) : AppliedInv (s.snapshotDone i) := by
  have hfound := h.pc
  rw [hpc] at hfound
  obtain ⟨hv, hq⟩ := hfound
  have hc : Checked s.replica s.status.lastCheckScn := h.check hv
  unfold AppliedState.snapshotDone
  split_ifs with hi hdone
  · refine h.goto ⟨hv, fun q hlt => ?_⟩
    rcases Nat.lt_succ_iff_lt_or_eq.mp hlt with hlt' | rfl
    · exact hq q hlt'
    · exact of_decide_eq_true hdone
  · exact h.goto rfl
  have hsound : Sound s.replica s.status.lastCheckScn := by
    rintro - e (hin | ⟨q, hmem⟩)
    · exact hc.synced e hin
    -- callbacks that wait are behind the executed ones, and so behind the snapshot
    apply hc.snap q e
    have hle : (s.replica.status.cbQueues q).lastCheckSubmitCbCnt ≤
        ((s.replica.status.cbQueues q).executed.map Prod.fst).length := by
      rw [List.length_map]
      exact ((hq q (lt_of_lt_of_le q.isLt (not_lt.mp hi))).trans (le_add_right _ _)).trans
        (h.replica.cbs.applied q)
    rw [pushed, List.drop_append_of_le_length hle]
    exact List.mem_append_right _ hmem
  refine h.adopt hc.le hsound (fun _ => ?_) (fun _ => scnLe_refl _) hc.role
  obtain ⟨n, hn, hle | ⟨e, he, hpid, heq⟩⟩ := hc.origin
  · exact .inr ⟨hc.role, n, hn, hle⟩
  left
  have hdone : ¬ s.replica.Waiting e := fun hw => absurd (hsound hv e hw) (heq ▸ lt_irrefl _)
  rw [← heq]
  exact h.replica.fin.scn_le_of_executed hc.role he hpid hdone

theorem getMaxScn (hpc : s.pc = .getMaxScn) :
    AppliedInv (s.goto (.getRole s.replica.palf.maxScn)) := by
  have hrole := h.pc
  rw [hpc] at hrole
  obtain ⟨n, hn⟩ := h.replica.fin.term hrole
  have hv : scnIsValid s.replica.palf.maxScn := h.replica.log.wf.scnIsValid_scnAt _
  refine h.goto ⟨hrole, hv, fun hv' => ⟨hv, h.bounded.le_maxScn h.replica hv'⟩,
    fun hlead hpid => ?_⟩
  refine ⟨n, hn, ?_⟩
  rw [← hpid] at hn ⊢
  exact h.replica.log.maxScn_origin hlead hn

theorem getRole (hpc : s.pc = .getRole m) {isLeader}
    (hlead : isLeader = true → s.replica.palf.isLeader = true) :
    AppliedInv (s.getRole m isLeader) := by
  have hfound := h.pc
  rw [hpc] at hfound
  obtain ⟨hrole, hv, hle, ho⟩ := hfound
  unfold AppliedState.getRole
  split_ifs with hgt hpid hlt
  · exact absurd hgt.2 (not_scnLt.mpr hle)
  · -- PALF has been in the term of the apply status
    obtain ⟨n, hn⟩ := h.replica.fin.term hrole
    exact absurd hlt (not_lt.mpr (h.replica.log.term _ n hn).2)
  · exact h.goto rfl
  · obtain ⟨hpid, hl⟩ := not_or.mp hpid
    exact h.goto ⟨hrole, hv, hle, ho (hlead (Bool.of_not_eq_false hl)) (not_not.mp hpid),
      fun e he => .inl he⟩

theorem waitAppendSync {appends} (hpc : s.pc = .waitAppendSync m appends)
    (hwait : ∀ e ∈ appends, e ∉ s.replica.inFlight.map Prod.fst) :
    AppliedInv (s.goto (.setSnapshot m 0)) := by
  have hfound := h.pc
  rw [hpc] at hfound
  obtain ⟨hrole, hv, hle, ho, hin⟩ := hfound
  refine h.goto ⟨hrole, hv, hle, ho, fun e he => ?_, fun q hq => absurd hq (not_lt_zero _)⟩
  exact (hin e he).resolve_left fun hmem => hwait e hmem he

/-- **A new snapshot**: the count of submitted callbacks covers all callbacks of the queue. -/
theorem setSnapshot (hpc : s.pc = .setSnapshot m i) : AppliedInv (s.setSnapshot m i) := by
  have hfound := h.pc
  rw [hpc] at hfound
  obtain ⟨hrole, hv, hle, ho, hs, hq⟩ := hfound
  unfold AppliedState.setSnapshot
  split_ifs with hi
  · -- nothing is behind the new snapshot of the queue yet
    have hsnap : ∀ scn, (s.status.cbQueues ⟨i, hi⟩).setSnapshotCheckSubmitCbCnt.Snap scn := by
      intro scn e he
      have hcounted : (s.status.cbQueues ⟨i, hi⟩).pushed.length ≤
          (s.status.cbQueues ⟨i, hi⟩).totalSubmitCbCnt :=
        (le_add_right _ _).trans (h.replica.cbs.counted ⟨i, hi⟩)
      rw [pushed_setSnapshot] at he
      rw [setSnapshotCheckSubmitCbCnt, List.drop_eq_nil_of_le hcounted] at he
      exact absurd he List.not_mem_nil
    have hpend : ∀ {e}, (s.replica.setQueue ⟨i, hi⟩
        (s.status.cbQueues ⟨i, hi⟩).setSnapshotCheckSubmitCbCnt).Waiting e ↔ s.replica.Waiting e :=
      or_congr_right (Replica.pending_setQueue pending_setSnapshot)
    refine ⟨⟨h.replica.log, h.replica.cbs.setQueue pushed_setSnapshot rfl
      (h.replica.cbs.applied ⟨i, hi⟩), h.replica.fin.setQueue pending_setSnapshot
      (h.replica.fin.worker ⟨i, hi⟩)⟩, fun hv e he => h.sound hv e (hpend.mp he), h.bounded,
      fun hv => ?_, ⟨hrole, hv, hle, ho, hs, ?_⟩, h.success, h.results_le, h.sorted⟩
    · have hc := h.check hv
      exact ⟨hc.role, hc.le, hc.origin, hc.synced, Replica.forall_setQueue
        (P := fun _ y => y.Snap s.status.lastCheckScn) hc.snap (hsnap _)⟩
    intro q hlt
    rcases Nat.lt_succ_iff_lt_or_eq.mp hlt with hlt' | rfl
    · refine Replica.forall_setQueue (P := fun q' y => q'.val < i → y.Snap m) hq ?_ q hlt'
      exact fun _ => hsnap m
    show ((s.replica.setQueue q
      (s.status.cbQueues q).setSnapshotCheckSubmitCbCnt).status.cbQueues q).Snap m
    rw [Replica.cbQueues_self]
    exact hsnap m
  · have hsnap : ∀ q, (s.replica.status.cbQueues q).Snap m :=
      fun q => hq q (lt_of_lt_of_le q.isLt (not_lt.mp hi))
    exact { h with
      replica := h.replica.withScns m s.status.maxAppliedCbScn,
        check := fun _ => ⟨hrole, hle, ho, hs, hsnap⟩, pc := rfl }

theorem done {ret} (hpc : s.pc = .done ret) :
    AppliedInv { s with
      pc := .idle, results := s.results ++ [(ret, s.status.maxAppliedCbScn)] } := by
  have hret := h.pc
  rw [hpc] at hret
  refine ⟨h.replica, h.sound, h.bounded, h.check, trivial, ?_, ?_, ?_⟩
  · intro x hx
    rcases mem_append.mp hx with hx | hx
    · exact h.success x hx
    rw [mem_singleton.mp hx]
    exact hret
  · intro x hx
    rcases mem_append.mp hx with hx | hx
    · exact h.results_le x hx
    rw [mem_singleton.mp hx]
    exact scnLe_refl _
  · refine pairwise_append.mpr ⟨h.sorted, pairwise_singleton _ _, ?_⟩
    intro x hx y hy
    rw [mem_singleton.mp hy]
    exact h.results_le x hx

theorem read {isLeader} (hs : s.read isLeader = some s') : AppliedInv s' := by
  unfold AppliedState.read at hs
  split at hs
  case h_1 hpc => exact Option.some.inj hs ▸ h.enter
  case h_2 hpc => exact Option.some.inj hs ▸ h.applyCnt hpc
  case h_3 hpc => exact Option.some.inj hs ▸ h.submitCnt hpc
  case h_4 hpc => exact Option.some.inj hs ▸ h.snapshotDone hpc
  case h_5 hpc => exact Option.some.inj hs ▸ h.getMaxScn hpc
  case h_6 hpc =>
    obtain ⟨hlead, hs⟩ := Option.ite_none_right_eq_some.mp hs
    exact Option.some.inj hs ▸ h.getRole hpc hlead
  case h_7 hpc =>
    obtain ⟨hwait, hs⟩ := Option.ite_none_right_eq_some.mp hs
    exact Option.some.inj hs ▸ h.waitAppendSync hpc hwait
  case h_8 hpc => exact Option.some.inj hs ▸ h.setSnapshot hpc
  case h_9 hpc => exact Option.some.inj hs ▸ h.done hpc

end

end AppliedInv

/-! ## Role changes -/

namespace AppliedInv

section

variable (h : AppliedInv s)
include h

theorem switchToLeader {pid} (hlock : s.LockFree)
    (hpid : s.status.proposalId < pid) (hterm : (s.replica.palf.termStart pid).isSome) :
    AppliedInv (s.setStatus (s.status.switchToLeader pid).2) := by
  unfold ApplyStatus.switchToLeader
  rw [if_neg hpid.not_gt]
  split_ifs with hrole
  · exact h
  have hfol : s.replica.status.role = .follower := by
    cases hr : s.replica.status.role with
    | leader => exact absurd hr hrole
    | follower => rfl
  obtain ⟨n, hn⟩ := isSome_iff_exists.mp hterm
  -- the term is new to the apply status, so none of its entries was given out
  have hnew : ∀ e ∈ s.replica.palf.given, e.proposalId = pid →
      s.replica.Waiting e ∨ e.lsn < s.replica.status.palfCommittedEndLsn := by
    intro e he heq
    exact absurd ((h.replica.fin.given_le e he).trans_lt hpid) (heq ▸ lt_irrefl _)
  refine ⟨⟨h.replica.log, ⟨h.replica.cbs.located, h.replica.cbs.counted, h.replica.cbs.applied⟩,
    h.replica.fin.switchToLeader hlock.2 hfol hpid.le hn hnew⟩, h.sound, fun hv => ?_, fun hv => ?_,
    ?_, h.success, h.results_le, h.sorted⟩
  · rcases h.bounded hv with hle | ⟨hlead, -⟩
    · exact .inl hle
    · exact absurd hlead hrole
  · exact absurd (h.check hv).role hrole
  · show PcInv _ s.pc
    rw [hlock.1]
    trivial

/-- **A follower keeps the value of the leader it was**, if a report has covered the log its term
began with: the value is not above the committed end then. -/
theorem switchToFollower (hlock : s.LockFree)
    (hok : s.status.role = .leader → s.AppendsDone ∧ s.TermReported) :
    AppliedInv (s.setStatus s.status.switchToFollower) := by
  unfold ApplyStatus.switchToFollower
  split_ifs with hrole
  · exact h
  have hlead : s.status.role = .leader := by
    cases hr : s.status.role with
    | leader => rfl
    | follower => exact absurd hr hrole
  obtain ⟨⟨hin, hopen⟩, hvc, hrep⟩ := hok hlead
  refine ⟨⟨h.replica.log, ⟨h.replica.cbs.located, h.replica.cbs.counted, h.replica.cbs.applied⟩,
    h.replica.fin.switchToFollower hlock.2 hin hopen⟩, h.sound, fun hv => .inl ⟨hvc, ?_⟩,
    fun hv => absurd hv not_scnIsValid_invalidScn, ?_, h.success, h.results_le, h.sorted⟩
  · rcases h.bounded hv with ⟨-, hle⟩ | ⟨-, n, hn, hle⟩
    · exact hle
    apply hle.trans
    have hend := hrep n hn
    have hfin : s.replica.reportedEnd = s.status.palfCommittedEndLsn := by
      simp [Replica.reportedEnd, hlock.2.2, status]
    rcases h.replica.fin.cut with ⟨hinv, -⟩ | ⟨k, hk, hklsn, hkscn⟩
    · exact absurd hvc hinv
    -- a prefix of the log that does not end later is not longer
    have hlen := (h.replica.log.term _ n hn).1.trans h.replica.log.wf.committed_le
    have hnk : n ≤ k := by
      by_contra hlt
      have := (h.replica.log.wf.at_lt (not_le.mp hlt) hlen).1
      rw [hklsn, hfin] at this
      exact absurd hend (not_le.mpr this)
    have hscn := (h.replica.log.wf.at_le hnk (hk.trans h.replica.log.wf.committed_le)).2
    exact hscn.trans hkscn.le
  · show PcInv _ s.pc
    rw [hlock.1]
    trivial

theorem withHandler {role pid}
    (hfin : EndInv { s.replica with handlerRole := role, handlerProposalId := pid }) :
    AppliedInv { s with
      replica := { s.replica with handlerRole := role, handlerProposalId := pid } } := by
  refine { h with
    replica := ⟨h.replica.log,
      ⟨h.replica.cbs.located, h.replica.cbs.counted, h.replica.cbs.applied⟩, hfin⟩,
        check := fun hv => ?_, pc := ?_ }
  · exact { h.check hv with }
  have hpc := h.pc
  cases hp : s.pc <;> rw [hp] at hpc <;> exact hpc

theorem step {a} (hok : FollowerIf (fun s => s.AppendsDone ∧ s.TermReported) s a)
    (hs : s.step a = some s') : AppliedInv s' := by
  cases a with
  | replica a =>
    obtain ⟨r, hr, rfl⟩ := map_eq_some_iff.mp hs
    exact h.move (Replica.step_move hr)
  | switchToLeader pid =>
    obtain ⟨⟨hlock, hpid, hterm⟩, hs⟩ := ite_none_right_eq_some.mp hs
    exact some.inj hs ▸ h.switchToLeader hlock hpid hterm
  | switchToFollower =>
    obtain ⟨hlock, hs⟩ := ite_none_right_eq_some.mp hs
    exact some.inj hs ▸ h.switchToFollower hlock hok
  | openHandler =>
    obtain ⟨⟨hrole, -⟩, hs⟩ := ite_none_right_eq_some.mp hs
    exact some.inj hs ▸ h.withHandler (h.replica.fin.openHandler h.replica.log hrole)
  | closeHandler =>
    obtain ⟨-, hs⟩ := ite_none_right_eq_some.mp hs
    exact some.inj hs ▸ h.withHandler
      (h.replica.fin.closeHandler h.replica.fin.handler_le)
  | read isLeader => exact h.read hs

end

theorem init (h : s.Init) : AppliedInv s := by
  obtain ⟨⟨p, role, pid, inFlight, st, reporting⟩, pc, results⟩ := s
  obtain ⟨hp, rfl, hpid, rfl, rfl, rfl, rfl, rfl⟩ := h
  refine ⟨ReplicaInv.init hp hpid, ?_, ?_, ?_, trivial, nofun, nofun, .nil⟩
  all_goals
    intro hv
    exact absurd hv not_scnIsValid_invalidScn

end AppliedInv

/-! ## Main results -/

theorem AppliedInv.progress (h : AppliedInv s) (hpc : s.pc ≠ .idle) :
    s.AwaitsAppend ∨ ∃ s', s.read false = some s' ∧ s'.pc.rank < s.pc.rank := by
  by_cases hwait : s.AwaitsAppend
  · exact .inl hwait
  right
  unfold AppliedState.AwaitsAppend at hwait
  unfold AppliedState.read
  have hfound := h.pc
  cases hp : s.pc with
  | idle => exact absurd hp hpc
  | applyCnt i cur =>
    refine ⟨_, rfl, ?_⟩
    unfold AppliedState.applyCnt
    split_ifs <;> simp only [AppliedState.goto, ReadPc.rank] <;> omega
  | submitCnt i cur a =>
    rw [hp] at hfound
    obtain ⟨-, q, rfl, -⟩ := hfound
    have hlt := q.isLt
    refine ⟨_, rfl, ?_⟩
    unfold AppliedState.submitCnt
    rw [dif_pos hlt]
    split_ifs <;> simp only [AppliedState.goto, ReadPc.rank] <;> omega
  | snapshotDone i =>
    refine ⟨_, rfl, ?_⟩
    unfold AppliedState.snapshotDone
    split_ifs <;> simp only [AppliedState.goto, ReadPc.rank] <;> omega
  | getMaxScn => exact ⟨_, rfl, by simp only [AppliedState.goto, ReadPc.rank]; omega⟩
  | getRole m =>
    refine ⟨_, if_pos nofun, ?_⟩
    unfold AppliedState.getRole
    split_ifs <;> simp only [AppliedState.goto, ReadPc.rank] <;> omega
  | waitAppendSync m appends =>
    simp only [hp] at hwait
    refine ⟨_, if_pos fun e he hin => hwait ⟨e, he, hin⟩, ?_⟩
    simp only [AppliedState.goto, ReadPc.rank]
    omega
  | setSnapshot m i =>
    refine ⟨_, rfl, ?_⟩
    unfold AppliedState.setSnapshot
    split_ifs <;> simp only [AppliedState.goto, ReadPc.rank] <;> omega
  | done ret => exact ⟨_, rfl, one_pos⟩

/-- **The reported apply position is sound.** If a leader becomes follower only when its appends are
done and a report has covered the log its term began with, then all calls of `get_max_applied_scn`
are successful, no value is smaller than a valid one before it, all callbacks up to a value are
executed, and a call ends unless it waits for an append. -/
theorem maxAppliedScn_sound
    (h : (appliedScn (AppliedState.FollowerIf fun s => s.AppendsDone ∧ s.TermReported)).Reachable
    s) : (∀ x ∈ s.results, x.1 = .success) ∧
      (s.results.Pairwise fun x y => scnIsValid x.2 → scnIsValid y.2 ∧ x.2 ≤ y.2) ∧
      (∀ x ∈ s.results, scnIsValid x.2 →
        ∀ e, s.status.Pushed e → e.scn ≤ x.2 → s.status.Executed e) ∧
      (s.pc = .idle ∨ s.AwaitsAppend ∨ ∃ s', s.read false = some s' ∧ s'.pc.rank < s.pc.rank) := by
  have hinv : AppliedInv s := by
    refine Machine.Reachable.of_keeps (fun _ => AppliedInv.init) ?_ h
    rintro s s' hs ⟨a, hok, hstep⟩
    exact hs.step hok hstep
  refine ⟨hinv.success, hinv.sorted, ?_, ?_⟩
  · intro x hx hv e ⟨q, hq⟩ hle
    obtain ⟨-, hgiven⟩ := hinv.replica.cbs.queueIdx_of_mem hq
    obtain ⟨hvmax, hmax⟩ := hinv.results_le x hx hv
    refine (hinv.replica.cbs.waiting_or_executed hgiven).resolve_left fun hw => ?_
    exact absurd (hinv.sound hvmax e hw) (not_lt.mpr (hle.trans hmax))
  · by_cases hpc : s.pc = .idle
    · exact .inl hpc
    · exact .inr (hinv.progress hpc)

/-! ### Runs -/

/-- A replica that starts with one entry of an older term, which is committed. -/
def startedReplica : AppliedState where
  replica :=
    { palf :=
        { proposalId := 0
          isLeader := false
          baseLsn := 0
          baseScn := 0
          entries := [⟨0, 100, 10, 0⟩]
          committed := 1
          slid := 0
          termStart := fun _ => none
          given := [] }
      handlerRole := .follower
      handlerProposalId := 0
      inFlight := []
      status := .init
      reporting := none }
  pc := .idle
  results := []

theorem startedReplica_init : startedReplica.Init where
  palf :=
    { wf :=
        { sorted := pairwise_singleton _ _
          entry := by
            intro e he
            rw [mem_singleton.mp he]
            exact ⟨le_rfl, show 0 < 100 by decide, show 0 < 10 by decide,
              show scnIsValid 10 by decide⟩
          baseScn := show scnIsValid 0 by decide
          committed_le := le_rfl
          slid_le := zero_le _ }
      pids := by
        intro e he
        rw [mem_singleton.mp he]
        exact le_rfl
      isLeader := rfl
      termStart _ := rfl
      given := rfl }
  handlerRole := rfl
  handlerProposalId := le_rfl
  inFlight := rfl
  status := rfl
  reporting := rfl
  pc := rfl
  results := rfl

/-- The old entry is reported, and PALF and the apply status become leader of the term 1. -/
def becomeLeader : List AppliedState.Act :=
  [.replica (.report 1), .replica (.palf (.lead 1)), .switchToLeader 1]

/-- The first call takes a snapshot, and the second one adopts it and takes the next one. -/
def twoCalls : List AppliedState.Act :=
  List.replicate 38 (.read true) ++ List.replicate 71 (.read true)

/-- An entry of the term, from its append to the end of its callback. -/
def appendAndApply (e : PalfEntry) (n : ℕ) : List AppliedState.Act :=
  [.replica (.append e), .replica (.countAppend 0), .replica (.pushAppend 0),
    .replica (.palf (.commit n)), .replica (.report n), .replica .finishReport,
    .replica (.take e.queueIdx), .replica (.execute e.queueIdx), .replica (.countApply e.queueIdx)]

/-- The replica leads the term 1 with two entries, and is asked as a leader and as a follower. -/
def leadAndFollow : List AppliedState.Act :=
  becomeLeader ++ [.openHandler] ++ appendAndApply ⟨100, 200, 20, 1⟩ 2 ++ twoCalls ++
    appendAndApply ⟨200, 300, 30, 1⟩ 3 ++
    [.replica (.palf .leave), .closeHandler, .switchToFollower] ++ List.replicate 67 (.read false)

theorem maxAppliedScn_sound_leadAndFollow :
    ∃ s, startedReplica.run (AppliedState.FollowerIf fun s => s.AppendsDone ∧ s.TermReported)
        leadAndFollow = some s ∧
      s.results = [(.success, invalidScn), (.success, 20), (.success, 30)] ∧
      (∀ x ∈ s.results, scnIsValid x.2 →
        ∀ e, s.status.Pushed e → e.scn ≤ x.2 → s.status.Executed e) := by
  have hrun : (startedReplica.run (AppliedState.FollowerIf fun s => s.AppendsDone ∧ s.TermReported)
      leadAndFollow).map results =
      some [(.success, invalidScn), (.success, 20), (.success, 30)] := by decide +kernel
  obtain ⟨s, hs, hres⟩ := map_eq_some_iff.mp hrun
  exact ⟨s, hs, hres, (maxAppliedScn_sound (run_reachable (.init startedReplica_init) hs)).2.2.1⟩

/-- The replica leads the term 1 without an entry, is asked, and becomes follower again. -/
def leadWithoutReport : List AppliedState.Act :=
  becomeLeader ++ twoCalls ++ [.replica (.palf .leave), .switchToFollower] ++
    List.replicate 2 (.read false)

/-- **Without a report the next call fails.** The leader has adopted the SCN 10 of the log its term
began with, and as a follower it compares it with a committed end that was never set. -/
theorem maxAppliedScn_unreported :
    ∃ s, (appliedScn (AppliedState.FollowerIf AppliedState.AppendsDone)).Reachable s ∧
      (ApplyRet.errUnexpected, 10) ∈ s.results := by
  have hrun : (startedReplica.run (AppliedState.FollowerIf AppliedState.AppendsDone)
      leadWithoutReport).map results =
      some [(.success, invalidScn), (.success, 10), (.errUnexpected, 10)] := by decide +kernel
  obtain ⟨s, hs, hres⟩ := map_eq_some_iff.mp hrun
  refine ⟨s, run_reachable (.init startedReplica_init) hs, ?_⟩
  rw [hres]
  simp

end OceanBase.Apply
