import OceanBase.Apply.CommittedEnd

/-!
# What a replica may do

Whoever works with a replica from outside, as a call of `get_max_applied_scn` or a role change does,
needs to know what happens to it in the meantime: entries are appended above all others, callbacks
move on and are executed for the right reason, reports of the term come in, and PALF's log keeps its
committed part. All of this is said once here, for every move.

## Main results

* `Replica.Move.grows`: the moves of a replica let it grow
-/

namespace OceanBase.Apply

open Palf List CbQueue

variable {r r' : Replica} {e : PalfEntry}

/-! ## What a move may do -/

namespace Replica

def Leads (r : Replica) (pid : ℤ) : Prop := r.palf.isLeader = true ∧ r.palf.proposalId = pid

structure Fresh (r : Replica) (e : PalfEntry) : Prop where
  isOpen : r.AppendOpen
  follows : r.palf.Follows e
  proposalId : e.proposalId = r.palf.proposalId

end Replica

/-- The queue has only got callbacks from the appends that are on the way, and executed callbacks
for the right reason. -/
structure CbQueue.Grows (r : Replica) (x y : CbQueue) : Prop where
  lastCheck : y.lastCheckSubmitCbCnt = x.lastCheckSubmitCbCnt
  totalApply : x.totalApplyCbCnt ≤ y.totalApplyCbCnt
  pushed : ∃ l, y.pushed = x.pushed ++ l ∧ ∀ e ∈ l, e ∈ r.inFlight.map Prod.fst
  pending : ∀ e ∈ y.pending, e ∈ x.pending ∨ e ∈ r.inFlight.map Prod.fst
  executed : ∃ l, y.executed = x.executed ++ l ∧ ∀ z ∈ l, z.1 ∈ x.pending ∧
    if z.2 then z.1.lsn < r.status.palfCommittedEndLsn
    else r.status.role = .follower ∧ r.status.palfCommittedEndLsn ≤ z.1.lsn

/-- **What a move may do.** -/
structure Grows (r r' : Replica) : Prop where
  role : r'.status.role = r.status.role
  proposalId : r'.status.proposalId = r.status.proposalId
  lastCheckScn : r'.status.lastCheckScn = r.status.lastCheckScn
  maxAppliedCbScn : r'.status.maxAppliedCbScn = r.status.maxAppliedCbScn
  handlerRole : r'.handlerRole = r.handlerRole
  handlerProposalId : r'.handlerProposalId = r.handlerProposalId
  queue : ∀ q, CbQueue.Grows r (r.status.cbQueues q) (r'.status.cbQueues q)
  inFlight : ∀ e ∈ r'.inFlight.map Prod.fst, e ∈ r.inFlight.map Prod.fst ∨ r.Fresh e
  given : ∀ e ∈ r.palf.given, e ∈ r'.palf.given
  agree : r.palf.Agree r'.palf r.palf.committed
  committed_le : r.palf.committed ≤ r'.palf.committed
  term : ∀ pid n, r.palf.termStart pid = some n → r'.palf.termStart pid = some n
  palf_le : r.palf.proposalId ≤ r'.palf.proposalId
  /-- a leader has been leader before, and only appends change its log -/
  leads : ∀ pid, pid ≤ r.palf.proposalId → r'.Leads pid →
    r.Leads pid ∧ (r.AppendOpen ∨ r'.palf.entries = r.palf.entries)
  committedEndLsn : r.status.palfCommittedEndLsn ≤ r'.status.palfCommittedEndLsn
  /-- a report is about a committed entry of the term -/
  report : r'.reportedEnd = r.reportedEnd ∧
      r'.status.palfCommittedEndScn = r.status.palfCommittedEndScn ∨
    r.status.role = .leader ∧ ∃ k a, k < r.palf.committed ∧ r.palf.entries[k]? = some a ∧
      a.proposalId = r.status.proposalId ∧ r.reporting = none ∧ r.reportedEnd < a.endLsn ∧
      r'.reportedEnd = a.endLsn ∧ r'.status.palfCommittedEndScn = a.scn

theorem CbQueue.Grows.refl (r : Replica) (x : CbQueue) : Grows r x x :=
  ⟨rfl, le_rfl, ⟨[], (append_nil _).symm, nofun⟩, fun _ he => .inl he,
    ⟨[], (append_nil _).symm, nofun⟩⟩

theorem CbQueue.Grows.update {q x} (hx : Grows r (r.status.cbQueues q) x) (q' : CbQueueIdx) :
    Grows r (r.status.cbQueues q') ((r.setQueue q x).status.cbQueues q') :=
  Replica.forall_setQueue (P := fun q' y => Grows r (r.status.cbQueues q') y)
    (fun _ => .refl _ _) hx q'

theorem CbQueue.Grows.of_eq {x y : CbQueue}
    (hlast : y.lastCheckSubmitCbCnt = x.lastCheckSubmitCbCnt)
    (happly : x.totalApplyCbCnt ≤ y.totalApplyCbCnt) (hpushed : y.pushed = x.pushed)
    (hpend : y.pending = x.pending) (hexec : y.executed = x.executed) : Grows r x y :=
  ⟨hlast, happly, ⟨[], by rw [hpushed, append_nil], nofun⟩, fun _ he => .inl (hpend ▸ he),
    ⟨[], by rw [hexec, append_nil], nofun⟩⟩

theorem Grows.withCbs {inFlight : List (PalfEntry × Bool)} {qs : CbQueueIdx → CbQueue}
    (hq : ∀ q, CbQueue.Grows r (r.status.cbQueues q) (qs q))
    (hin : ∀ e ∈ inFlight.map Prod.fst, e ∈ r.inFlight.map Prod.fst) :
    Grows r { r with inFlight := inFlight, status := { r.status with cbQueues := qs } } where
  role := rfl
  proposalId := rfl
  lastCheckScn := rfl
  maxAppliedCbScn := rfl
  handlerRole := rfl
  handlerProposalId := rfl
  queue := hq
  inFlight e he := .inl (hin e he)
  given _ he := he
  agree := ⟨rfl, rfl, fun _ _ => rfl⟩
  committed_le := le_rfl
  term _ _ hn := hn
  palf_le := le_rfl
  leads _ _ hl := ⟨hl, .inr rfl⟩
  committedEndLsn := le_rfl
  report := .inl ⟨rfl, rfl⟩

theorem Grows.refl (r : Replica) : Grows r r :=
  .withCbs (fun _ => .refl r _) fun _ he => he

theorem Grows.palf (h : ReplicaInv r) {p} (hp : PalfView.Move r.palf p) :
    Grows r { r with palf := p } := by
  obtain ⟨hagree, hcom⟩ := hp.agree h.log.wf
  refine { Grows.refl r with
    given := fun _ he => hp.given_eq ▸ he, agree := hagree, committed_le := hcom
    term := fun pid n hn => h.log.termStart_eq hp hn, palf_le := hp.proposalId_le, leads := ?_ }
  rintro pid hle ⟨hlead, hpid⟩
  have hold := hp.leads hlead hpid hle
  refine ⟨hold, .inr ?_⟩
  cases hp with
  | lead | leave | newTerm | commit => rfl
  | truncate n hrole | receive e hrole => exact absurd (hrole.symm.trans hold.1) nofun

theorem Replica.Move.grows (h : ReplicaInv r) (hm : Replica.Move r r') : Grows r r' := by
  cases hm with
  | palf hp => exact .palf h hp
  | append e hopen hfol hpid =>
    have hagree := PalfView.agree_append r.palf e
    refine { Grows.refl r with
      inFlight := fun a ha => ?_, given := fun _ he => mem_append_left _ he
      agree := ⟨rfl, rfl, fun i hi => hagree.entries i (hi.trans_le h.log.wf.committed_le)⟩
      leads := fun _ _ hl => ⟨hl, .inl hopen⟩ }
    simp only [Replica.append, map_append, mem_append, map_cons, map_nil, mem_singleton] at ha
    rcases ha with ha | rfl
    · exact .inl ha
    · exact .inr ⟨hopen, hfol, hpid⟩
  | countAppend l l' hin =>
    refine Grows.withCbs (CbQueue.Grows.update (.of_eq rfl le_rfl rfl rfl rfl)) ?_
    simp [hin]
  | @pushAppend e l l' hin =>
    have hmem : e ∈ r.inFlight.map Prod.fst := by simp [hin]
    refine Grows.withCbs (CbQueue.Grows.update ⟨rfl, le_rfl, ⟨[e], pushed_push, ?_⟩, ?_,
      ⟨[], (append_nil _).symm, by simp⟩⟩) ?_
    · intro a ha
      rwa [mem_singleton.mp ha]
    · intro a ha
      rw [pending_push] at ha
      rcases mem_append.mp ha with ha | ha
      · exact .inl ha
      rw [mem_singleton.mp ha]
      exact .inr hmem
    · intro a ha
      simp only [hin, map_append, map_cons, mem_append, mem_cons] at ha ⊢
      exact ha.imp_right .inr
  | take q hx =>
    obtain ⟨hpushed, hpend⟩ := pushed_take hx
    obtain ⟨cb, rest, success, -, -, rfl, -⟩ := take_eq_some hx
    exact Grows.withCbs (CbQueue.Grows.update (.of_eq rfl le_rfl hpushed hpend rfl)) fun _ he => he
  | execute q hx =>
    obtain ⟨hpushed, cb, hpend⟩ := pushed_execute hx
    obtain ⟨cb', success, hw, rfl⟩ := execute_eq_some hx
    have hok := h.fin.worker q
    rw [hw] at hok
    refine Grows.withCbs (CbQueue.Grows.update ⟨rfl, le_rfl, ⟨[], ?_, by simp⟩, fun a ha => .inl ?_,
      ⟨[(cb', success)], rfl, ?_⟩⟩) fun _ he => he
    · rw [hpushed, append_nil]
    · rw [hpend]
      exact mem_cons_of_mem _ ha
    intro z hz
    rw [mem_singleton.mp hz]
    refine ⟨?_, hok⟩
    simp [pending, running, hw]
  | countApply q hx =>
    obtain ⟨hpushed, hpend⟩ := pushed_incTotalApplyCbCnt hx
    obtain ⟨-, rfl⟩ := incTotalApplyCbCnt_eq_some hx
    exact Grows.withCbs (CbQueue.Grows.update (.of_eq rfl (Nat.le_succ _) hpushed hpend rfl))
      fun _ he => he
  | skipReport n => exact { Grows.refl r with agree := ⟨rfl, rfl, fun _ _ => rfl⟩ }
  | @startReport n e hidle hslid hcom he hpid hrole hlsn =>
    have hend : r.reportedEnd < e.endLsn := by
      simpa [Replica.reportedEnd, hidle] using hlsn
    exact { Grows.refl r with
      agree := ⟨rfl, rfl, fun _ _ => rfl⟩
      report := .inr ⟨hrole, n - 1, e, by omega, he, hpid, hidle, hend, rfl, rfl⟩ }
  | finishReport hrep =>
    have hend := (h.fin.reporting _ hrep).2
    refine { Grows.refl r with committedEndLsn := hend.le, report := .inl ⟨?_, rfl⟩ }
    simp [Replica.reportedEnd, hrep]

namespace Grows

theorem waiting (h : Grows r r') (he : r'.Waiting e) : r.Waiting e ∨ r.Fresh e := by
  rcases he with hin | ⟨q, hq⟩
  · exact (h.inFlight e hin).imp_left .inl
  rcases (h.queue q).pending e hq with hpend | hin
  · exact .inl (.inr ⟨q, hpend⟩)
  · exact .inl (.inl hin)

theorem at_term (h : Grows r r') (hr : ReplicaInv r) {pid n} (hn : r.palf.termStart pid = some n) :
    r'.palf.endLsnAt n = r.palf.endLsnAt n ∧ r'.palf.scnAt n = r.palf.scnAt n :=
  hr.log.at_term h.agree hn

theorem committedEndScn (h : Grows r r') (hr : ReplicaInv r) :
    scnLe r.status.palfCommittedEndScn r'.status.palfCommittedEndScn := by
  rcases h.report with ⟨-, hscn⟩ | ⟨-, k, a, hk, ha, -, -, hlt, -, hscn⟩
  · rw [hscn]
    exact scnLe_refl _
  · rw [hscn]
    exact hr.fin.scnLe_of_lt hr.log hk ha hlt

theorem follower (h : Grows r r') (hrole : r.status.role = .follower) :
    r'.reportedEnd = r.reportedEnd ∧
      r'.status.palfCommittedEndScn = r.status.palfCommittedEndScn := by
  rcases h.report with heq | ⟨hlead, -⟩
  · exact heq
  · exact absurd (hlead.symm.trans hrole) nofun

end Grows

end OceanBase.Apply
