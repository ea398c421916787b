import OceanBase.Tablelock.Records

/-!
# What a step does to the records

Every step of the transactions on an object is one of a few moves: a lock or an unlock operation is
recorded, an operation of a transaction is removed or completed, a list is compacted, a transaction
goes on to another phase, or an empty object is replaced. The object, the lists of the transactions
and their phases fit together in every run, whatever the requests are. What is proved of the moves
holds of the runs.

## Main results

* `Base.move_of_step`: every step is a move
-/

namespace OceanBase.Tablelock

open TableLockOp Records List State

/-- The transaction commits or has committed. -/
def Phase.isCommit : Phase → Bool
  | .committing | .compacting _ _ | .ended => true
  | .running | .rollingBack _ | .aborting => false

theorem isCommit_of_isRunning {p : Phase} (h : p.isRunning = true) : p.isCommit = false := by
  cases p <;> first | rfl | cases h

/-- What is to be rolled back is in the list, and nothing is left at the end. -/
def ObLockMemCtx.Ok (c : ObLockMemCtx) : Prop :=
  match c.phase with
  | .rollingBack todo => todo.Sublist c.lockList
  | .ended => c.lockList = []
  | _ => True

/-- The object, the lists and the phases fit together. -/
structure Base (H : List TableLockOp) (s : State) : Prop where
  records : Records H s.obj fun t => (s.ctx t).lockList
  /-- Only operations outside of transactions become complete, when their transactions commit. -/
  outside : ∀ h ∈ H, h.lockOpStatus = .complete →
    (h.opType = .outTransLock ∨ h.opType = .outTransUnlock) ∧
      (s.ctx h.createTransId).phase.isCommit = true
  phases : ∀ t, (s.ctx t).Ok

variable {H : List TableLockOp} {s : State} {op : TableLockOp} {dbms : Bool}

@[simp] theorem setCtx_ctx_self (s : State) (t : ℕ) (c : ObLockMemCtx) :
    (s.setCtx t c).ctx t = c := by
  simp [setCtx]

theorem setCtx_ctx_of_ne (s : State) {t t'} (h : t' ≠ t) (c : ObLockMemCtx) :
    (s.setCtx t c).ctx t' = s.ctx t' := by
  simp [setCtx, Function.update_of_ne h]

theorem setCtx_lockList (s : State) (t : ℕ) (c : ObLockMemCtx) (t' : ℕ) :
    ((s.setCtx t c).ctx t').lockList = if t' = t then c.lockList else (s.ctx t').lockList := by
  by_cases h : t' = t
  · simp [h]
  · simp [setCtx_ctx_of_ne s h, h]

theorem forall_ctx {P : ObLockMemCtx → Prop} {t c} (hs : ∀ t, P (s.ctx t)) (hc : P c)
    (t' : ℕ) : P ((s.setCtx t c).ctx t') := by
  by_cases h : t' = t
  · simpa [h] using hc
  · simpa [setCtx_ctx_of_ne s h] using hs t'

theorem isCommit_setCtx {t t'} {c : ObLockMemCtx}
    (hcommit : (s.ctx t).phase.isCommit = true → c.phase.isCommit = true)
    (h : (s.ctx t').phase.isCommit = true) : ((s.setCtx t c).ctx t').phase.isCommit = true := by
  by_cases ht : t' = t
  · subst ht
    simpa using hcommit h
  · simpa [setCtx_ctx_of_ne s ht] using h

namespace Base

theorem setPhase (hB : Base H s) (t : ℕ) {p} (hok : ObLockMemCtx.Ok ⟨(s.ctx t).lockList, p⟩)
    (hcommit : (s.ctx t).phase.isCommit = true → p.isCommit = true) : Base H (s.setPhase t p) := by
  have hlists : (fun t' => ((s.setPhase t p).ctx t').lockList) = fun t' => (s.ctx t').lockList := by
    funext t'
    rw [State.setPhase, setCtx_lockList]
    split
    next h => rw [h]
    next => rfl
  refine ⟨hlists ▸ hB.records, fun h hh hc => ?_, forall_ctx hB.phases hok⟩
  obtain ⟨htype, hphase⟩ := hB.outside h hh hc
  exact ⟨htype, isCommit_setCtx hcommit hphase⟩

theorem doing_of_running (hB : Base H s) {h} (hh : h ∈ H)
    (hrun : (s.ctx h.createTransId).phase.isRunning = true) : h.lockOpStatus = .doing := by
  cases hst : h.lockOpStatus with
  | doing => rfl
  | complete =>
  have hcommit := (hB.outside h hh hst).2
  rw [isCommit_of_isRunning hrun] at hcommit
  cases hcommit

theorem key_notMem (hB : Base H s) (hrun : (s.ctx op.createTransId).phase.isRunning = true)
    (hnew : checkLockExist dbms (s.ctx op.createTransId).lockList op = false) :
    op.key ∉ H.map key := by
  intro hmem
  obtain ⟨h, hh, hk⟩ := mem_map.mp hmem
  obtain ⟨ht, howner, htype, hmode⟩ := key_eq_iff.mp hk
  have hdoing := hB.doing_of_running hh (ht ▸ hrun)
  have hlist : h ∈ (s.ctx op.createTransId).lockList := hB.records.mem_lockList.mpr ⟨hh, ht, hdoing⟩
  rw [checkLockExist, any_eq_false] at hnew
  exact hnew h hlist (by simp [howner, htype, hdoing, hmode])

theorem record_phase (s : State) (op : TableLockOp) (t : ℕ) :
    ((s.record op).ctx t).phase = (s.ctx t).phase := by
  by_cases ht : t = op.createTransId
  · simp [record, ht]
  · simp [record, setCtx_ctx_of_ne s ht]

theorem record (hB : Base H s) (hdoing : op.lockOpStatus = .doing)
    (hrun : (s.ctx op.createTransId).phase.isRunning = true) (hnew : op.key ∉ H.map key) :
    Base (H ++ [op]) (s.record op) := by
  refine ⟨hB.records.add hdoing hnew fun t => ?_, fun h hh hc => ?_, forall_ctx hB.phases ?_⟩
  · rw [State.record, setCtx_lockList]
    split
    next ht => rw [ht]
    next => rfl
  · rw [record_phase]
    rcases List.mem_append.mp hh with hh | hh
    · exact hB.outside h hh hc
    rw [List.mem_singleton.mp hh, hdoing] at hc
    cases hc
  · cases hp : (s.ctx op.createTransId).phase <;> simp [hp, Phase.isRunning] at hrun
    simp [ObLockMemCtx.Ok, hp]

theorem erase_lockList (s : State) (op : TableLockOp) (p : Phase) (t : ℕ) :
    ((s.setCtx op.createTransId ⟨(s.ctx op.createTransId).lockList.erase op, p⟩).ctx t).lockList
      = if t = op.createTransId then ((s.ctx t).lockList).erase op else (s.ctx t).lockList := by
  rw [setCtx_lockList]
  split
  next ht => rw [ht]
  next => rfl

theorem remove (hB : Base H s) (hop : op ∈ (s.ctx op.createTransId).lockList) {p}
    (hok : ObLockMemCtx.Ok ⟨(s.ctx op.createTransId).lockList.erase op, p⟩)
    (hcommit : (s.ctx op.createTransId).phase.isCommit = true → p.isCommit = true) :
    Base (del H op) (s.remove op p) := by
  obtain ⟨hmem, -, hdoing⟩ := hB.records.mem_lockList.mp hop
  refine ⟨hB.records.del_records hmem hdoing (erase_lockList s op p), fun h hh hc => ?_,
    forall_ctx hB.phases hok⟩
  obtain ⟨htype, hphase⟩ := hB.outside h (mem_del.mp hh).1 hc
  exact ⟨htype, isCommit_setCtx (c := ⟨_, p⟩) hcommit hphase⟩

/-- **The commit of an operation outside of transactions** finds its record and completes it. -/
theorem complete (hB : Base H s) (hop : op ∈ (s.ctx op.createTransId).lockList)
    (htype : op.opType = .outTransLock ∨ op.opType = .outTransUnlock) :
    ∃ o', s.obj.updateLockStatus op = some o' ∧ Base (H.map op.marked) (s.complete op) := by
  obtain ⟨hmem, -, hdoing⟩ := hB.records.mem_lockList.mp hop
  have hrec : op.needRecordLockOp = true := by
    rcases htype with htype | htype <;> simp [needRecordLockOp, htype]
  obtain ⟨o', hupdate, -, hrecords⟩ :=
    hB.records.mark hmem hrec hdoing (erase_lockList s op .committing)
  have hrecords' : ∀ p, Records (H.map op.marked) o' fun t =>
      ((s.setCtx op.createTransId ⟨(s.ctx op.createTransId).lockList.erase op, p⟩).ctx
        t).lockList :=
    fun p => ⟨hrecords.map, hrecords.counter, fun t => ((erase_lockList s op p t).trans
      (erase_lockList s op .committing t).symm).trans (hrecords.lockList t), hrecords.keys⟩
  have houtside : ∀ c, c.phase.isCommit = true → ∀ h ∈ H.map op.marked,
      h.lockOpStatus = .complete → (h.opType = .outTransLock ∨ h.opType = .outTransUnlock) ∧
        ((s.setCtx op.createTransId c).ctx h.createTransId).phase.isCommit = true := by
    intro c hphase h hh hc
    obtain ⟨h', hh', rfl⟩ := List.mem_map.mp hh
    rw [marked_opType, marked_createTransId]
    by_cases hk : h'.key = op.key
    · rw [(key_eq_iff.mp hk).1, (key_eq_iff.mp hk).2.2.1, setCtx_ctx_self]
      exact ⟨htype, hphase⟩
    rw [marked_of_ne hk] at hc
    obtain ⟨ht, hcommit⟩ := hB.outside h' hh' hc
    exact ⟨ht, isCommit_setCtx (fun _ => hphase) hcommit⟩
  refine ⟨o', hupdate, ?_⟩
  rw [State.complete, hupdate]
  dsimp only
  split
  · exact ⟨hrecords' _, houtside _ rfl, forall_ctx hB.phases trivial⟩
  · exact ⟨hrecords' _, houtside _ rfl, forall_ctx hB.phases trivial⟩

theorem compactTablelock (hB : Base H s) (u : TableLockOp) (f : Bool) :
    ∃ a b, Base (H.filter (keep a b)) { s with obj := s.obj.compactTablelock u f } ∧
      (∀ h, a = some h → Held h u ∧ h.lockOpStatus = .complete) ∧
      (∀ h, b = some h → h.opType = .outTransUnlock ∧ h.lockOpStatus = .complete) := by
  obtain ⟨a, b, hrecords, ha, hb⟩ := hB.records.cut u f
  exact ⟨a, b, ⟨hrecords, fun h hh => hB.outside h (mem_filter.mp hh).1, hB.phases⟩, ha, hb⟩

theorem drop (hB : Base H s) (hempty : s.obj.isEmpty = true) :
    Base H { s with obj := { number := s.obj.number + 1 } } := by
  simp only [ObOBJLock.isEmpty, ObOBJLock.lockModes, List.all_cons, List.all_nil, Bool.and_true,
    Bool.and_eq_true, List.isEmpty_iff, decide_eq_true_eq] at hempty
  refine ⟨⟨fun m => ?_, fun m => ?_, hB.records.lockList, hB.records.keys⟩, hB.outside, hB.phases⟩
  · rw [← hB.records.map m]
    cases m <;> simp [hempty]
  · rw [← hB.records.counter m]
    cases m <;> simp [ObOBJLock.counter, hempty]

theorem start : Base [] {} := by
  refine ⟨⟨fun m => rfl, fun m => ?_, fun t => rfl, nodup_nil⟩, by simp, fun t => trivial⟩
  cases m <;> rfl

end Base

/-! ## Moves -/

/-- What a step can do. Only the request of a granted lock is recorded with the move. -/
inductive Move (dbms : Bool) (s : State) : Act → State → Prop
  | same {a} : Move dbms s a s
  | setPhase {a} (t : ℕ) (p : Phase) (hok : ObLockMemCtx.Ok ⟨(s.ctx t).lockList, p⟩)
      (hcommit : (s.ctx t).phase.isCommit = true → p.isCommit = true)
      (hpend : ∀ u n, p ≠ .compacting u n) : Move dbms s a (s.setPhase t p)
  | grant (op : TableLockOp) (hdoing : op.lockOpStatus = .doing)
      (hrun : (s.ctx op.createTransId).phase.isRunning = true) (hlock : op.opType ≠ .outTransUnlock)
      (hnew : checkLockExist dbms (s.ctx op.createTransId).lockList op = false)
      (hallow : s.obj.checkAllowLock dbms op
        (lockModeCntInSameTrans (s.ctx op.createTransId).lockList) = .success) :
      Move dbms s (.request op.createTransId op.lockMode op.ownerId op.opType op.lockSeqNo
        op.branch) { s.record op with granted := s.granted ++ [op] }
  | unlock {a} (op : TableLockOp) (hdoing : op.lockOpStatus = .doing)
      (hrun : (s.ctx op.createTransId).phase.isRunning = true) (htype : op.opType = .outTransUnlock)
      (hnew : checkLockExist dbms (s.ctx op.createTransId).lockList op = false)
      (hallow : checkOpAllowUnlockFromList op (s.obj.map op.lockMode) = .success) :
      Move dbms s a (s.record op)
  | remove {a} (op : TableLockOp) (p : Phase) (hop : op ∈ (s.ctx op.createTransId).lockList)
      (hok : ObLockMemCtx.Ok ⟨(s.ctx op.createTransId).lockList.erase op, p⟩)
      (hcommit : (s.ctx op.createTransId).phase.isCommit = true → p.isCommit = true)
      (hpend : ∀ u n, p ≠ .compacting u n) : Move dbms s a (s.remove op p)
  | complete {a} (op : TableLockOp) (hop : op ∈ (s.ctx op.createTransId).lockList)
      (htype : op.opType = .outTransLock ∨ op.opType = .outTransUnlock) : Move dbms s a
        (s.complete op)
  | compactOwn {a} (t : ℕ) (u : TableLockOp) (n : ℕ) (hp : (s.ctx t).phase = .compacting u n) :
      Move dbms s a { s.setPhase t .committing with obj := s.obj.compactTablelock u false }
  | compact {a} (u : TableLockOp) (f : Bool) (hu : u ∈ s.obj.map u.lockMode)
      (hc : u.isCompleteOuttransUnlock = true) :
      Move dbms s a { s with obj := s.obj.compactTablelock u f }
  | drop {a} (hempty : s.obj.isEmpty = true) :
      Move dbms s a { s with obj := { number := s.obj.number + 1 } }

theorem move_of_request {t} (m : LockMode) (owner : ℕ) (opType : OpType) (seqNo branch : ℕ)
    (hrun : (s.ctx t).phase.isRunning = true) : Move dbms s (.request t m owner opType seqNo branch)
      (if opType = .outTransUnlock then s.unlock dbms (requestOp t m owner opType seqNo branch)
        else s.lock dbms (requestOp t m owner opType seqNo branch)) := by
  split
  · next htype =>
    unfold unlock
    split
    · exact .same
    next hnew =>
    split
    · next hallow => exact .unlock _ rfl hrun htype (Bool.eq_false_iff.mpr hnew) hallow
    · exact .same
  next htype =>
  unfold lock
  dsimp only
  split
  · exact .same
  next hnew =>
  split
  · next hallow => exact .grant _ rfl hrun htype (Bool.eq_false_iff.mpr hnew) hallow
  · exact .same

theorem Base.move_of_work (hB : Base H s) (t : ℕ) (a : Act) : Move dbms s a (s.work t) := by
  have hok := hB.phases t
  have hlist : ∀ op ∈ (s.ctx t).lockList, op.createTransId = t := fun op hop =>
    (hB.records.mem_lockList.mp hop).2.1
  unfold work
  split
  next op todo hp =>
    have hsub : (op :: todo).Sublist (s.ctx t).lockList := by simpa [ObLockMemCtx.Ok, hp] using hok
    have hmem := hsub.subset mem_cons_self
    obtain rfl := hlist op hmem
    refine .remove op _ hmem ?_ (by simp [hp, Phase.isCommit]) (by simp)
    have herase := hsub.erase op
    rwa [erase_cons_head] at herase
  next hp => exact .setPhase t _ trivial (by simp [hp, Phase.isCommit]) (by simp)
  next hp =>
    split
    next hnil => exact .setPhase t _ hnil (fun _ => rfl) (by simp)
    next op rest hcons =>
    have hmem : op ∈ (s.ctx t).lockList := hcons ▸ mem_cons_self
    obtain rfl := hlist op hmem
    exact .remove op _ hmem trivial (by simp [hp, Phase.isCommit]) (by simp)
  next hp =>
    split
    next hnil => exact .setPhase t _ hnil (fun _ => rfl) (by simp)
    next op rest hcons =>
    have hmem : op ∈ (s.ctx t).lockList := hcons ▸ mem_cons_self
    obtain rfl := hlist op hmem
    split
    next => exact .remove op _ hmem trivial (fun _ => rfl) (by simp)
    next => exact .remove op _ hmem trivial (fun _ => rfl) (by simp)
    next htype => exact .complete op hmem (.inl htype)
    next htype => exact .complete op hmem (.inr htype)
  next u n hp =>
    split
    · exact .compactOwn t u n hp
    · exact .setPhase t _ trivial (fun _ => rfl) (by simp)
  next => exact .same
  next => exact .same

theorem Base.move_of_step (hB : Base H s) {a s'} (hstep : s.step dbms a = some s') :
    Move dbms s a s' := by
  cases a with
  | request t m owner opType seqNo branch =>
    obtain ⟨hrun, hstep⟩ := Option.ite_none_right_eq_some.mp hstep
    have hmove : Move dbms s _ _ := move_of_request m owner opType seqNo branch hrun
    split at hstep
    next htype =>
      obtain ⟨⟩ := hstep
      rwa [if_pos htype] at hmove
    next htype =>
      obtain ⟨⟩ := hstep
      rwa [if_neg htype] at hmove
  | rollback t toSeqNo toBranch fromSeqNo =>
    obtain ⟨hrun, ⟨⟩⟩ := Option.ite_none_right_eq_some.mp hstep
    exact .setPhase t _ filter_sublist (by simp [isCommit_of_isRunning hrun]) (by simp)
  | abort t =>
    obtain ⟨hrun, ⟨⟩⟩ := Option.ite_none_right_eq_some.mp hstep
    exact .setPhase t _ trivial (by simp [isCommit_of_isRunning hrun]) (by simp)
  | commit t =>
    obtain ⟨hrun, ⟨⟩⟩ := Option.ite_none_right_eq_some.mp hstep
    exact .setPhase t _ trivial (fun _ => rfl) (by simp)
  | work t =>
    obtain ⟨⟩ := hstep
    exact hB.move_of_work t _
  | compact m isForce =>
    obtain ⟨⟩ := hstep
    unfold compact
    split
    next => exact .same
    next u hfind =>
    have hu := mem_of_find?_eq_some hfind
    obtain rfl := (hB.records.mem_map.mp hu).2.2
    exact .compact u isForce hu (by simpa using List.find?_some hfind)
  | drop =>
    obtain ⟨hempty, ⟨⟩⟩ := Option.ite_none_right_eq_some.mp hstep
    exact .drop hempty

end OceanBase.Tablelock
