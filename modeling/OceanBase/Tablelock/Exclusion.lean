import OceanBase.Tablelock.Moves

/-!
# Table locks exclude each other

A request is granted only in a mode compatible with everything that other transactions have on the
object. So two locks of different transactions are compatible as long as the records of granted
locks stay. They are removed by their transactions, and by compactions, which take away an owner's
lock in a mode.

Two things can go wrong, and both are about locks outside of transactions.

* A transaction does not conflict with itself. If it takes such locks in incompatible modes and
  commits, both stay, although no transaction holds them any more.
* The commit of an unlock operation is followed by a compaction that looks for any complete lock of
  its owner and mode. If another compaction comes first, and the owner locks again before the one
  that belongs to the unlock operation, this one removes the new lock.

A run is careful if no request is of one of these kinds. In careful runs locks exclude each other.

## Main results

* `table_locks_exclusive`, `table_locks_conflict`
-/

namespace OceanBase.Tablelock

open TableLockOp Records List

/-- **Locks exclude each other**: two granted locks that were not released are in compatible modes,
unless both were made by one transaction that has not ended. -/
def Exclusive (s : State) : Prop :=
  s.granted.Pairwise fun a b => a.lockMode.compatible b.lockMode = true ∨
    (a.createTransId = b.createTransId ∧ (s.ctx a.createTransId).phase ≠ .ended)
  deriving Decidable

/-- The number of granted DML locks in the mode that were not released. -/
def dmlLocks (s : State) (m : LockMode) : ℕ :=
  s.granted.countP fun g => g.opType = .inTransDmlLock && g.lockMode = m

def CountersOk (s : State) : Prop :=
  s.obj.rowShare = dmlLocks s .rowShare ∧ s.obj.rowExclusive = dmlLocks s .rowExclusive

/-- A request for a lock outside of transactions is in a mode compatible with such locks of the same
transaction, and no commit is about to compact a lock of the same owner and mode. -/
def Careful (s : State) : Act → Prop
  | .request t m owner .outTransLock _ _ =>
    (∀ op ∈ (s.ctx t).lockList, op.opType = .outTransLock → op.lockMode.compatible m = true) ∧
    ∀ t' u n, (s.ctx t').phase = .compacting u n → ¬ (u.ownerId = owner ∧ u.lockMode = m)
  | _ => True

def carefulTableLocks (dbms : Bool) : Machine State where
  init s := s = {}
  step s s' := ∃ a, Careful s a ∧ s.step dbms a = some s'

/-! ## The invariant -/

/-- A compaction that is still to come finds none of the locks. -/
def ObLockMemCtx.Spares (c : ObLockMemCtx) (granted : List TableLockOp) : Prop :=
  ∀ u n, c.phase = .compacting u n → ∀ g ∈ granted, ¬ Held g u

/-- The records, the transactions and the granted locks fit together, and the locks exclude each
other. -/
structure Inv (H : List TableLockOp) (s : State) : Prop where
  records : Records H s.obj fun t => (s.ctx t).lockList
  /-- Only operations outside of transactions become complete, when their transactions commit. -/
  outside : ∀ h ∈ H, h.lockOpStatus = .complete →
    (h.opType = .outTransLock ∨ h.opType = .outTransUnlock) ∧
      (s.ctx h.createTransId).phase.isCommit = true
  phases : ∀ t, (s.ctx t).Ok
  spared : ∀ t, (s.ctx t).Spares s.granted
  unlocked : ∀ u ∈ H, u.isCompleteOuttransUnlock = true → ∀ g ∈ s.granted, ¬ Held g u
  /-- While an owner unlocks, nobody takes the lock for it. -/
  unlocking : ∀ u ∈ H, u.opType = .outTransUnlock → ∀ h ∈ H, h.lockOpStatus = .doing → ¬ Held h u
  recorded : ∀ g ∈ s.granted, g.opType ≠ .outTransUnlock ∧ ∃ h ∈ H, h.key = g.key
  held : ∀ h ∈ H, h.lockOpStatus = .doing → h.opType ≠ .outTransUnlock → h ∈ s.granted
  inside : ∀ g ∈ s.granted, g.opType ≠ .outTransLock → g ∈ H
  keys : (s.granted.map key).Nodup
  exclusive : s.granted.Pairwise fun a b =>
    a.createTransId ≠ b.createTransId → a.lockMode.compatible b.lockMode = true
  careful : s.granted.Pairwise fun a b => a.createTransId = b.createTransId →
    a.opType = .outTransLock → b.opType = .outTransLock → a.lockMode.compatible b.lockMode = true

variable {H : List TableLockOp} {s : State} {op : TableLockOp} {dbms : Bool}

theorem Inv.base (hI : Inv H s) : Base H s := ⟨hI.records, hI.outside, hI.phases⟩

theorem Inv.setPhase (hI : Inv H s) (t : ℕ) {p} (hok : ObLockMemCtx.Ok ⟨(s.ctx t).lockList, p⟩)
    (hcommit : (s.ctx t).phase.isCommit = true → p.isCommit = true)
    (hpend : ∀ u n, p ≠ .compacting u n) : Inv H (s.setPhase t p) := by
  obtain ⟨hrecords, houtside, hphases⟩ := hI.base.setPhase t hok hcommit
  exact { hI with
    records := hrecords, outside := houtside, phases := hphases
    spared := forall_ctx (P := (·.Spares s.granted)) hI.spared fun u n hp => absurd hp (hpend u n) }

/-! ## Requests -/

section

variable (hI : Inv H s) (hdoing : op.lockOpStatus = .doing)
  (hrun : (s.ctx op.createTransId).phase.isRunning = true)
include hI hdoing hrun

theorem Inv.grant (hlock : op.opType ≠ .outTransUnlock)
    (hnew : checkLockExist dbms (s.ctx op.createTransId).lockList op = false)
    (hallow : s.obj.checkAllowLock dbms op
      (lockModeCntInSameTrans (s.ctx op.createTransId).lockList) = .success)
    (hown : op.opType = .outTransLock → ∀ h ∈ (s.ctx op.createTransId).lockList,
      h.opType = .outTransLock → h.lockMode.compatible op.lockMode = true)
    (hspare : op.opType = .outTransLock → ∀ t u n, (s.ctx t).phase = .compacting u n →
      ¬ (u.ownerId = op.ownerId ∧ u.lockMode = op.lockMode)) :
    Inv (H ++ [op]) { s.record op with granted := s.granted ++ [op] } := by
  have hkey := hI.base.key_notMem hrun hnew
  obtain ⟨hrecords, houtside, hphases⟩ := hI.base.record hdoing hrun hkey
  obtain ⟨hlist, hothers⟩ := checkAllowLock_success hallow
  -- the owner of a lock outside of transactions has no unlock operation in the mode
  have hno : op.opType = .outTransLock → ∀ u ∈ H, u.opType = .outTransUnlock → ¬ Held op u := by
    rintro htype u hu hutype ⟨-, howner, hmode⟩
    have hnode : u ∈ s.obj.map op.lockMode :=
      hI.records.mem_map.mpr ⟨hu, by simp [needRecordLockOp, hutype], hmode.symm⟩
    have hcommon := (checkOpAllowLockFromList_success htype
      (hlist (by simp [needRecordLockOp, htype]))).2 u hnode howner.symm
    rw [hutype] at hcommon
    cases hcommon
  have hmem : ∀ {l : List TableLockOp}, ∀ h ∈ l ++ [op], h ∈ l ∨ h = op := by simp
  refine ⟨hrecords, houtside, hphases, ?_, ?_, ?_, ?_, ?_, ?_, ?_, ?_, ?_⟩
  · intro t u n hp g hg hheld
    replace hp := (Base.record_phase s op t).symm.trans hp
    rcases hmem g hg with hg | rfl
    · exact hI.spared t u n hp g hg hheld
    · exact hspare hheld.1 t u n hp ⟨hheld.2.1.symm, hheld.2.2.symm⟩
  · intro u hu huc g hg hheld
    rcases hmem u hu with hold | rfl
    · rcases hmem g hg with hg | rfl
      · exact hI.unlocked u hold huc g hg hheld
      · exact hno hheld.1 u hold (of_decide_eq_true huc).1 hheld
    · exact hlock (of_decide_eq_true huc).1
  · intro u hu hutype h hh hd hheld
    rcases hmem u hu with hold | rfl
    · rcases hmem h hh with hh | rfl
      · exact hI.unlocking u hold hutype h hh hd hheld
      · exact hno hheld.1 u hold hutype hheld
    · exact hlock hutype
  · intro g hg
    rcases hmem g hg with hg | rfl
    · obtain ⟨htype, h, hh, hk⟩ := hI.recorded g hg
      exact ⟨htype, h, mem_append_left _ hh, hk⟩
    · exact ⟨hlock, g, by simp, rfl⟩
  · intro h hh hd htype
    rcases mem_append.mp hh with hh | hh
    · exact mem_append_left _ (hI.held h hh hd htype)
    · exact mem_append_right _ hh
  · intro g hg htype
    rcases mem_append.mp hg with hg | hg
    · exact mem_append_left _ (hI.inside g hg htype)
    · exact mem_append_right _ hg
  · rw [map_append]
    refine hI.keys.append (nodup_singleton _) ?_
    intro k hk hk'
    obtain ⟨g, hg, rfl⟩ := mem_map.mp hk
    obtain ⟨-, h, hh, hkey'⟩ := hI.recorded g hg
    rw [map_singleton, mem_singleton] at hk'
    exact hkey (mem_map.mpr ⟨h, hh, hkey'.trans hk'⟩)
  · refine pairwise_append.mpr ⟨hI.exclusive, pairwise_singleton _ _, ?_⟩
    intro g hg op' hop' hne
    rw [mem_singleton.mp hop'] at hne ⊢
    obtain ⟨-, h, hh, hk⟩ := hI.recorded g hg
    obtain ⟨ht, -, -, hmode⟩ := key_eq_iff.mp hk
    refine hothers g.lockMode ?_
    -- the record of the lock is counted among those of the others
    rw [hI.records.existLockModeCnt]
    have hpos : 0 < H.countP fun h => h.lockMode = g.lockMode && !isDoingOf op.createTransId h := by
      refine countP_pos_iff.mpr ⟨h, hh, ?_⟩
      simp [hmode, isDoingOf, ht, hne]
    omega
  · refine pairwise_append.mpr ⟨hI.careful, pairwise_singleton _ _, ?_⟩
    intro g hg op' hop' hsame hgtype htype
    rw [mem_singleton.mp hop'] at hsame htype ⊢
    obtain ⟨-, h, hh, hk⟩ := hI.recorded g hg
    obtain ⟨ht, -, hktype, hmode⟩ := key_eq_iff.mp hk
    have htrans : h.createTransId = op.createTransId := ht.trans hsame
    have hd := hI.base.doing_of_running hh (htrans ▸ hrun)
    rw [← hmode]
    exact hown htype h (hI.records.mem_lockList.mpr ⟨hh, htrans, hd⟩) (hktype.trans hgtype)

theorem Inv.recordUnlock (htype : op.opType = .outTransUnlock)
    (hnew : checkLockExist dbms (s.ctx op.createTransId).lockList op = false)
    (hallow : checkOpAllowUnlockFromList op (s.obj.map op.lockMode) = .success) :
    Inv (H ++ [op]) (s.record op) := by
  obtain ⟨hrecords, houtside, hphases⟩ := hI.base.record hdoing hrun (hI.base.key_notMem hrun hnew)
  have hmem : ∀ h ∈ H ++ [op], h ∈ H ∨ h = op := by simp
  refine ⟨hrecords, houtside, hphases, ?_, ?_, ?_, ?_, ?_, ?_, hI.keys, hI.exclusive, hI.careful⟩
  · intro t u n hp
    exact hI.spared t u n ((Base.record_phase s op t).symm.trans hp)
  · intro u hu huc
    rcases hmem u hu with hu | rfl
    · exact hI.unlocked u hu huc
    · simp [isCompleteOuttransUnlock, hdoing] at huc
  · intro u hu hutype h hh hd hheld
    rcases hmem h hh with hin | rfl
    · rcases hmem u hu with hu | rfl
      · exact hI.unlocking u hu hutype h hin hd hheld
      -- everything of the owner in this mode is complete
      have hnode : h ∈ s.obj.map u.lockMode :=
        hI.records.mem_map.mpr ⟨hin, by simp [needRecordLockOp, hheld.1], hheld.2.2⟩
      have hcomplete := (checkOpAllowUnlockLoop_success hallow h hnode hheld.2.1).2
      rw [hd] at hcomplete
      cases hcomplete
    · exact absurd (htype.symm.trans hheld.1) (by decide)
  · intro g hg
    obtain ⟨hgtype, h, hh, hk⟩ := hI.recorded g hg
    exact ⟨hgtype, h, mem_append_left _ hh, hk⟩
  · intro h hh hd hhtype
    rcases hmem h hh with hh | rfl
    · exact hI.held h hh hd hhtype
    · exact absurd htype hhtype
  · intro g hg hgtype
    exact mem_append_left _ (hI.inside g hg hgtype)

end

/-! ## Releases -/

/-- **A removal keeps the invariant**: the record and the granted lock go together. -/
theorem Inv.remove (hI : Inv H s) (hop : op ∈ (s.ctx op.createTransId).lockList) {p}
    (hok : ObLockMemCtx.Ok ⟨(s.ctx op.createTransId).lockList.erase op, p⟩)
    (hcommit : (s.ctx op.createTransId).phase.isCommit = true → p.isCommit = true)
    (hpend : ∀ u n, p ≠ .compacting u n) : Inv (del H op) (s.remove op p) := by
  obtain ⟨hrecords, houtside, hphases⟩ := hI.base.remove hop hok hcommit
  have hgranted : ∀ g, g ∈ (s.remove op p).granted ↔ g ∈ s.granted ∧ g.key ≠ op.key := by
    intro g
    rw [State.remove, mem_filter]
    refine and_congr_right fun _ => ?_
    by_cases hm : g.lockMode = op.lockMode
    · simp [hm, ← sameNode_iff hm]
    · simp [hm, key_eq_iff]
  have hsub : (s.remove op p).granted.Sublist s.granted := filter_sublist
  refine ⟨hrecords, houtside, hphases, ?_, ?_, ?_, ?_, ?_, ?_, hI.keys.sublist (hsub.map key),
    hI.exclusive.sublist hsub, hI.careful.sublist hsub⟩
  · have hspared : ∀ t, (s.ctx t).Spares (s.remove op p).granted := fun t u n hp g hg =>
      hI.spared t u n hp g (hsub.subset hg)
    exact forall_ctx (P := (·.Spares (s.remove op p).granted)) hspared
      fun u n hp => absurd hp (hpend u n)
  · intro u hu huc g hg
    exact hI.unlocked u (mem_del.mp hu).1 huc g (hsub.subset hg)
  · intro u hu hutype h hh
    exact hI.unlocking u (mem_del.mp hu).1 hutype h (mem_del.mp hh).1
  · intro g hg
    obtain ⟨hg, hne⟩ := (hgranted g).mp hg
    obtain ⟨htype, h, hh, hk⟩ := hI.recorded g hg
    exact ⟨htype, h, mem_del.mpr ⟨hh, hk ▸ hne⟩, hk⟩
  · intro h hh hd htype
    obtain ⟨hh, hne⟩ := mem_del.mp hh
    exact (hgranted h).mpr ⟨hI.held h hh hd htype, hne⟩
  · intro g hg htype
    obtain ⟨hg, hne⟩ := (hgranted g).mp hg
    exact mem_del.mpr ⟨hI.inside g hg htype, hne⟩

/-- **The commit of an operation outside of transactions keeps the invariant.** Its record is found.
An unlock operation releases a lock that is complete, so no running transaction has it. -/
theorem Inv.complete (hI : Inv H s) (hop : op ∈ (s.ctx op.createTransId).lockList)
    (htype : op.opType = .outTransLock ∨ op.opType = .outTransUnlock) :
    Inv (H.map op.marked) (s.complete op) := by
  obtain ⟨hmem, -, hdoing⟩ := hI.records.mem_lockList.mp hop
  obtain ⟨o', hupdate, hbase⟩ := hI.base.complete hop htype
  -- the parts that do not depend on whether the operation locks or unlocks
  have hmarked : ∀ h ∈ H.map op.marked, h.lockOpStatus = .doing → h ∈ H := by
    intro h hh hd
    obtain ⟨h', hh', rfl⟩ := mem_map.mp hh
    rw [(marked_doing hd).2]
    exact hh'
  have hrecorded : ∀ g ∈ s.granted, g.opType ≠ .outTransUnlock ∧ ∃ h ∈ H.map op.marked,
    h.key = g.key := by
    intro g hg
    obtain ⟨hgtype, h, hh, hk⟩ := hI.recorded g hg
    exact ⟨hgtype, op.marked h, mem_map_of_mem hh, (marked_key op h).trans hk⟩
  have hinside : ∀ g ∈ s.granted, g.opType ≠ .outTransLock → g ∈ H.map op.marked := by
    intro g hg hgtype
    refine mem_map.mpr ⟨g, hI.inside g hg hgtype, marked_of_ne fun hk => ?_⟩
    rcases htype with htype | htype
    · exact hgtype ((key_eq_iff.mp hk).2.2.1.trans htype)
    · exact (hI.recorded g hg).1 ((key_eq_iff.mp hk).2.2.1.trans htype)
  have hunlocking : ∀ u ∈ H.map op.marked, u.opType = .outTransUnlock → ∀ h ∈ H.map op.marked,
      h.lockOpStatus = .doing → ¬ Held h u := by
    intro u hu hutype h hh hd
    obtain ⟨u', hu', rfl⟩ := mem_map.mp hu
    rw [marked_opType] at hutype
    have hnot := hI.unlocking u' hu' hutype h (hmarked h hh hd) hd
    simpa [Held, (key_eq_iff.mp (marked_key op u')).2.1] using hnot
  rw [State.complete, hupdate] at hbase ⊢
  dsimp only at hbase ⊢
  split
  next hunlock =>
    rw [if_pos hunlock] at hbase
    have hsub : (s.granted.filter fun g => !(g.opType = .outTransLock && g.ownerId = op.ownerId &&
        g.lockMode = op.lockMode)).Sublist s.granted := filter_sublist
    have hreleased : ∀ g ∈ s.granted.filter (fun g => !(g.opType = .outTransLock &&
        g.ownerId = op.ownerId && g.lockMode = op.lockMode)), ¬ Held g op := by
      rintro g hg ⟨hgtype, howner, hmode⟩
      simpa [hgtype, howner, hmode] using (mem_filter.mp hg).2
    refine ⟨hbase.records, hbase.outside, hbase.phases, ?_, ?_, hunlocking,
      fun g hg => hrecorded g (hsub.subset hg), ?_, fun g hg => hinside g (hsub.subset hg),
      hI.keys.sublist (hsub.map key), hI.exclusive.sublist hsub, hI.careful.sublist hsub⟩
    · refine forall_ctx (P := (·.Spares _))
        (fun t u n hp g hg => hI.spared t u n hp g (hsub.subset hg)) ?_
      intro u n hp g hg
      obtain ⟨rfl, -⟩ := Phase.compacting.inj hp
      exact hreleased g hg
    · intro u hu huc g hg
      obtain ⟨u', hu', rfl⟩ := mem_map.mp hu
      by_cases hk : u'.key = op.key
      · obtain ⟨-, howner, -, hmode⟩ := key_eq_iff.mp ((marked_key op u').trans hk)
        intro hheld
        exact hreleased g hg ⟨hheld.1, hheld.2.1.trans howner, hheld.2.2.trans hmode⟩
      · rw [marked_of_ne hk] at huc ⊢
        exact hI.unlocked u' hu' huc g (hsub.subset hg)
    · intro h hh hd hhtype
      have hin := hmarked h hh hd
      refine mem_filter.mpr ⟨hI.held h hin hd hhtype, ?_⟩
      have hnot := hI.unlocking op hmem hunlock h hin hd
      by_contra hfalse
      simp only [Bool.not_eq_true, Bool.not_eq_false', Bool.and_eq_true,
        decide_eq_true_eq] at hfalse
      exact hnot ⟨hfalse.1.1, hfalse.1.2, hfalse.2⟩
  next hunlock =>
    rw [if_neg hunlock] at hbase
    refine ⟨hbase.records, hbase.outside, hbase.phases, ?_, ?_, hunlocking, hrecorded, ?_,
      hinside, hI.keys, hI.exclusive, hI.careful⟩
    · refine forall_ctx (P := (·.Spares s.granted)) hI.spared ?_
      intro u n hp
      cases hp
    · intro u hu huc
      obtain ⟨u', hu', rfl⟩ := mem_map.mp hu
      have hk : u'.key ≠ op.key := by
        intro hk
        simp only [isCompleteOuttransUnlock, marked_opType, decide_eq_true_eq] at huc
        exact hunlock ((key_eq_iff.mp hk).2.2.1.symm.trans huc.1)
      rw [marked_of_ne hk] at huc ⊢
      exact hI.unlocked u' hu' huc
    · intro h hh hd hhtype
      exact hI.held h (hmarked h hh hd) hd hhtype

/-- **A compaction keeps the invariant** if the lock it may remove is not a granted one. -/
theorem Inv.compactTablelock (hI : Inv H s) {u} (hu : ∀ g ∈ s.granted, ¬ Held g u)
    (f : Bool) : ∃ H', Inv H' { s with obj := s.obj.compactTablelock u f } := by
  obtain ⟨a, b, ⟨hrecords, houtside, hphases⟩, ha, hb⟩ := hI.base.compactTablelock u f
  have hin : ∀ h ∈ H.filter (keep a b), h ∈ H := fun h hh => (mem_filter.mp hh).1
  refine ⟨H.filter (keep a b), hrecords, houtside, hphases, hI.spared,
    fun u hu => hI.unlocked u (hin u hu),
      fun u hu ht h hh => hI.unlocking u (hin u hu) ht h (hin h hh),
    ?_, fun h hh => hI.held h (hin h hh), ?_, hI.keys, hI.exclusive, hI.careful⟩
  · intro g hg
    obtain ⟨htype, h, hh, hk⟩ := hI.recorded g hg
    obtain ⟨-, howner, hktype, hmode⟩ := key_eq_iff.mp hk
    refine ⟨htype, h, mem_filter.mpr ⟨hh, ?_⟩, hk⟩
    have hna : some h ≠ a := by
      intro heq
      obtain ⟨hlock, hown, hm⟩ := (ha h heq.symm).1
      exact hu g hg ⟨hktype.symm.trans hlock, howner.symm.trans hown, hmode.symm.trans hm⟩
    have hnb : some h ≠ b := by
      intro heq
      exact htype (hktype.symm.trans (hb h heq.symm).1)
    simp [keep, hna, hnb]
  · intro g hg htype
    have hgH := hI.inside g hg htype
    have hdoing : g.lockOpStatus ≠ .complete := by
      intro hc
      rcases (hI.outside g hgH hc).1 with hl | hl
      · exact htype hl
      · exact (hI.recorded g hg).1 hl
    refine mem_filter.mpr ⟨hgH, ?_⟩
    have hna : some g ≠ a := fun heq => hdoing (ha g heq.symm).2
    have hnb : some g ≠ b := fun heq => hdoing (hb g heq.symm).2
    simp [keep, hna, hnb]

/-! ## Runs -/

theorem Inv.step (hI : Inv H s) {a s'} (hc : Careful s a)
    (hstep : s.step dbms a = some s') : ∃ H', Inv H' s' := by
  cases hI.base.move_of_step hstep with
  | same => exact ⟨H, hI⟩
  | setPhase t p hok hcommit hpend => exact ⟨H, hI.setPhase t hok hcommit hpend⟩
  | grant op hdoing hrun hlock hnew hallow =>
    refine ⟨_, hI.grant hdoing hrun hlock hnew hallow ?_ ?_⟩
    · intro htype
      rw [htype] at hc
      exact hc.1
    · intro htype
      rw [htype] at hc
      exact hc.2
  | unlock op hdoing hrun htype hnew hallow =>
    exact ⟨_, hI.recordUnlock hdoing hrun htype hnew hallow⟩
  | remove op p hop hok hcommit hpend => exact ⟨_, hI.remove hop hok hcommit hpend⟩
  | complete op hop htype => exact ⟨_, hI.complete hop htype⟩
  | compactOwn t u n hp =>
    exact (hI.setPhase t (p := .committing) trivial (fun _ => rfl) (by simp)).compactTablelock
      (hI.spared t u n hp) false
  | compact u f hu hcu =>
    exact hI.compactTablelock (hI.unlocked u (hI.records.mem_map.mp hu).1 hcu) f
  | drop hempty =>
    obtain ⟨hrecords, houtside, hphases⟩ := hI.base.drop hempty
    exact ⟨H, { hI with records := hrecords, outside := houtside, phases := hphases }⟩

theorem Inv.start : Inv [] {} := by
  obtain ⟨hrecords, houtside, hphases⟩ := Base.start
  refine ⟨hrecords, houtside, hphases, ?_, ?_, ?_, ?_, ?_, ?_, nodup_nil, List.Pairwise.nil,
    List.Pairwise.nil⟩
  all_goals simp [ObLockMemCtx.Spares]

theorem Inv.outTransLock_of_ended (hI : Inv H s) {g} (hg : g ∈ s.granted)
    (hended : (s.ctx g.createTransId).phase = .ended) : g.opType = .outTransLock := by
  by_contra htype
  have hgH := hI.inside g hg htype
  have hdoing : g.lockOpStatus = .doing := by
    cases hst : g.lockOpStatus
    · rfl
    rcases (hI.outside g hgH hst).1 with hl | hl
    · exact absurd hl htype
    · exact absurd hl (hI.recorded g hg).1
  have hlist : g ∈ (s.ctx g.createTransId).lockList :=
    hI.records.mem_lockList.mpr ⟨hgH, rfl, hdoing⟩
  have hok := hI.phases g.createTransId
  simp only [ObLockMemCtx.Ok, hended] at hok
  rw [hok] at hlist
  exact not_mem_nil hlist

theorem Inv.exclusive_of (hI : Inv H s) : Exclusive s := by
  refine (hI.exclusive.and hI.careful).imp_of_mem ?_
  rintro a b ha hb ⟨hother, hsame⟩
  by_cases ht : a.createTransId = b.createTransId
  · by_cases hended : (s.ctx a.createTransId).phase = .ended
    · exact .inl (hsame ht (hI.outTransLock_of_ended ha hended)
        (hI.outTransLock_of_ended hb (ht ▸ hended)))
    · exact .inr ⟨ht, hended⟩
  · exact .inl (hother ht)

theorem Inv.counter_eq (hI : Inv H s) {m} (hm : m = .rowShare ∨ m = .rowExclusive) :
    s.obj.counter m = dmlLocks s m := by
  have hcounted : ∀ h, isCounted m h = (h.opType = .inTransDmlLock && h.lockMode = m) := by
    intro h
    obtain ⟨mode, owner, t, type, seqNo, branch, status⟩ := h
    rcases hm with rfl | rfl <;> cases type <;> cases mode <;> rfl
  have hperm : (H.filter (isCounted m)).Perm
      (s.granted.filter fun g => g.opType = .inTransDmlLock && g.lockMode = m) := by
    refine (perm_ext_iff_of_nodup (hI.records.nodup.filter _) (hI.keys.of_map.filter _)).mpr ?_
    intro h
    simp only [mem_filter, hcounted, Bool.and_eq_true, decide_eq_true_eq]
    refine and_congr_left fun hh => ⟨fun hmem => ?_, fun hmem => hI.inside h hmem (by simp [hh.1])⟩
    have hdoing : h.lockOpStatus = .doing := by
      cases hst : h.lockOpStatus
      · rfl
      have := (hI.outside h hmem hst).1
      simp [hh.1] at this
    exact hI.held h hmem hdoing (by simp [hh.1])
  rw [hI.records.counter, dmlLocks, countP_eq_length_filter, countP_eq_length_filter,
    hperm.length_eq]

/-- **Table locks exclude each other.** In every state of a run whose requests are careful, two
granted locks that were not released are in compatible modes unless one transaction that has not
ended made both, and the counters are the numbers of DML locks. -/
theorem table_locks_exclusive (dbms : Bool) {s : State}
    (hs : (carefulTableLocks dbms).Reachable s) : Exclusive s ∧ CountersOk s := by
  have hinv : ∃ H, Inv H s := by
    refine hs.of_keeps (I := fun s => ∃ H, Inv H s) ?_ ?_
    · rintro s rfl
      exact ⟨[], Inv.start⟩
    · rintro s s' ⟨H, hI⟩ ⟨a, hc, hstep⟩
      exact hI.step hc hstep
  obtain ⟨H, hI⟩ := hinv
  exact ⟨hI.exclusive_of, hI.counter_eq (.inl rfl), hI.counter_eq (.inr rfl)⟩

/-- A lock outside of transactions and a DML lock in a compatible mode, while a DML lock in an
incompatible mode is refused. -/
theorem table_locks_exclusive_share : ∃ s : State, s.granted.length = 2 ∧ s.obj.rowShare = 1 ∧
    s.obj.rowExclusive = 0 ∧ Exclusive s ∧ CountersOk s := by
  have h₁ : (carefulTableLocks false).Reachable
      (State.lock {} false (requestOp 1 .share 7 .outTransLock 1 0)) :=
    .step (.init rfl) ⟨.request 1 .share 7 .outTransLock 1 0, ⟨by simp, by simp⟩, rfl⟩
  have h₂ := h₁.step ⟨.request 2 .rowShare 0 .inTransDmlLock 1 0, trivial, rfl⟩
  have h₃ := h₂.step ⟨.request 3 .rowExclusive 0 .inTransDmlLock 1 0, trivial, rfl⟩
  exact ⟨_, by decide, by decide, by decide, table_locks_exclusive false h₃⟩

/-- One transaction locks for two owners in incompatible modes and commits. -/
def twoOwners : List Act :=
  [.request 1 .share 7 .outTransLock 1 0, .request 1 .exclusive 8 .outTransLock 2 0,
    .commit 1, .work 1, .work 1, .work 1]

/-- The owner's lock is compacted away by somebody else before the commit of its unlock operation
gets to it. The owner locks again and commits, and the compaction that comes late removes the new
lock. -/
def lateCompaction : List Act :=
  [.request 9 .rowShare 0 .inTransDmlLock 1 0,
    .request 1 .share 7 .outTransLock 1 0, .commit 1, .work 1, .work 1,
    .request 2 .share 7 .outTransUnlock 1 0, .commit 2, .work 2,
    .compact .share false,
    .request 3 .share 7 .outTransLock 1 0, .commit 3, .work 3, .work 3,
    .work 2,
    .request 4 .rowExclusive 0 .inTransDmlLock 1 0]

/-- **Table locks can conflict.** Both runs end with granted locks in incompatible modes, in the
first one of a transaction that has ended, in the second one of different transactions. -/
theorem table_locks_conflict :
    (∃ s, (tableLocks false).Reachable s ∧ State.run false {} twoOwners = some s ∧ ¬ Exclusive s) ∧
    ∃ s, (tableLocks false).Reachable s ∧ State.run false {} lateCompaction = some s ∧
      ¬ Exclusive s := by
  have hrun : ∀ as : List Act, (State.run false {} as).map (fun s => decide (Exclusive s)) =
    some false →
      ∃ s, (tableLocks false).Reachable s ∧ State.run false {} as = some s ∧ ¬ Exclusive s := by
    intro as h
    obtain ⟨s, hs, hne⟩ := Option.map_eq_some_iff.mp h
    exact ⟨s, State.run_reachable (.init rfl) hs, hs, of_decide_eq_false hne⟩
  exact ⟨hrun twoOwners (by decide), hrun lateCompaction (by decide)⟩

end OceanBase.Tablelock
