import OceanBase.Tablelock.ObjLock

/-!
# The records of a locked object

Counters, lists of nodes and the lists of the transactions are views of one list: the records of all
operations that have not been removed, in the order in which they were made. Nodes are found by
transaction, owner and type inside the list of their mode; together with the mode this is a key, and
no two records have the same one. So a removal by key removes one record, and a status update finds
the right one.

The checks of a request are read back on the records. What others hold in a mode, computed by
subtraction, is the number of records of the mode that are not operations of the transaction itself.

## Main results

* `requestLock_compatible`
* `Records.add`, `Records.del_records`, `Records.mark`, `Records.cut`: recording, removing,
  completing and compacting
-/

namespace OceanBase.Tablelock

/-! ## Modes -/

/-- The bits of several modes at once. -/
def bitsOf (held : LockMode → Bool) : ℕ :=
  ObOBJLock.lockModes.foldl (fun bits m => bits ||| if held m then m.bits else 0) 0

/-- **The bits decide the matrix**: a request that passes is compatible with all modes that are
held, also when they share bits. -/
theorem requestLock_compatible {held : LockMode → Bool} {m m' : LockMode}
    (h : requestLock (bitsOf held) m.bits = true) (hm : held m' = true) :
    m'.compatible m = true := by
  simp only [bitsOf, ObOBJLock.lockModes, List.foldl_cons, List.foldl_nil] at h
  revert h hm
  generalize hrs : held .rowShare = rs
  generalize hrx : held .rowExclusive = rx
  generalize hs : held .share = sh
  generalize hsrx : held .shareRowExclusive = srx
  generalize hx : held .exclusive = x
  cases m' <;> simp only [hrs, hrx, hs, hsrx, hx] <;> clear hrs hrx hs hsrx hx <;>
    revert rs rx sh srx x <;> cases m <;> decide

/-! ## Keys -/

namespace TableLockOp

def key (op : TableLockOp) : ℕ × ℕ × OpType × LockMode :=
  (op.createTransId, op.ownerId, op.opType, op.lockMode)

variable {a b : TableLockOp}

theorem key_eq_iff : a.key = b.key ↔
    a.createTransId = b.createTransId ∧ a.ownerId = b.ownerId ∧ a.opType = b.opType ∧
      a.lockMode = b.lockMode := by
  simp [key]

theorem sameNode_iff (hm : a.lockMode = b.lockMode) : a.sameNode b = true ↔ a.key = b.key := by
  simp [sameNode, key_eq_iff, hm]

theorem needRecordLockOp_of_key (h : a.key = b.key) : a.needRecordLockOp = b.needRecordLockOp := by
  obtain ⟨-, -, htype, hmode⟩ := key_eq_iff.mp h
  simp only [needRecordLockOp, htype, hmode]

def completed (op : TableLockOp) : TableLockOp := { op with lockOpStatus := .complete }

/-- The status update of the records with the operation's key. -/
def marked (op h : TableLockOp) : TableLockOp := if h.key = op.key then h.completed else h

@[simp] theorem marked_key (op h : TableLockOp) : (op.marked h).key = h.key := by
  unfold marked
  split <;> rfl

theorem marked_of_ne {op h : TableLockOp} (hne : h.key ≠ op.key) : op.marked h = h := if_neg hne

@[simp] theorem marked_lockMode (op h : TableLockOp) : (op.marked h).lockMode = h.lockMode :=
  (key_eq_iff.mp (marked_key op h)).2.2.2

@[simp] theorem marked_opType (op h : TableLockOp) : (op.marked h).opType = h.opType :=
  (key_eq_iff.mp (marked_key op h)).2.2.1

@[simp] theorem marked_createTransId (op h : TableLockOp) :
    (op.marked h).createTransId = h.createTransId :=
  (key_eq_iff.mp (marked_key op h)).1

@[simp] theorem marked_needRecordLockOp (op h : TableLockOp) :
    (op.marked h).needRecordLockOp = h.needRecordLockOp :=
  needRecordLockOp_of_key (marked_key op h)

theorem marked_doing {op h : TableLockOp} (hd : (op.marked h).lockOpStatus = .doing) :
    h.key ≠ op.key ∧ op.marked h = h := by
  by_cases hk : h.key = op.key
  · simp [marked, hk, completed] at hd
  · exact ⟨hk, marked_of_ne hk⟩

end TableLockOp

open TableLockOp List ObOBJLock

/-! ## Views -/

def isNode (m : LockMode) (h : TableLockOp) : Bool := h.needRecordLockOp && h.lockMode = m

def isCounted (m : LockMode) (h : TableLockOp) : Bool := !h.needRecordLockOp && h.lockMode = m

/-- The records of what a transaction is doing. -/
def isDoingOf (t : ℕ) (h : TableLockOp) : Bool := h.createTransId = t && h.lockOpStatus = .doing

/-- The object and the lists of the transactions are views of the records. -/
structure Records (H : List TableLockOp) (o : ObOBJLock) (L : ℕ → List TableLockOp) : Prop where
  map : ∀ m, o.map m = H.filter (isNode m)
  counter : ∀ m, o.counter m = H.countP (isCounted m)
  lockList : ∀ t, L t = H.filter (isDoingOf t)
  keys : (H.map key).Nodup

namespace Records

variable {H : List TableLockOp} {o : ObOBJLock} {L : ℕ → List TableLockOp} {op : TableLockOp}

theorem nodup (hR : Records H o L) : H.Nodup := hR.keys.of_map

theorem mem_lockList (hR : Records H o L) {t} : op ∈ L t ↔
    op ∈ H ∧ op.createTransId = t ∧ op.lockOpStatus = .doing := by
  simp [hR.lockList, isDoingOf]

theorem mem_map (hR : Records H o L) {m} : op ∈ o.map m ↔
    op ∈ H ∧ op.needRecordLockOp = true ∧ op.lockMode = m := by
  simp [hR.map, isNode]

/-! ## Recording -/

theorem addCounter_map (o : ObOBJLock) (m : LockMode) (k : ℤ) : (o.addCounter m k).map = o.map := by
  cases m <;> rfl

theorem record_map (o : ObOBJLock) (op : TableLockOp) (m : LockMode) :
    (o.record op).map m = o.map m ++ [op].filter (isNode m) := by
  by_cases hr : op.needRecordLockOp = true
  · by_cases hm : op.lockMode = m
    · subst hm
      simp [ObOBJLock.record, ObOBJLock.setList, hr, isNode]
    · simp [ObOBJLock.record, ObOBJLock.setList, hr, isNode, hm, Function.update_of_ne (Ne.symm hm)]
  · simp [ObOBJLock.record, hr, isNode, addCounter_map]

theorem addCounter_counter (o : ObOBJLock) {op : TableLockOp} (hr : op.needRecordLockOp = false)
    (k : ℤ) (m : LockMode) : (o.addCounter op.lockMode k).counter m
      = o.counter m + if op.lockMode = m then k else 0 := by
  obtain ⟨mode, owner, t, type, seq, branch, status⟩ := op
  cases type <;> cases mode <;> cases m <;>
    simp_all [needRecordLockOp, ObOBJLock.addCounter, ObOBJLock.counter]

@[simp] theorem setList_map_self (o : ObOBJLock) (m : LockMode) (l : List TableLockOp) :
    (o.setList m l).map m = l := by simp [ObOBJLock.setList]

theorem setList_map_of_ne (o : ObOBJLock) {m m'} (h : m' ≠ m) (l : List TableLockOp) :
    (o.setList m l).map m' = o.map m' := by simp [ObOBJLock.setList, Function.update_of_ne h]

@[simp] theorem setList_counter (o : ObOBJLock) (m m' : LockMode) (l : List TableLockOp) :
    (o.setList m l).counter m' = o.counter m' := by
  cases m' <;> rfl

theorem record_counter (o : ObOBJLock) (op : TableLockOp) (m : LockMode) :
    (o.record op).counter m = o.counter m + ([op].countP (isCounted m) : ℕ) := by
  by_cases hr : op.needRecordLockOp = true
  · simp [ObOBJLock.record, hr, isCounted]
  have hr' : op.needRecordLockOp = false := Bool.eq_false_iff.mpr hr
  rw [ObOBJLock.record, if_neg hr, addCounter_counter o hr']
  by_cases hm : op.lockMode = m <;> simp [isCounted, hr', hm]

variable {L' : ℕ → List TableLockOp} {l : List TableLockOp}

theorem add (hR : Records H o L) (hd : op.lockOpStatus = .doing) (hnew : op.key ∉ H.map key)
    (hL : ∀ t, L' t = if t = op.createTransId then L t ++ [op] else L t) :
    Records (H ++ [op]) (o.record op) L' := by
  refine ⟨?_, ?_, ?_, ?_⟩
  · intro m
    rw [record_map, hR.map, filter_append]
  · intro m
    rw [record_counter, hR.counter, countP_append]
    push_cast
    rfl
  · intro t
    rw [hL t, hR.lockList, filter_append]
    by_cases ht : t = op.createTransId
    · simp [ht, isDoingOf, hd]
    · simp [ht, isDoingOf, Ne.symm ht]
  · rw [map_append]
    exact hR.keys.append (nodup_singleton _) (by simpa using hnew)

/-! ## Removing -/

/-- The records without those that have the key of the operation. -/
def del (H : List TableLockOp) (op : TableLockOp) : List TableLockOp :=
  H.filter fun h => h.key ≠ op.key

theorem mem_del {h} : h ∈ del H op ↔ h ∈ H ∧ h.key ≠ op.key := by
  simp [del]

theorem del_eq_erase (hkeys : (H.map key).Nodup) (hop : op ∈ H) : del H op = H.erase op := by
  rw [hkeys.of_map.erase_eq_filter]
  apply filter_congr
  intro h hh
  have heq : h.key = op.key ↔ h = op :=
    ⟨fun hk => inj_on_of_nodup_map hkeys hh hop hk, fun hk => hk ▸ rfl⟩
  by_cases hk : h = op <;> simp [heq, hk]

theorem removeLockOp_map (o : ObOBJLock) (op : TableLockOp) (m : LockMode) :
    (o.removeLockOp op).map m
      = if isNode m op then (o.map m).filter fun curr => !curr.sameNode op else o.map m := by
  by_cases hr : op.needRecordLockOp = true
  · by_cases hm : op.lockMode = m
    · subst hm
      simp [removeLockOp, setList, hr, isNode]
    · simp [removeLockOp, setList, hr, isNode, hm, Function.update_of_ne (Ne.symm hm)]
  · simp [removeLockOp, hr, isNode, addCounter_map]

theorem removeLockOp_counter (o : ObOBJLock) (op : TableLockOp) (m : LockMode) :
    (o.removeLockOp op).counter m = o.counter m - ([op].countP (isCounted m) : ℕ) := by
  by_cases hr : op.needRecordLockOp = true
  · simp [removeLockOp, hr, isCounted]
  have hr' : op.needRecordLockOp = false := Bool.eq_false_iff.mpr hr
  rw [removeLockOp, if_neg hr, addCounter_counter o hr']
  by_cases hm : op.lockMode = m <;> simp [isCounted, hr', hm, Int.sub_eq_add_neg]

theorem del_records (hR : Records H o L) (hop : op ∈ H) (hd : op.lockOpStatus = .doing)
    (hL : ∀ t, L' t = if t = op.createTransId then (L t).erase op else L t) :
    Records (del H op) (o.removeLockOp op) L' := by
  refine ⟨?_, ?_, ?_, ?_⟩
  · intro m
    rw [removeLockOp_map, hR.map, del]
    split
    next hnode =>
      -- inside the list of the mode, transaction, owner and type are the key
      rw [filter_filter, filter_filter]
      apply filter_congr
      intro h _
      simp only [isNode, Bool.and_eq_true, decide_eq_true_eq] at hnode
      by_cases hm : h.lockMode = m
      · have hsame := sameNode_iff (hm.trans hnode.2.symm)
        by_cases hk : h.key = op.key
        · simp [hsame.mpr hk, hk]
        · simp [Bool.eq_false_iff.mpr (mt hsame.mp hk), hk]
      · simp [isNode, hm]
    next hnode =>
      rw [filter_filter]
      apply filter_congr
      intro h _
      by_cases hk : h.key = op.key
      · have hmode := (key_eq_iff.mp hk).2.2.2
        have hrec := needRecordLockOp_of_key hk
        simp only [isNode, ← hmode, ← hrec] at hnode
        simp [isNode, hnode]
      · simp [hk]
  · intro m
    rw [removeLockOp_counter, hR.counter, del_eq_erase hR.keys hop]
    have hperm := (perm_cons_erase hop).countP_eq (isCounted m)
    have happ : (op :: H.erase op).countP (isCounted m)
        = [op].countP (isCounted m) + (H.erase op).countP (isCounted m) := by
      rw [← countP_append]
      rfl
    omega
  · intro t
    rw [hL t, hR.lockList, del, filter_filter]
    split
    next ht =>
      have hmem : op ∈ H.filter (isDoingOf t) := by simp [isDoingOf, hop, hd, ht]
      have hfkeys : ((H.filter (isDoingOf t)).map key).Nodup :=
        hR.keys.sublist (filter_sublist.map key)
      rw [← del_eq_erase hfkeys hmem, del, filter_filter]
      exact filter_congr fun h _ => Bool.and_comm _ _
    next ht =>
      apply filter_congr
      intro h _
      by_cases hk : h.key = op.key
      · simp [isDoingOf, (key_eq_iff.mp hk).1, Ne.symm ht]
      · simp [hk]
  · exact hR.keys.sublist (filter_sublist.map key)

/-! ## Completing -/

theorem updateLockStatusInList_eq (hmode : ∀ h ∈ l, h.lockMode = op.lockMode)
    (hkeys : (l.map key).Nodup) (hop : op ∈ l) :
    updateLockStatusInList op l = some (l.map op.marked) := by
  induction l with
  | nil => simp at hop
  | cons curr rest ih =>
  have hcurr := sameNode_iff (hmode curr mem_cons_self)
  rw [map_cons, nodup_cons] at hkeys
  rw [updateLockStatusInList]
  by_cases hk : curr.key = op.key
  · have hrest : rest.map op.marked = rest := by
      -- the others have other keys
      rw [map_congr_left (g := id), map_id]
      intro h hh
      exact marked_of_ne fun hk' => hkeys.1 (List.mem_map.mpr ⟨h, hh, hk'.trans hk.symm⟩)
    rw [if_pos (hcurr.mpr hk), map_cons, hrest, marked, if_pos hk]
    rfl
  · have hmem : op ∈ rest := (mem_cons.mp hop).resolve_left fun heq => hk (heq ▸ rfl)
    rw [if_neg (mt hcurr.mp hk), ih (fun h hh => hmode h (mem_cons_of_mem _ hh)) hkeys.2 hmem,
      Option.map_some, map_cons, marked_of_ne hk]

theorem mark (hR : Records H o L) (hop : op ∈ H) (hr : op.needRecordLockOp = true)
    (hd : op.lockOpStatus = .doing)
    (hL : ∀ t, L' t = if t = op.createTransId then (L t).erase op else L t) :
    ∃ o', o.updateLockStatus op = some o' ∧ o'.number = o.number ∧
      Records (H.map op.marked) o' L' := by
  have hlist : updateLockStatusInList op (o.map op.lockMode)
      = some ((o.map op.lockMode).map op.marked) := by
    refine updateLockStatusInList_eq ?_ ?_ ?_
    · intro h hh
      exact (hR.mem_map.mp hh).2.2
    · rw [hR.map]
      exact hR.keys.sublist (filter_sublist.map key)
    · exact hR.mem_map.mpr ⟨hop, hr, rfl⟩
  refine ⟨o.setList op.lockMode ((o.map op.lockMode).map op.marked),
    by rw [updateLockStatus, hlist, Option.map_some], rfl, ?_, ?_, ?_, ?_⟩
  · intro m
    have hview : (H.map op.marked).filter (isNode m) = (H.filter (isNode m)).map op.marked := by
      rw [filter_map]
      congr 1
      exact filter_congr fun h _ => by simp [isNode]
    rw [hview]
    by_cases hm : m = op.lockMode
    · simp [hm, hR.map]
    rw [setList_map_of_ne _ hm, hR.map, map_congr_left (g := id), map_id]
    intro h hh
    refine marked_of_ne fun hk => hm ?_
    have hmode : h.lockMode = m := by
      have := of_mem_filter hh
      simp only [isNode, Bool.and_eq_true, decide_eq_true_eq] at this
      exact this.2
    exact hmode.symm.trans (key_eq_iff.mp hk).2.2.2
  · intro m
    rw [setList_counter, hR.counter, countP_map]
    exact congrArg _ (countP_congr fun h _ => by simp [isCounted])
  · intro t
    have hview : (H.map op.marked).filter (isDoingOf t) = (del H op).filter (isDoingOf t) := by
      rw [filter_map, del, filter_filter, map_congr_left (g := id), map_id]
      · apply filter_congr
        intro h _
        by_cases hk : h.key = op.key
        · simp [isDoingOf, marked, hk, completed]
        · simp [marked_of_ne hk, hk]
      · intro h hh
        have hdoing := of_mem_filter hh
        simp only [Function.comp_apply, isDoingOf, Bool.and_eq_true, decide_eq_true_eq] at hdoing
        exact (marked_doing hdoing.2).2
    rw [hview]
    exact (hR.del_records hop hd hL).lockList t
  · rw [map_map, map_congr_left (g := key)]
    · exact hR.keys
    intro h _
    exact marked_key op h

/-! ## Compacting -/

/-- The lock record of an owner that an unlock operation is for. -/
def Held (g u : TableLockOp) : Prop :=
  g.opType = .outTransLock ∧ g.ownerId = u.ownerId ∧ g.lockMode = u.lockMode

theorem findForCompact_spec {u : TableLockOp} {l₀ : List TableLockOp} : ∀ {l : List TableLockOp}
    {a b : Option TableLockOp}, (∀ h ∈ l, h ∈ l₀) →
    (∀ h, a = some h → h ∈ l₀ ∧ Held h u ∧ h.lockOpStatus = .complete) →
    (∀ h, b = some h → h ∈ l₀ ∧ h.opType = .outTransUnlock ∧ h.lockMode = u.lockMode ∧
      h.lockOpStatus = .complete) →
    (∀ h, (findForCompact u l a b).1 = some h → h ∈ l₀ ∧ Held h u ∧ h.lockOpStatus = .complete) ∧
    (∀ h, (findForCompact u l a b).2 = some h → h ∈ l₀ ∧ h.opType = .outTransUnlock ∧
      h.lockMode = u.lockMode ∧ h.lockOpStatus = .complete) := by
  intro l
  induction l with
  | nil =>
    intro a b _ ha hb
    exact ⟨ha, hb⟩
  | cons curr rest ih =>
  intro a b hl ha hb
  have hrest : ∀ h ∈ rest, h ∈ l₀ := fun h hh => hl h (mem_cons_of_mem _ hh)
  rw [findForCompact]
  by_cases hmatch : curr.ownerId = u.ownerId ∧ curr.lockMode = u.lockMode
  · rw [if_pos hmatch]
    have ha' : ∀ h, (if curr.isCompleteOuttransLock then some curr else a) = some h →
        h ∈ l₀ ∧ Held h u ∧ h.lockOpStatus = .complete := by
      intro h hh
      split at hh
      next hlock =>
        cases hh
        simp only [isCompleteOuttransLock, decide_eq_true_eq] at hlock
        exact ⟨hl _ mem_cons_self, ⟨hlock.1, hmatch⟩, hlock.2⟩
      next => exact ha h hh
    have hb' : ∀ h, (if curr.isCompleteOuttransUnlock then some curr else b) = some h →
        h ∈ l₀ ∧ h.opType = .outTransUnlock ∧ h.lockMode = u.lockMode ∧
          h.lockOpStatus = .complete := by
      intro h hh
      split at hh
      next hunlock =>
        cases hh
        simp only [isCompleteOuttransUnlock, decide_eq_true_eq] at hunlock
        exact ⟨hl _ mem_cons_self, hunlock.1, hmatch.2, hunlock.2⟩
      next => exact hb h hh
    dsimp only
    generalize (if curr.isCompleteOuttransLock then some curr else a) = a' at ha' ⊢
    generalize (if curr.isCompleteOuttransUnlock then some curr else b) = b' at hb' ⊢
    split
    · exact ⟨ha', hb'⟩
    · exact ih hrest ha' hb'
  · rw [if_neg hmatch]
    exact ih hrest ha hb

/-- The records but at most two. -/
def keep (a b : Option TableLockOp) (h : TableLockOp) : Bool := some h ≠ a && some h ≠ b

theorem removeNode_eq_filter (hl : l.Nodup) (ptr : Option TableLockOp) :
    removeNode l ptr = l.filter fun h => some h ≠ ptr := by
  cases ptr with
  | none => simp [removeNode]
  | some curr =>
  rw [removeNode, hl.erase_eq_filter]
  refine filter_congr fun h _ => ?_
  by_cases hk : h = curr <;> simp [hk]

theorem compactTablelockInList_eq {u : TableLockOp} {f : Bool} (hl : l.Nodup) :
    ∃ a b, compactTablelockInList u f l = l.filter (keep a b) ∧
      (∀ h, a = some h → h ∈ l ∧ Held h u ∧ h.lockOpStatus = .complete) ∧
      (∀ h, b = some h → h ∈ l ∧ h.opType = .outTransUnlock ∧ h.lockMode = u.lockMode ∧
        h.lockOpStatus = .complete) := by
  have hself : ∀ h ∈ l, h ∈ l := fun h hh => hh
  obtain ⟨ha, hb⟩ := findForCompact_spec (u := u) (a := none) (b := none) hself (by simp) (by simp)
  rw [compactTablelockInList]
  split
  · refine ⟨_, _, ?_, ha, hb⟩
    rw [removeNode_eq_filter (by rw [removeNode_eq_filter hl]; exact hl.filter _),
      removeNode_eq_filter hl, filter_filter]
    refine filter_congr fun h _ => ?_
    simp [keep, Bool.and_comm]
  · refine ⟨_, none, ?_, ha, by simp⟩
    rw [removeNode_eq_filter hl]
    refine filter_congr fun h _ => ?_
    simp [keep]

theorem cut (hR : Records H o L) (u : TableLockOp) (f : Bool) :
    ∃ a b, Records (H.filter (keep a b)) (o.compactTablelock u f) L ∧
      (∀ h, a = some h → Held h u ∧ h.lockOpStatus = .complete) ∧
      (∀ h, b = some h → h.opType = .outTransUnlock ∧ h.lockOpStatus = .complete) := by
  have hl : (o.map u.lockMode).Nodup := by
    rw [hR.map]
    exact hR.nodup.filter _
  obtain ⟨a, b, heq, ha, hb⟩ := compactTablelockInList_eq (u := u) (f := f) hl
  have hnode : ∀ h, some h = a ∨ some h = b → isNode u.lockMode h = true ∧
    h.lockOpStatus = .complete := by
    rintro h (hh | hh)
    · obtain ⟨hmem, -, hc⟩ := ha h hh.symm
      exact ⟨by simpa [isNode] using (hR.mem_map.mp hmem).2, hc⟩
    · obtain ⟨hmem, -, -, hc⟩ := hb h hh.symm
      exact ⟨by simpa [isNode] using (hR.mem_map.mp hmem).2, hc⟩
  -- a view without complete nodes of the mode does not see the compaction
  have hview : ∀ p,
      (∀ h, p h = true → ¬ (isNode u.lockMode h = true ∧ h.lockOpStatus = .complete)) →
      (H.filter (keep a b)).filter p = H.filter p := by
    intro p hp
    rw [filter_filter]
    refine filter_congr fun h _ => ?_
    by_cases hph : p h = true
    · have hnone : ¬ (some h = a ∨ some h = b) := fun hab => hp h hph (hnode h hab)
      rw [not_or] at hnone
      simp [hph, keep, hnone]
    · simp [Bool.eq_false_iff.mpr hph]
  refine ⟨a, b, ⟨?_, ?_, ?_, ?_⟩, fun h hh => (ha h hh).2,
    fun h hh => ⟨(hb h hh).2.1, (hb h hh).2.2.2⟩⟩
  · intro m
    by_cases hm : m = u.lockMode
    · subst hm
      rw [compactTablelock, setList_map_self, heq, hR.map, filter_filter, filter_filter]
      exact filter_congr fun h _ => Bool.and_comm _ _
    rw [hview, compactTablelock, setList_map_of_ne _ hm, hR.map]
    rintro h hh ⟨hn, -⟩
    simp only [isNode, Bool.and_eq_true, decide_eq_true_eq] at hh hn
    exact hm (hh.2.symm.trans hn.2)
  · intro m
    rw [compactTablelock, setList_counter, hR.counter, countP_eq_length_filter,
      countP_eq_length_filter, hview]
    rintro h hh ⟨hn, -⟩
    simp only [isNode, isCounted, Bool.and_eq_true, Bool.not_eq_true'] at hh hn
    simp [hn.1] at hh
  · intro t
    rw [hview, hR.lockList]
    rintro h hh ⟨-, hc⟩
    simp only [isDoingOf, hc, Bool.and_eq_true, decide_eq_true_eq] at hh
    exact absurd hh.2 (by decide)
  · exact hR.keys.sublist (filter_sublist.map key)

/-! ## What a request is checked against -/

/-- **The count of the others**: subtracting what the transaction holds leaves the records of the
mode that are not its own. -/
theorem existLockModeCnt (hR : Records H o L) (t : ℕ) (m : LockMode) :
    o.existLockModeCntWithoutCurrTrans (lockModeCntInSameTrans (L t)) m
      = H.countP fun h => h.lockMode = m && !isDoingOf t h := by
  have hsplit : H.countP (isNode m) + H.countP (isCounted m)
      = (H.countP fun h => h.lockMode = m && isDoingOf t h)
        + H.countP fun h => h.lockMode = m && !isDoingOf t h := by
    clear hR
    induction H with
    | nil => rfl
    | cons h H ih =>
    simp only [countP_cons, isNode, isCounted] at ih ⊢
    by_cases hn : h.needRecordLockOp = true <;> by_cases hd : isDoingOf t h = true <;>
      by_cases hm : h.lockMode = m <;> simp [hn, hd, hm] <;> omega
  have hcnt : lockModeCntInSameTrans (L t) m = H.countP fun h => h.lockMode =
    m && isDoingOf t h := by
    rw [lockModeCntInSameTrans, hR.lockList, countP_filter]
  rw [existLockModeCntWithoutCurrTrans, hR.counter, hR.map, ← countP_eq_length_filter, hcnt]
  omega

end Records

variable {op : TableLockOp} {cnt : LockMode → ℕ}

theorem existLockModeWithoutCurrTrans_eq {o : ObOBJLock} {bits}
    (h : o.existLockModeWithoutCurrTrans cnt = some bits) :
    bits = bitsOf fun m => o.existLockModeCntWithoutCurrTrans cnt m ≠ 0 := by
  obtain ⟨-, h⟩ := Option.ite_none_left_eq_some.mp h
  obtain ⟨-, h⟩ := Option.ite_none_left_eq_some.mp h
  rw [← Option.some_inj.mp h, bitsOf]
  congr 1
  funext b m
  by_cases hm : o.existLockModeCntWithoutCurrTrans cnt m = 0 <;> simp [hm]

theorem checkAllowLock_success {o : ObOBJLock} {dbms}
    (h : o.checkAllowLock dbms op cnt = .success) : (op.needRecordLockOp = true →
      checkOpAllowLockFromList dbms op (o.map op.lockMode) .success = .success) ∧
    ∀ m, o.existLockModeCntWithoutCurrTrans cnt m ≠ 0 → m.compatible op.lockMode = true := by
  simp only [checkAllowLock] at h
  generalize hret : (if op.needRecordLockOp then
    checkOpAllowLockFromList dbms op (o.map op.lockMode) .success else .success) = ret at h
  split at h
  next hne => exact absurd h hne
  next heq =>
  rw [not_not] at heq
  subst heq
  refine ⟨fun hr => by rwa [if_pos hr] at hret, ?_⟩
  split at h
  next => cases h
  next bits hbits =>
  split at h
  next hreq =>
    intro m hm
    rw [existLockModeWithoutCurrTrans_eq hbits] at hreq
    exact requestLock_compatible hreq (decide_eq_true hm)
  next => cases h

theorem checkOpAllowLockFromList_success {dbms} (htype : op.opType = .outTransLock) : ∀ {l ret},
      checkOpAllowLockFromList dbms op l ret = .success →
      ret = .success ∧ ∀ c ∈ l, c.ownerId = op.ownerId → c.opType = .inTransCommonLock := by
  intro l
  induction l with
  | nil =>
    intro ret h
    exact ⟨h, by simp⟩
  | cons curr rest ih =>
  intro ret h
  rw [checkOpAllowLockFromList, htype] at h
  dsimp only at h
  by_cases howner : curr.ownerId = op.ownerId
  · rw [if_pos howner] at h
    split at h
    next =>
      split at h
      next => cases h
      next => exact absurd (ih h).1 (by decide)
    next => cases h
    next hcommon =>
      split at h
      next =>
        obtain ⟨hret, hrest⟩ := ih h
        refine ⟨hret, ?_⟩
        intro c hc hown
        rcases mem_cons.mp hc with rfl | hc
        · exact hcommon
        · exact hrest c hc hown
      next => cases h
    next => cases h
  · rw [if_neg howner] at h
    obtain ⟨hret, hrest⟩ := ih h
    refine ⟨hret, ?_⟩
    intro c hc hown
    rcases mem_cons.mp hc with rfl | hc
    · exact absurd hown howner
    · exact hrest c hc hown

theorem checkOpAllowUnlockLoop_success : ∀ {l b}, checkOpAllowUnlockLoop op l b = .success →
    ∀ c ∈ l, c.ownerId = op.ownerId → c.opType = .outTransLock ∧ c.lockOpStatus = .complete := by
  intro l
  induction l with
  | nil => simp
  | cons curr rest ih =>
  intro b h c hc hown
  rw [checkOpAllowUnlockLoop] at h
  by_cases howner : curr.ownerId = op.ownerId
  · rw [if_pos howner] at h
    split at h
    case h_5 hstatus htype =>
      rcases mem_cons.mp hc with rfl | hc
      · exact ⟨htype, hstatus⟩
      · exact ih h c hc hown
    all_goals cases h
  · rw [if_neg howner] at h
    rcases mem_cons.mp hc with rfl | hc
    · exact absurd hown howner
    · exact ih h c hc hown

end OceanBase.Tablelock
