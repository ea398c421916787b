import OceanBase.Memtable.Versions

/-!
# Reading a row at a snapshot

`ObMvccValueIterator` looks for the newest node that its snapshot sees, and returns this node and
all older ones that are neither aborted nor locks. Whether a node is seen is decided by its flags or
by the transaction table; nodes whose state only the table knows are written back on the way. Only
the first node is tested against the snapshot: that the older ones belong to it follows from the
order of the versions.

## Main results

* `read_eq_visible`, `read_returns_later_commit`
-/

namespace OceanBase.Memtable

open List TransNode Bool ObMvccRow

/-! ## The iterator -/

/-- A snapshot, for a reader that reads neither the latest nor uncommitted versions. -/
structure ReadCtx where
  snapshotVersion : ℕ
  snapshotTxId : Option ℕ
  snapshotSeqNo : ℕ
  /-- no transaction table of a source log stream has to be asked -/
  noSrcTxTable : Bool := true
  isStandbyRead : Bool := false

/-- How a read fails. A read that waits for a node to be written back does not return. -/
inductive ReadError where
  | sharedLockConflict
  | errUnexpected
  | waits
  deriving DecidableEq

/-- `inner_lock_for_read`: whether the node can be read, and the version of a transaction that has
committed. -/
def innerLockForRead (d : TxData) (prepareVersion : Option ℕ) (c : ReadCtx) (x : TransNode) :
    Except ReadError (Bool × Option ℕ) :=
  match d.state with
  | .commit v => .ok (decide (v ≤ c.snapshotVersion) && !d.isContain x.seqNo, some v)
  | .running =>
    if c.snapshotTxId = some x.txId then
      .ok (decide (x.seqNo ≤ c.snapshotSeqNo) && !d.isContain x.seqNo, none)
    else
      match prepareVersion with
      | none => .ok (false, none)
      | some p => if c.snapshotVersion < p then .ok (false, none) else .error .sharedLockConflict
  | .abort => .ok (false, none)

/-- `is_effective_trans_version` of a version that may be missing. -/
def isEffectiveTransVersion : Option ℕ → Bool
  | none => false
  | some v => v ≠ 0

namespace ObMvccRow

/-- `lock_for_read_inner_`: whether the iterator stays at the node. -/
def lockForReadInner (tx : ℕ → TxData) (prepareVersion : ℕ → Option ℕ) (c : ReadCtx)
    (r : ObMvccRow) (iter : ℕ) : Except ReadError (ObMvccRow × Bool) :=
  let x := r.node iter
  if x.committed || x.aborted ||
      (!x.delayedCleanout && c.noSrcTxTable && decide (c.snapshotTxId = some x.txId)) then
    if x.committed then .ok (r, x.transVersion ≤ c.snapshotVersion)
    else if x.aborted then .ok (r, false)
    else if c.snapshotTxId = some x.txId then .ok (r, x.seqNo ≤ c.snapshotSeqNo)
    else .error .errUnexpected
  else
    (innerLockForRead (tx x.txId) (prepareVersion x.txId) c x).bind fun (canRead, version) =>
      let r := if x.delayedCleanout then r.cleanout tx iter else r
      -- the state of a node that can be read is waited for
      if canRead && !c.isStandbyRead && isEffectiveTransVersion version &&
          (r.node iter).undecided then .error .waits
      else .ok (r, canRead)

/-- `lock_for_read_`: the newest node that can be read. -/
def lockForRead (tx : ℕ → TxData) (prepareVersion : ℕ → Option ℕ) (c : ReadCtx) :
    ℕ → ObMvccRow → Option ℕ → Except ReadError (ObMvccRow × Option ℕ)
  | _, r, none => .ok (r, none)
  | 0, _, some _ => .error .waits
  | k + 1, r, some iter =>
    (r.lockForReadInner tx prepareVersion c iter).bind fun (r, canRead) =>
      if canRead then .ok (r, some iter)
      else lockForRead tx prepareVersion c k r (r.links.prev iter)

/-- `get_next_node`: the place of the iterator afterwards and the node it returns, if there is
one. -/
def getNextNode (tx : ℕ → TxData) :
    ℕ → ObMvccRow → Option ℕ → Except ReadError (ObMvccRow × Option ℕ × Option ℕ)
  | _, r, none => .ok (r, none, none)
  | 0, _, some _ => .error .waits
  | k + 1, r, some n =>
    let r := r.cleanout tx n
    if (r.node n).aborted || (r.node n).dmlFlag == .lock then
      getNextNode tx k r (r.links.prev n)
    else .ok (r, r.links.prev n, some n)

/-- `get_next_node` until the end. -/
def nextNodes (tx : ℕ → TxData) : ℕ → ObMvccRow → Option ℕ → Except ReadError (List ℕ)
  | 0, _, _ => .error .waits
  | k + 1, r, iter =>
    (r.getNextNode tx k iter).bind fun (r, iter, tnode) =>
      match tnode with
      | none => .ok []
      | some n => (nextNodes tx k r iter).map (n :: ·)

end ObMvccRow

namespace RowState

def read (s : RowState) (prepareVersion : ℕ → Option ℕ) (c : ReadCtx) : Except ReadError (List ℕ) :=
  (s.row.lockForRead s.tx prepareVersion c s.nodeCnt s.row.links.head).bind fun (r, iter) =>
    r.nextNodes s.tx (s.nodeCnt + 1) iter

/-! ## What a snapshot sees -/

/-- The node was written by a transaction that had committed by the snapshot, or before it by the
snapshot's own transaction, which still runs, and was not undone. -/
def Sees (s : RowState) (c : ReadCtx) (n : ℕ) : Bool :=
  !s.undone n && match (s.tx (s.row.node n).txId).state with
    | .commit v => v ≤ c.snapshotVersion
    | .running => decide (c.snapshotTxId = some (s.row.node n).txId) &&
        decide ((s.row.node n).seqNo ≤ c.snapshotSeqNo)
    | .abort => false

/-- The transaction of the node has aborted or undone it. -/
def IsGone (s : RowState) (n : ℕ) : Bool :=
  s.undone n || decide ((s.tx (s.row.node n).txId).state = .abort)

/-- The callbacks of transactions that have ended or rolled back have run, or were removed. -/
def Finished (s : RowState) : Prop :=
  ∀ n < s.nodeCnt, s.cb n = true →
    (s.tx (s.row.node n).txId).state = .running ∧ s.undone n = false

instance (s : RowState) : Decidable s.Finished :=
  inferInstanceAs (Decidable (∀ n < s.nodeCnt, _))

/-- The snapshot is not older than the writes of its own transaction that it sees, and sees none
that has not been checked yet. -/
def Follows (s : RowState) (c : ReadCtx) : Prop :=
  ∀ t ∈ c.snapshotTxId, (∀ n ∈ unchecked (s.pc t), c.snapshotSeqNo < (s.row.node n).seqNo) ∧
    ∀ n < s.nodeCnt, (s.row.node n).txId = t → (s.row.node n).seqNo ≤ c.snapshotSeqNo →
      s.snapshot n ≤ c.snapshotVersion

instance (s : RowState) (c : ReadCtx) : Decidable (s.Follows c) :=
  inferInstanceAs (Decidable (∀ t ∈ c.snapshotTxId, (∀ n ∈ unchecked (s.pc t), _) ∧
    ∀ n < s.nodeCnt, _))

variable {s : RowState} {c : ReadCtx} {n m : ℕ}

/-- **Below a node that the snapshot sees** it sees all that is not gone. -/
theorem sees_of_above (h : s.Versions) (hinv : s.Inv) (hc : s.Follows c) (hn : n ∈ s.chain)
    (hsees : s.Sees c n = true) (hm : m ∈ s.chain) (hlt : m < n) : s.Sees c m = !s.IsGone m := by
  cases hu : s.undone m with
  | true => simp [Sees, IsGone, hu]
  | false =>
    have hnlt := (mem_chain.mp hn).1
    simp only [Sees, and_eq_true, not_eq_true'] at hsees
    obtain ⟨hun, hsees⟩ := hsees
    simp only [Sees, IsGone, hu, Bool.not_false, Bool.true_and, Bool.false_or]
    -- a node of another transaction is settled
    have hother : (s.row.node n).txId ≠ (s.row.node m).txId →
        (s.tx (s.row.node m).txId).state = .abort ∨
          ∃ w, (s.tx (s.row.node m).txId).state = .commit w := fun hne => by
      rcases hinv.locks n m hlt hn hm hne with (hab | hu' | hab) | ⟨w, hw, -⟩
      · exact absurd (hinv.removed m hab).2 (not_aborted_of_mem hm)
      · exact nomatch hu.symm.trans hu'
      · exact .inl hab
      · exact .inr ⟨w, hw⟩
    cases hstate : (s.tx (s.row.node n).txId).state with
    | abort => simp [hstate] at hsees
    | commit v =>
      simp only [hstate, decide_eq_true_eq] at hsees
      by_cases htx : (s.row.node n).txId = (s.row.node m).txId
      · rw [← htx, hstate]
        simp [hsees]
      rcases hother htx with hab | ⟨w, hw⟩
      · simp [hab]
      have hle := (h.commit_le hinv hlt hn hm hu hstate hw).trans hsees
      simp [hw, hle]
    | running =>
    simp only [hstate, and_eq_true, decide_eq_true_eq] at hsees
    by_cases htx : (s.row.node n).txId = (s.row.node m).txId
    · have hseq := (h.seq n m hlt hn hm htx hun hu).trans hsees.2
      rw [← htx, hstate]
      simp [hsees.1, hseq]
    rcases hother htx with hab | ⟨w, hw⟩
    · simp [hab]
    obtain ⟨hchecked, hsnap⟩ := hc _ hsees.1
    have hle := h.above n m hlt hn hm htx
      (fun hun => absurd hsees.2 (not_le.mpr (hchecked n hun))) hu w hw
    have hle' := hle.trans (hsnap n hnlt rfl hsees.2)
    simp [hw, hle']

theorem not_isGone_of_sees (h : s.Sees c n = true) : s.IsGone n = false := by
  simp only [Sees, and_eq_true, not_eq_true'] at h
  cases hstate : (s.tx (s.row.node n).txId).state with
  | abort => simp [hstate] at h
  | running | commit v => simp [IsGone, h.1, hstate]

/-! ## The walk along the chain -/

structure Readable (s : RowState) : Prop where
  inv : s.Inv
  versions : s.Versions
  finished : s.Finished

/-- A node whose state is not known to the table alone is one of a running transaction. -/
theorem Readable.running (h : s.Readable) (hn : n < s.nodeCnt)
    (hund : (s.row.node n).undecided = true) (hdel : (s.row.node n).delayedCleanout = false) :
    (s.tx (s.row.node n).txId).state = .running ∧ s.undone n = false := by
  cases hcb : s.cb n with
  | true => exact h.finished n hn hcb
  | false =>
    -- the node of a call in progress is the head that the writer holds
    have hpend := h.inv.pending n hn hund hdel hcb
    have hpc := h.inv.pc (s.row.node n).txId
    cases hp : s.pc (s.row.node n).txId with
    | reloadTrans q res | reloadElr q res | undo q res e =>
      rw [hp] at hpc hpend
      obtain ⟨k, -, -, -, hundone, hnode⟩ := hpc.2.1.head
      exact ⟨hpc.2.1.running, (hnode n hpend).1 ▸ hundone⟩
    | _ =>
      rw [hp] at hpend
      exact nomatch hpend

/-- The row has the same nodes, up to their state. -/
def SameNodes (r r' : ObMvccRow) : Prop :=
  ∀ n, (r'.node n).txId = (r.node n).txId ∧ (r'.node n).seqNo = (r.node n).seqNo ∧
    (r'.node n).dmlFlag = (r.node n).dmlFlag

theorem SameNodes.refl (r : ObMvccRow) : SameNodes r r := fun _ => ⟨rfl, rfl, rfl⟩

theorem SameNodes.trans {r r' r''} (h : SameNodes r r') (h' : SameNodes r' r'') :
    SameNodes r r'' := fun n =>
  ⟨(h' n).1.trans (h n).1, (h' n).2.1.trans (h n).2.1, (h' n).2.2.trans (h n).2.2⟩

variable {r : ObMvccRow}

theorem SameNodes.undone (h : SameNodes s.row r) :
    { s with row := r }.undone n = s.undone n := by
  change (s.tx (r.node n).txId).isContain (r.node n).seqNo = _
  rw [(h n).1, (h n).2.1]
  rfl

theorem SameNodes.sees (h : SameNodes s.row r) :
    { s with row := r }.Sees c n = s.Sees c n := by
  unfold Sees
  rw [h.undone]
  change (_ && match (s.tx (r.node n).txId).state with
    | .commit v => decide (v ≤ c.snapshotVersion)
    | .running => decide (c.snapshotTxId = some (r.node n).txId) &&
        decide ((r.node n).seqNo ≤ c.snapshotSeqNo)
    | .abort => false) = _
  rw [(h n).1, (h n).2.1]

theorem SameNodes.isGone (h : SameNodes s.row r) :
    { s with row := r }.IsGone n = s.IsGone n := by
  unfold IsGone
  rw [h.undone]
  rw [(h n).1]

/-- The row `r` after the node `n` was visited, which has the nodes `b` below it. -/
structure Visited (s : RowState) (n : ℕ) (b : List ℕ) (r : ObMvccRow) : Prop where
  readable : { s with row := r }.Readable
  chain : ∃ a, r.chain s.nodeCnt = a ++ b
  prev : r.links.prev n = b.head?
  same : SameNodes s.row r
  idem : r.cleanout s.tx n = r
  aborted : (r.node n).aborted = s.IsGone n

end RowState

namespace ObMvccRow

variable {r : ObMvccRow} {n cnt : ℕ} {a b : List ℕ}

theorem prev_of_unlink (h : r.Ok cnt) (hchain : r.chain cnt = a ++ n :: b) :
    ((r.links.unlink n).getD r.links).prev n = b.head? := by
  have hrep := hchain ▸ h.rep
  cases hL : r.links.unlink n with
  | none => exact hrep.prev_eq
  | some L => exact hrep.unlink_prev hL

theorem abortNode_links : (r.abortNode n).links = (r.links.unlink n).getD r.links := by
  unfold abortNode
  dsimp only
  rw [unlinkTransNode_setNode]
  unfold unlinkTransNode
  cases r.links.unlink n <;> rfl

theorem commitNode_prev {v} (h : r.Ok cnt) (hchain : r.chain cnt = a ++ n :: b) :
    (r.commitNode n v).links.prev n = b.head? := by
  unfold commitNode
  dsimp only
  split
  · rw [← prev_of_unlink h hchain, unlinkTransNode_setNode]
    simp only [unlinkTransNode, Option.map_map]
    change (Option.getD (Option.map _ (r.links.unlink n)) _ : ObMvccRow).links.prev n = _
    cases r.links.unlink n <;> rfl
  · exact (hchain ▸ h.rep).prev_eq

theorem cleanout_prev (tx : ℕ → TxData) (h : r.Ok cnt) (hchain : r.chain cnt = a ++ n :: b) :
    (r.cleanout tx n).links.prev n = b.head? := by
  have hn : n < cnt := (mem_chain.mp (hchain ▸ mem_append_right a mem_cons_self)).1
  rcases cleanout_cases tx h hn with ⟨heq, -⟩ | ⟨-, -, -, heq⟩ | ⟨v, -, -, -, -, heq⟩
  · rw [heq]
    exact (hchain ▸ h.rep).prev_eq
  · rw [heq, abortNode_links]
    exact prev_of_unlink h hchain
  · rw [heq]
    exact commitNode_prev h hchain

end ObMvccRow

namespace RowState

variable {s : RowState} {c : ReadCtx} {n m : ℕ} {a b : List ℕ}

variable {r : ObMvccRow}

theorem DecidesNode.sameNodes {cb rm : ℕ → Bool} {pc : ℕ → WritePc} {x}
    (d : DecidesNode s n r cb rm pc x) : SameNodes s.row r := fun m => by
  by_cases hmn : m = n
  · subst hmn
    rw [d.node_self]
    exact ⟨d.txId, d.seqNo, d.dmlFlag⟩
  · rw [d.node_of_ne hmn]
    exact ⟨rfl, rfl, rfl⟩

theorem Readable.visit_decides {x} (h : s.Readable)
    (hchain : s.chain = a ++ n :: b) (d : DecidesNode s n r s.cb s.removed s.pc x)
    (hx : x.committed = true → s.undone n = false) (hprev : r.links.prev n = b.head?)
    (hgone : x.aborted = s.IsGone n) : s.Visited n b r := by
  have hnd : (a ++ n :: b).Nodup := hchain ▸ chain_nodup
  have hnb : ∀ m ∈ b, m ≠ n := fun m hm heq =>
    (nodup_cons.mp (nodup_append.mp hnd).2.1).1 (heq ▸ hm)
  refine ⟨⟨h.inv.decide d, h.versions.decide h.inv d hx, fun m hm hcb => ?_⟩, ?_, hprev,
    d.sameNodes, ?_, ?_⟩
  · rw [d.sameNodes.undone]
    change (s.tx (r.node m).txId).state = _ ∧ _
    rw [(d.sameNodes m).1]
    exact h.finished m hm hcb
  · have heq := d.decides.chain_eq
    change r.chain s.nodeCnt = _ at heq
    have hkeep : b.filter (fun m => (r.node m).alive) = b := filter_eq_self.mpr fun m hm => by
      rw [d.node_of_ne (hnb m hm)]
      exact (mem_chain.mp
        (hchain ▸ mem_append_right a (mem_cons_of_mem n hm) : m ∈ s.chain)).2
    refine ⟨(a ++ [n]).filter fun m => (r.node m).alive, ?_⟩
    rw [heq, hchain, append_cons, filter_append]
    exact congrArg _ hkeep
  · have hund : (r.node n).undecided = false := by
      rw [d.node_self]
      rcases d.decided with ⟨h, -⟩ | ⟨h, -⟩ <;> simp [undecided, h]
    simp [cleanout, hund]
  · rw [d.node_self, hgone]

/-- **Visiting a node** writes back its state, and the way down the chain stays open. -/
theorem Readable.visit (h : s.Readable) (hchain : s.chain = a ++ n :: b) :
    s.Visited n b (s.row.cleanout s.tx n) := by
  have hmem : n ∈ s.chain := hchain ▸ mem_append_right a mem_cons_self
  have hn := (mem_chain.mp hmem).1
  have hprev := cleanout_prev s.tx h.inv.ok hchain
  have hab : (s.row.node n).aborted = false := by simpa using not_aborted_of_mem hmem
  rcases cleanout_cases s.tx h.inv.ok hn with ⟨heq, hrun⟩ | ⟨hund, hdel, hfree, heq⟩ |
    ⟨v, hund, hdel, hundone, hv, heq⟩
  · refine ⟨by rw [heq]; exact h, ⟨a ++ [n], ?_⟩,
      hprev, by rw [heq]; exact .refl _, by rw [heq, heq], ?_⟩
    · rw [heq, append_assoc]
      exact hchain
    -- nothing is written back: the node is committed or of a running transaction
    have hlive : s.undone n = false ∧ (s.tx (s.row.node n).txId).state ≠ .abort := by
      by_cases hc : (s.row.node n).committed = true
      · obtain ⟨hstate, hu⟩ := h.versions.version n hn hc
        exact ⟨hu, by simp [hstate]⟩
      have hund : (s.row.node n).undecided = true := by simp [undecided, hc, hab]
      by_cases hdel : (s.row.node n).delayedCleanout = true
      · obtain ⟨hu, hstate⟩ := hrun hund hdel
        exact ⟨hu, by simp [hstate]⟩
      · obtain ⟨hstate, hu⟩ := h.running hn hund (by simpa using hdel)
        exact ⟨hu, by simp [hstate]⟩
    rw [heq, hab]
    simp [IsGone, hlive]
  · have hc : (s.row.node n).committed = false := (TransNode.of_undecided hund).1
    rw [heq] at hprev ⊢
    refine h.visit_decides hchain (.abortNode h.inv hn hund ?_ (fun _ _ => rfl)
      (h.inv.cb_eq_false hdel) (fun _ _ => rfl) (.inr hfree)) (fun h => by simp [hc] at h) hprev ?_
    · exact hfree.elim (fun h => .inr (.inr h)) fun h => .inr (.inl (by simp [h]))
    rcases hfree with hu | hstate
    · simp [IsGone, undone, hu]
    · simp [IsGone, hstate]
  · rw [heq] at hprev ⊢
    refine h.visit_decides hchain (.commitNode h.inv hn hund hv (fun _ _ => rfl)
      (h.inv.cb_eq_false hdel)) (fun _ => hundone) hprev ?_
    simp [IsGone, undone, hundone, hv, hab]

theorem cleanout_of_not_delayed {tx : ℕ → TxData}
    (h : (r.node n).undecided = false ∨ (r.node n).delayedCleanout = false) :
    r.cleanout tx n = r := by
  rcases h with h | h <;> simp [cleanout, h]

/-- **The test of a node** agrees with what the snapshot sees, and visits the node. -/
theorem Readable.lockForReadInner (h : s.Readable) (prepareVersion : ℕ → Option ℕ)
    (hchain : s.chain = a ++ n :: b) :
    s.row.lockForReadInner s.tx prepareVersion c n = .error .sharedLockConflict ∨
    s.row.lockForReadInner s.tx prepareVersion c n = .ok (s.row.cleanout s.tx n, s.Sees c n) := by
  have hmem : n ∈ s.chain := hchain ▸ mem_append_right a mem_cons_self
  have hn := (mem_chain.mp hmem).1
  have hab : (s.row.node n).aborted = false := by simpa using not_aborted_of_mem hmem
  unfold ObMvccRow.lockForReadInner
  dsimp only
  by_cases hc : (s.row.node n).committed = true
  · -- the flags of the node decide
    obtain ⟨hstate, hu⟩ := h.versions.version n hn hc
    right
    rw [if_pos (by simp [hc]), if_pos hc, cleanout_of_not_delayed (.inl (by
      simp [undecided, hc]))]
    simp [Sees, hu, hstate]
  have hund : (s.row.node n).undecided = true := by simp [undecided, hc, hab]
  by_cases hopt : (!(s.row.node n).delayedCleanout && c.noSrcTxTable &&
      decide (c.snapshotTxId = some (s.row.node n).txId)) = true
  · -- a node of the snapshot's own transaction that has its callback
    have hopt' := hopt
    simp only [and_eq_true, not_eq_true', decide_eq_true_eq] at hopt'
    obtain ⟨⟨hdel, -⟩, htx⟩ := hopt'
    obtain ⟨hstate, hu⟩ := h.running hn hund hdel
    right
    rw [if_pos (by rw [hopt, Bool.or_true]), if_neg hc, if_neg (by simp [hab]), if_pos htx,
      cleanout_of_not_delayed (.inr hdel)]
    simp [Sees, hu, hstate, htx]
  -- the transaction table decides
  have hclean : (if (s.row.node n).delayedCleanout then s.row.cleanout s.tx n else s.row) =
      s.row.cleanout s.tx n := by
    by_cases hdel : (s.row.node n).delayedCleanout = true
    · rw [if_pos hdel]
    · rw [if_neg hdel, cleanout_of_not_delayed (.inr (by simpa using hdel))]
  rw [if_neg (by simp [hc, hab, hopt])]
  unfold innerLockForRead
  cases hstate : (s.tx (s.row.node n).txId).state with
  | commit v =>
    right
    have hdel : (s.row.node n).delayedCleanout = true := by
      by_contra hdel
      cases hstate.symm.trans (h.running hn hund (by simpa using hdel)).1
    have hdecided : ((s.row.cleanout s.tx n).node n).undecided = false := by
      rcases cleanout_cases s.tx h.inv.ok hn with ⟨-, hrun⟩ | ⟨-, -, -, heq⟩ |
        ⟨w, -, -, -, -, heq⟩
      · cases hstate.symm.trans (hrun hund hdel).2
      · obtain ⟨-, hnode, -⟩ :=
          abortNode_spec h.inv.ok hn (alive_of_undecided hund)
        rw [heq, hnode, Function.update_self]
        simp [undecided]
      · obtain ⟨-, hnode, -⟩ := commitNode_spec (v := w) h.inv.ok hn hund
        rw [heq, hnode, Function.update_self]
        simp [undecided]
    simp only [Except.bind, hclean, hdecided, Bool.and_false, Bool.false_eq_true, if_false]
    simp only [Sees, undone, hstate, Bool.and_comm]
  | abort =>
    right
    simp [Except.bind, hclean, Sees, hstate]
  | running =>
  dsimp only
  by_cases htx : c.snapshotTxId = some (s.row.node n).txId
  · right
    rw [if_pos htx]
    simp only [Except.bind, hclean, isEffectiveTransVersion, Bool.and_false, Bool.false_and,
      Bool.false_eq_true, if_false]
    simp only [Sees, undone, hstate, htx, decide_true, Bool.true_and, Bool.and_comm]
  rw [if_neg htx]
  have hsees : s.Sees c n = false := by simp [Sees, hstate, htx]
  rw [hsees]
  cases prepareVersion (s.row.node n).txId with
  | none =>
    right
    simp [Except.bind, hclean]
  | some p =>
  dsimp only
  split
  · right
    simp [Except.bind, hclean]
  · exact .inl rfl

/-- **The search** passes what the snapshot does not see. -/
theorem Readable.lockForRead (prepareVersion : ℕ → Option ℕ) (b : List ℕ) :
    ∀ {k} {s : RowState} {a}, s.Readable → s.chain = a ++ b → b.length ≤ k →
      s.row.lockForRead s.tx prepareVersion c k b.head? = .error .sharedLockConflict ∨
      ((∃ r, s.row.lockForRead s.tx prepareVersion c k b.head? = .ok (r, none)) ∧
        ∀ m ∈ b, s.Sees c m = false) ∨
      ∃ r skipped n b', b = skipped ++ n :: b' ∧ (∀ m ∈ skipped, s.Sees c m = false) ∧
        s.Sees c n = true ∧ SameNodes s.row r ∧ { s with row := r }.Readable ∧
        (∃ a', r.chain s.nodeCnt = a' ++ n :: b') ∧
        s.row.lockForRead s.tx prepareVersion c k b.head? = .ok (r.cleanout s.tx n, some n) := by
  induction b with
  | nil =>
    intro k s a h hchain hk
    exact .inr (.inl ⟨⟨s.row, by rw [List.head?_nil, ObMvccRow.lockForRead]⟩, nofun⟩)
  | cons n b ih =>
    intro k s a h hchain hk
    obtain ⟨k, rfl⟩ : ∃ k', k = k' + 1 := Nat.exists_eq_add_one_of_ne_zero (by
      rw [length_cons] at hk
      omega)
    rw [List.head?_cons, ObMvccRow.lockForRead]
    rcases h.lockForReadInner (c := c) prepareVersion hchain with heq | heq
    · left
      rw [heq]
      rfl
    obtain ⟨hread, ⟨a', ha'⟩, hprev, hsame, -, -⟩ := h.visit hchain
    rw [heq]
    simp only [Except.bind]
    cases hsees : s.Sees c n with
    | true =>
      rw [if_pos rfl]
      exact .inr (.inr ⟨s.row, [], n, b, rfl, nofun, hsees, .refl _, h, ⟨a, hchain⟩, rfl⟩)
    | false =>
    rw [if_neg Bool.false_ne_true, hprev]
    refine (ih hread ha' (by simpa using hk)).imp_right (Or.imp ?_ ?_)
    · rintro ⟨hend, hnone⟩
      refine ⟨hend, forall_mem_cons.mpr ⟨hsees, fun m hm => ?_⟩⟩
      exact hsame.sees.symm.trans (hnone m hm)
    rintro ⟨r, skipped, m, b', rfl, hskipped, hm, hsame', hr, hchain', heq'⟩
    refine ⟨r, n :: skipped, m, b', rfl, forall_mem_cons.mpr ⟨hsees, fun i hi => ?_⟩,
      hsame.sees.symm.trans hm, hsame.trans hsame', hr, hchain', heq'⟩
    exact hsame.sees.symm.trans (hskipped i hi)

/-- The nodes that the iterator returns once it has started. -/
def Returned (s : RowState) (n : ℕ) : Bool :=
  !s.IsGone n && !((s.row.node n).dmlFlag == .lock)

theorem SameNodes.returned (h : SameNodes s.row r) :
    { s with row := r }.Returned n = s.Returned n := by
  unfold Returned
  rw [h.isGone, (h n).2.2]

theorem Readable.getNextNode (b : List ℕ) :
    ∀ {k} {s : RowState} {a}, s.Readable → s.chain = a ++ b → b.length ≤ k →
      ((∃ r, s.row.getNextNode s.tx k b.head? = .ok (r, none, none)) ∧ b.filter s.Returned = []) ∨
      ∃ r n b', s.row.getNextNode s.tx k b.head? = .ok (r, b'.head?, some n) ∧
        b.filter s.Returned = n :: b'.filter s.Returned ∧ b'.length < b.length ∧
        SameNodes s.row r ∧ { s with row := r }.Readable ∧ ∃ a', r.chain s.nodeCnt = a' ++ b' := by
  induction b with
  | nil =>
    intro k s a h hchain hk
    exact .inl ⟨⟨s.row, by rw [List.head?_nil, ObMvccRow.getNextNode]⟩, rfl⟩
  | cons n b ih =>
  intro k s a h hchain hk
  rw [length_cons] at hk
  obtain ⟨k, rfl⟩ : ∃ k', k = k' + 1 := Nat.exists_eq_add_one_of_ne_zero (by omega)
  obtain ⟨hread, ⟨a', ha'⟩, hprev, hsame, -, haborted⟩ := h.visit hchain
  rw [List.head?_cons, ObMvccRow.getNextNode]
  simp only [haborted, (hsame n).2.2, hprev]
  by_cases hret : s.Returned n = true
  · have hskip : ¬ (s.IsGone n || (s.row.node n).dmlFlag == .lock) = true := by
      simpa [Returned] using hret
    rw [if_neg hskip]
    exact .inr ⟨_, n, b, rfl, by rw [filter_cons_of_pos hret], by simp, hsame, hread, a', ha'⟩
  have hskip : (s.IsGone n || (s.row.node n).dmlFlag == .lock) = true := by
    simpa [Returned, or_iff_not_imp_left] using hret
  rw [if_pos hskip, filter_cons_of_neg hret]
  have hfilter : ∀ l : List ℕ, l.filter { s with row := s.row.cleanout s.tx n }.Returned =
      l.filter s.Returned := fun l => filter_congr fun m _ => hsame.returned
  rcases ih hread ha' (k := k) (by omega) with ⟨hend, hnil⟩ | ⟨r, m, b', heq, hcons, hlt,
    hsame', hr⟩
  · exact .inl ⟨hend, by rw [← hfilter]; exact hnil⟩
  refine .inr ⟨r, m, b', heq, ?_, by simp; omega, hsame.trans hsame', hr⟩
  rw [← hfilter, ← hfilter]
  exact hcons

theorem Readable.nextNodes :
    ∀ (k : ℕ) {s : RowState} {a b}, s.Readable → s.chain = a ++ b → b.length < k →
      s.row.nextNodes s.tx k b.head? = .ok (b.filter s.Returned) := by
  intro k
  induction k with
  | zero => exact fun _ _ hk => absurd hk (Nat.not_lt_zero _)
  | succ k ih =>
  intro s a b h hchain hk
  rw [ObMvccRow.nextNodes]
  rcases h.getNextNode b hchain (Nat.le_of_lt_succ hk) with
    ⟨⟨r, heq⟩, hnil⟩ | ⟨r, n, b', heq, hcons, hlt, hsame, hr, a', ha'⟩
  · rw [heq, hnil]
    rfl
  rw [heq, hcons]
  have hrest := ih hr ha' (by omega)
  simp only [Except.bind, hrest]
  exact congrArg (fun l => Except.ok (n :: l)) (filter_congr fun m _ => hsame.returned)

theorem nextNodes_cleanout {s : RowState} {b} (h : s.Readable)
    (hchain : s.chain = a ++ n :: b) (k : ℕ) :
    (s.row.cleanout s.tx n).nextNodes s.tx k (some n) = s.row.nextNodes s.tx k (some n) := by
  have hidem := (h.visit hchain).idem
  cases k with
  | zero => rfl
  | succ k =>
    rw [nextNodes, nextNodes]
    cases k with
    | zero => rfl
    | succ k => rw [getNextNode, getNextNode, hidem]

end RowState

/-- **A read returns exactly what its snapshot sees**, newest first: the nodes, other than locks,
that were not undone and whose transaction had committed by the snapshot or is the snapshot's own.
The snapshot must not be older than the writes of its own transaction that it sees. -/
theorem read_eq_visible {s : RowState} (hs : (mvccRow RowState.CommitAbove).Reachable s)
    (hfin : s.Finished) (c : ReadCtx) (hc : s.Follows c) (prepareVersion : ℕ → Option ℕ)
    (hconflict : s.read prepareVersion c ≠ .error .sharedLockConflict) :
    s.read prepareVersion c = .ok (s.chain.filter fun n =>
      s.Sees c n && !((s.row.node n).dmlFlag == .lock)) := by
  have h : s.Readable :=
    ⟨RowState.inv_of_reachable hs, RowState.versions_of_reachable hs, hfin⟩
  have hlen : s.chain.length ≤ s.nodeCnt := by
    have : s.chain.length ≤ (List.range s.nodeCnt).length := by
      rw [RowState.chain, chain, length_reverse]
      exact length_filter_le _ _
    rwa [length_range] at this
  have hhead : s.row.links.head = s.chain.head? := h.inv.ok.rep.head
  unfold RowState.read at hconflict ⊢
  rw [hhead] at hconflict ⊢
  rcases h.lockForRead (c := c) prepareVersion s.chain (nil_append _).symm hlen with
    heq | ⟨⟨r, heq⟩, hnone⟩ | ⟨r, skipped, n, b, hsplit, hskipped, hn, hsame, hr, ⟨a, ha⟩, heq⟩
  · rw [heq] at hconflict
    exact absurd rfl hconflict
  · rw [heq]
    change r.nextNodes s.tx (s.nodeCnt + 1) none = _
    rw [nextNodes, getNextNode]
    refine congrArg Except.ok (filter_eq_nil_iff.mpr fun m hm => ?_).symm
    simp [hnone m hm]
  rw [heq]
  change (r.cleanout s.tx n).nextNodes s.tx (s.nodeCnt + 1) (some n) = _
  have hread := RowState.Readable.nextNodes (s.nodeCnt + 1) hr ha (by
    rw [hsplit, length_append] at hlen
    omega)
  rw [RowState.nextNodes_cleanout (s := { s with row := r }) hr ha]
  refine Eq.trans hread (congrArg Except.ok ?_)
  rw [hsplit, filter_append]
  have hnil : skipped.filter (fun m => s.Sees c m && !((s.row.node m).dmlFlag == .lock)) = [] :=
    filter_eq_nil_iff.mpr fun m hm => by simp [hskipped m hm]
  rw [hnil, nil_append]
  refine filter_congr fun m hm => ?_
  rw [hsame.returned]
  have hmem : ∀ m ∈ n :: b, m ∈ s.chain := fun m hm => hsplit ▸ mem_append_right _ hm
  have hsorted : s.chain.Pairwise (· > ·) := chain_sorted
  rw [hsplit] at hsorted
  rcases mem_cons.mp hm with rfl | hmb
  · rw [RowState.Returned, RowState.not_isGone_of_sees hn, hn, Bool.not_false]
  have hlt : m < n := (pairwise_cons.mp (pairwise_append.mp hsorted).2.1).1 m hmb
  rw [RowState.Returned, RowState.sees_of_above h.versions h.inv hc
    (hmem n mem_cons_self) hn (hmem m hm) hlt]

/-! ## A snapshot older than a write it sees -/

/-- A transaction commits with version 5. Another one writes with snapshot 7; with `rollback` it
also locks the row afterwards and rolls the lock back, which the transaction table alone knows. -/
def twoWriters (rollback : Bool) : List RowAct :=
  writeUpTo ⟨1, 3, 1, 1, .insert, {}⟩ ++ [.run 1, .commitTx 1 5, .removeCallback 0] ++
    writeUpTo ⟨2, 7, 2, 2, .update, {}⟩ ++ [.run 2] ++
    if rollback then writeUpTo ⟨2, 7, 3, 3, .delete, {}⟩ ++
      [.run 2, .removeCallback 2, .undo 2 ⟨3, 2⟩] else []

/-- What a read finds in the state after a run: whether the callbacks have run, whether the snapshot
follows the writes it sees, the nodes returned and those that the snapshot sees. -/
def readAfter (as : List RowAct) (c : ReadCtx) :
    Option (Bool × Bool × Except ReadError (List ℕ) × List ℕ) :=
  (RowState.run RowState.CommitAbove .empty as).map fun s =>
    (decide s.Finished, decide (s.Follows c), s.read (fun _ => none) c,
      s.chain.filter fun n => s.Sees c n && !((s.row.node n).dmlFlag == .lock))

theorem exists_of_readAfter {as c follows nodes visible}
    (h : readAfter as c = some (true, follows, nodes, visible)) :
    ∃ s, (mvccRow RowState.CommitAbove).Reachable s ∧ s.Finished ∧
      (follows = true → s.Follows c) ∧ s.read (fun _ => none) c = nodes ∧
      (s.chain.filter fun n => s.Sees c n && !((s.row.node n).dmlFlag == .lock)) = visible := by
  obtain ⟨s, hs, heq⟩ := Option.map_eq_some_iff.mp h
  simp only [Prod.mk.injEq, decide_eq_true_eq] at heq
  obtain ⟨hfin, hfollows, hread, hvisible⟩ := heq
  refine ⟨s, RowState.run_reachable (.init RowState.empty_isInit) hs, hfin, fun ht => ?_, hread,
    hvisible⟩
  simpa [ht] using hfollows

theorem read_eq_visible_twoWriters :
    ∃ s c, (mvccRow RowState.CommitAbove).Reachable s ∧ s.Finished ∧ s.Follows c ∧
      s.read (fun _ => none) c = .ok [1, 0] ∧
      s.read (fun _ => none) c = .ok (s.chain.filter fun n =>
        s.Sees c n && !((s.row.node n).dmlFlag == .lock)) := by
  obtain ⟨s, hs, hfin, hfollows, hread, -⟩ := exists_of_readAfter
    (show readAfter (twoWriters true) ⟨7, some 2, 3, true, false⟩ =
      some (true, true, .ok [1, 0], [1, 0]) by decide +kernel)
  exact ⟨s, _, hs, hfin, hfollows rfl, hread,
    read_eq_visible hs hfin _ (hfollows rfl) _ (by rw [hread]; exact nofun)⟩

/-- **A read returns a node committed after its snapshot**, below one of its own transaction that
was written with a later snapshot. -/
theorem read_returns_later_commit : ∃ s c, (mvccRow RowState.CommitAbove).Reachable s ∧ s.Finished ∧
      s.read (fun _ => none) c = .ok [1, 0] ∧
      (s.chain.filter fun n => s.Sees c n && !((s.row.node n).dmlFlag == .lock)) = [1] := by
  obtain ⟨s, hs, hfin, -, hread, hvisible⟩ := exists_of_readAfter
    (show readAfter (twoWriters false) ⟨4, some 2, 2, true, false⟩ =
      some (true, false, .ok [1, 0], [1]) by decide +kernel)
  exact ⟨s, _, hs, hfin, hread, hvisible⟩

end OceanBase.Memtable
