import OceanBase.Memtable.MvccRow

/-!
# No update of a row is lost

The chain of a row holds exactly the nodes that are neither aborted nor locks of committed
transactions. Below a node of one transaction every node of another one is settled: it is undone, or
its transaction has committed with a version that the row knows. A writer that has passed the latch
section holds the head of the chain, so that what it has found stays true until it returns.

## Main results

* `mvccWrite_no_lost_update`
-/

namespace OceanBase.Memtable

open Function Option List Bool RowState

/-! ## The nodes of the chain -/

def TransNode.alive (x : TransNode) : Bool :=
  !x.aborted && !(x.committed && x.dmlFlag == .lock)

theorem TransNode.of_undecided {x : TransNode} (h : x.undecided = true) :
    x.committed = false ∧ x.aborted = false := by
  simpa [undecided] using h

theorem TransNode.alive_of_undecided {x : TransNode} (h : x.undecided = true) : x.alive = true := by
  simp [alive, of_undecided h]

/-- A field that a new value keeps is the same everywhere. -/
theorem update_field {α β : Type} {f : ℕ → α} {n x} {g : α → β} (h : g x = g (f n)) (m : ℕ) :
    g (update f n x m) = g (f m) := by
  by_cases hmn : m = n
  · rw [hmn, update_self, h]
  · rw [update_of_ne hmn]

namespace ObMvccRow

/-- The nodes among the first `cnt` ones that belong to the chain, newest first. -/
def chain (r : ObMvccRow) (cnt : ℕ) : List ℕ :=
  ((range cnt).filter fun n => (r.node n).alive).reverse

variable {r r' : ObMvccRow} {cnt n m : ℕ} {x : TransNode}

theorem mem_chain : n ∈ r.chain cnt ↔ n < cnt ∧ (r.node n).alive = true := by
  simp [chain]

theorem chain_congr (h : ∀ n < cnt, (r'.node n).alive = (r.node n).alive) :
    r'.chain cnt = r.chain cnt := by
  unfold chain
  rw [filter_congr fun n hn => h n (mem_range.mp hn)]

theorem chain_sorted : (r.chain cnt).Pairwise (· > ·) := by
  rw [chain, pairwise_reverse]
  exact Pairwise.filter _ pairwise_lt_range

theorem chain_nodup : (r.chain cnt).Nodup :=
  (chain_sorted (r := r)).imp fun h => h.ne'

theorem le_of_head (h : (r.chain cnt).head? = some n) (hm : m ∈ r.chain cnt) : m ≤ n := by
  have hsorted : (r.chain cnt).Pairwise (· > ·) := chain_sorted
  obtain ⟨l, hl⟩ := head?_eq_some_iff.mp h
  rw [hl] at hm hsorted
  rcases mem_cons.mp hm with rfl | hmem
  · exact le_rfl
  · exact ((pairwise_cons.mp hsorted).1 m hmem).le

theorem chain_erase (h : ∀ m < cnt, m ≠ n → (r'.node m).alive = (r.node m).alive)
    (hn : (r'.node n).alive = false) : r'.chain cnt = (r.chain cnt).erase n := by
  rw [chain_nodup.erase_eq_filter]
  unfold chain
  rw [List.filter_reverse, List.filter_filter, List.reverse_inj]
  refine List.filter_congr fun m hm => ?_
  by_cases hmn : m = n
  · simp [hmn, hn]
  · simp [hmn, h m (mem_range.mp hm) hmn]

/-- The pointers and the counter are those of the chain. -/
structure Ok (r : ObMvccRow) (cnt : ℕ) : Prop where
  rep : r.links.Rep (r.chain cnt)
  count : r.totalTransNodeCnt = (r.chain cnt).length

theorem Ok.congr (h : r.Ok cnt) (hlinks : r'.links = r.links)
    (hcount : r'.totalTransNodeCnt = r.totalTransNodeCnt)
    (halive : ∀ n < cnt, (r'.node n).alive = (r.node n).alive) : r'.Ok cnt := by
  refine ⟨?_, ?_⟩
  · rw [hlinks, chain_congr halive]
    exact h.rep
  · rw [hcount, chain_congr halive]
    exact h.count

theorem Ok.unlink (h : r.Ok cnt) (hn : n < cnt) (ha : (r.node n).alive = true) :
    ∃ r₁, r.unlinkTransNode n = some r₁ ∧ r₁.node = r.node ∧
      r₁.maxTransVersion = r.maxTransVersion ∧ r₁.maxElrTransVersion = r.maxElrTransVersion ∧
      (r.links.head = some n → r₁.links.prev n = r₁.links.head) ∧
      ∀ r₂ : ObMvccRow, r₂.links = r₁.links → r₂.totalTransNodeCnt = r₁.totalTransNodeCnt →
        (∀ m < cnt, m ≠ n → (r₂.node m).alive = (r.node m).alive) → (r₂.node n).alive = false →
        r₂.Ok cnt := by
  have hmem : n ∈ r.chain cnt := mem_chain.mpr ⟨hn, ha⟩
  obtain ⟨L, hL, hrep⟩ := h.rep.unlink hmem
  refine ⟨{ r with links := L, totalTransNodeCnt := r.totalTransNodeCnt - 1 },
    by simp [unlinkTransNode, hL], rfl, rfl, rfl, fun hhead => ?_, fun r₂ hl hc halive hdead => ?_⟩
  · rw [Links.unlink, if_pos hhead] at hL
    obtain ⟨⟩ := hL
    rfl
  refine ⟨?_, ?_⟩
  · rw [hl, chain_erase halive hdead]
    exact hrep
  rw [hc, chain_erase halive hdead, length_erase_of_mem hmem, h.count]
  have : 0 < (r.chain cnt).length := length_pos_of_mem hmem
  push_cast [Nat.cast_sub this]
  rfl

theorem setNode_node_of_ne (h : m ≠ n) : (r.setNode n x).node m = r.node m :=
  update_of_ne h _ _

theorem setNode_node : (r.setNode n x).node n = x :=
  update_self ..

theorem unlinkTransNode_setNode :
    (r.setNode n x).unlinkTransNode n = (r.unlinkTransNode n).map fun r₁ => r₁.setNode n x := by
  unfold unlinkTransNode
  change (r.links.unlink n).map _ = _
  cases r.links.unlink n <;> rfl

theorem abortNode_eq {r₁} (h : r.unlinkTransNode n = some r₁) :
    r.abortNode n = r₁.setNode n { r.node n with aborted := true } := by
  simp only [abortNode, unlinkTransNode_setNode, h, map_some, getD_some]

/-- **What an abort does**: the node is marked and leaves the chain. -/
theorem abortNode_spec (h : r.Ok cnt) (hn : n < cnt) (ha : (r.node n).alive = true) :
    (r.abortNode n).Ok cnt ∧
      (r.abortNode n).node = update r.node n { r.node n with aborted := true } ∧
      (r.abortNode n).maxTransVersion = r.maxTransVersion ∧
      (r.abortNode n).maxElrTransVersion = r.maxElrTransVersion ∧
      (r.links.head = some n → (r.abortNode n).links.prev n = (r.abortNode n).links.head) := by
  obtain ⟨r₁, hr₁, hnode, hmax, helr, hhead, hok⟩ := h.unlink hn ha
  rw [abortNode_eq hr₁]
  refine ⟨hok _ rfl rfl (fun m _ hmn => ?_) ?_, by rw [setNode, hnode], hmax, helr, hhead⟩
  · rw [setNode_node_of_ne hmn, hnode]
  rw [setNode_node]
  simp [TransNode.alive]

/-- **What a commit does**: the row learns the version, the node is marked, and a lock leaves the
chain. -/
theorem commitNode_spec {v} (h : r.Ok cnt) (hn : n < cnt) (ha : (r.node n).undecided = true) :
    (r.commitNode n v).Ok cnt ∧ (r.commitNode n v).node =
        update r.node n { r.node n with transVersion := v, committed := true } ∧
      (r.commitNode n v).maxTransVersion = max r.maxTransVersion v ∧
      (r.commitNode n v).maxElrTransVersion = max r.maxElrTransVersion v := by
  have halive := TransNode.alive_of_undecided ha
  replace ha := TransNode.of_undecided ha
  let y : TransNode := { r.node n with transVersion := v, committed := true }
  unfold commitNode
  simp only [setNode_node]
  split
  · rename_i hlock
    have hok : (r.transCommit v).Ok cnt := h.congr rfl rfl fun _ _ => rfl
    obtain ⟨r₁, hr₁, hnode, hmax, helr, -, hdrop⟩ := hok.unlink (n := n) hn halive
    rw [unlinkTransNode_setNode, hr₁]
    refine ⟨hdrop (r₁.setNode n y) rfl rfl (fun m _ hmn => ?_) ?_, ?_, hmax, helr⟩
    · rw [setNode_node_of_ne hmn, hnode]
    · rw [setNode_node]
      simp [TransNode.alive, y, hlock]
    change update r₁.node n y = _
    rw [hnode]
    rfl
  · rename_i hlock
    refine ⟨h.congr rfl rfl fun m _ => ?_, rfl, rfl, rfl⟩
    by_cases hmn : m = n
    · rw [hmn, setNode_node, halive]
      simp [TransNode.alive, ha.2, hlock]
    · rw [setNode_node_of_ne hmn]
      rfl

/-- **What a cleanout does**: nothing, an abort or a commit. -/
theorem cleanout_cases (tx : ℕ → TxData) (h : r.Ok cnt) (hn : n < cnt) :
    (r.cleanout tx n = r ∧ ((r.node n).undecided = true → (r.node n).delayedCleanout = true →
        (tx (r.node n).txId).isContain (r.node n).seqNo = false ∧
        (tx (r.node n).txId).state = .running)) ∨
    ((r.node n).undecided = true ∧ (r.node n).delayedCleanout = true ∧
      ((tx (r.node n).txId).isContain (r.node n).seqNo = true ∨
        (tx (r.node n).txId).state = .abort) ∧
      r.cleanout tx n = r.abortNode n) ∨
    ∃ v, (r.node n).undecided = true ∧ (r.node n).delayedCleanout = true ∧
      (tx (r.node n).txId).isContain (r.node n).seqNo = false ∧
      (tx (r.node n).txId).state = .commit v ∧ r.cleanout tx n = r.commitNode n v := by
  unfold cleanout
  by_cases hdelayed : ((r.node n).undecided && (r.node n).delayedCleanout) = true
  · obtain ⟨hund, hdel⟩ := and_eq_true_iff.mp hdelayed
    obtain ⟨r₁, hr₁, -⟩ := h.unlink hn (TransNode.alive_of_undecided hund)
    have habort := abortNode_eq hr₁
    simp only [hdelayed, if_true, hr₁]
    cases hroll : (tx (r.node n).txId).isContain (r.node n).seqNo with
    | true => exact .inr (.inl ⟨hund, hdel, .inl rfl, habort.symm⟩)
    | false =>
      cases hstate : (tx (r.node n).txId).state with
      | running => exact .inl ⟨rfl, fun _ _ => ⟨rfl, rfl⟩⟩
      | commit v => exact .inr (.inr ⟨v, hund, hdel, rfl, rfl, rfl⟩)
      | abort => exact .inr (.inl ⟨hund, hdel, .inr rfl, habort.symm⟩)
  · rw [if_neg hdelayed]
    refine .inl ⟨rfl, fun h1 h2 => absurd ?_ hdelayed⟩
    simp [h1, h2]

end ObMvccRow

/-! ## The invariant -/

namespace RowState

open ObMvccRow (mem_chain le_of_head abortNode_spec commitNode_spec cleanout_cases chain_erase
  setNode_node setNode_node_of_ne)
open TransNode (alive_of_undecided of_undecided)

section

variable (s : RowState)

def chain : List ℕ := s.row.chain s.nodeCnt

/-- The node was rolled back or failed to be written, or its transaction has undone it or was
aborted. -/
def Gone (n : ℕ) : Prop :=
  s.removed n = true ∨ s.undone n = true ∨ (s.tx (s.row.node n).txId).state = .abort

/-- The node is gone, or its transaction has committed with a version up to `v`. -/
def SettledBy (v n : ℕ) : Prop :=
  s.Gone n ∨ ∃ w, (s.tx (s.row.node n).txId).state = .commit w ∧ w ≤ v

/-- The node blocks nobody, and the row knows of its commit. -/
def Settled (n : ℕ) : Prop :=
  s.SettledBy s.row.maxTransVersion n

end

/-- A writer that has passed the latch section owns the head of the chain: the node it has put
there, or one it had written before. -/
structure Holds (s : RowState) (t : ℕ) (txNode : Option ℕ) : Prop where
  running : (s.tx t).state = .running
  head : ∃ h, s.chain.head? = some h ∧ (s.row.node h).txId = t ∧ (s.row.node h).undecided = true ∧
    s.undone h = false ∧
    ∀ n ∈ txNode, n = h ∧ s.cb n = false ∧ (s.row.node n).delayedCleanout = false

/-- What a call of `mvcc_write` knows where it stands. -/
def PcOk (s : RowState) (t : ℕ) : WritePc → Prop
  | .idle => True
  | .loadTrans q | .loadElr q | .latch q =>
    q.txId = t ∧ (s.tx t).state = .running ∧ s.RolledBack t ∧ (s.tx t).isContain q.seqNo = false
  | .reloadTrans q res => q.txId = t ∧ s.Holds t res.txNode ∧
      ∀ n < s.nodeCnt, (s.row.node n).txId ≠ t → s.Settled n
  | .reloadElr q res => q.txId = t ∧ s.Holds t res.txNode ∧
      ∀ n < s.nodeCnt, (s.row.node n).txId ≠ t → s.SettledBy q.snapshotVersion n
  | .undo q res _ => q.txId = t ∧ s.Holds t res.txNode ∧ res.txNode.isSome = true

def pending : WritePc → Option ℕ
  | .reloadTrans _ res | .reloadElr _ res | .undo _ res _ => res.txNode
  | _ => none

/-- **The invariant of the row.** -/
structure Inv (s : RowState) : Prop where
  ok : s.row.Ok s.nodeCnt
  committed : ∀ n < s.nodeCnt, (s.row.node n).committed = true →
    ∃ v, (s.tx (s.row.node n).txId).state = .commit v ∧ v ≤ s.row.maxTransVersion
  aborted : ∀ n < s.nodeCnt, (s.row.node n).aborted = true → s.Gone n
  removed : ∀ n, s.removed n = true → n < s.nodeCnt ∧ (s.row.node n).aborted = true
  cb : ∀ n, s.cb n = true → n < s.nodeCnt ∧ (s.row.node n).undecided = true ∧
    (s.row.node n).delayedCleanout = false
  locks : ∀ i j, j < i → i ∈ s.chain → j ∈ s.chain → (s.row.node i).txId ≠ (s.row.node j).txId →
    s.Settled j
  pending : ∀ n < s.nodeCnt, (s.row.node n).undecided = true →
    (s.row.node n).delayedCleanout = false → s.cb n = false →
    pending (s.pc (s.row.node n).txId) = some n
  pc : ∀ t, s.PcOk t (s.pc t)

/-- Nodes are decided, undone or lose their callback, and a call may end whose node is decided. A
transaction with a write in progress keeps its state and what it holds. -/
structure Decides (s s' : RowState) : Prop where
  nodeCnt : s'.nodeCnt = s.nodeCnt
  pc : ∀ t, s'.pc t = s.pc t ∨ (s'.pc t = .idle ∧
    ∀ n, pending (s.pc t) = some n → (s'.row.node n).aborted = true)
  txId : ∀ n, (s'.row.node n).txId = (s.row.node n).txId
  seqNo : ∀ n, (s'.row.node n).seqNo = (s.row.node n).seqNo
  cb : ∀ n, s'.cb n = true → s.cb n = true
  maxTransVersion : s.row.maxTransVersion ≤ s'.row.maxTransVersion
  alive : ∀ n, (s'.row.node n).alive = true → (s.row.node n).alive = true
  removed : ∀ n, s.removed n = true → s'.removed n = true
  undecided : ∀ n, (s'.row.node n).undecided = true → (s.row.node n).undecided = true
  delayed : ∀ n, (s.row.node n).delayedCleanout = true → (s'.row.node n).delayedCleanout = true
  lost : ∀ n, s.cb n = true → s'.cb n = false →
    (s'.row.node n).undecided = false ∨ (s'.row.node n).delayedCleanout = true
  undo : ∀ t seqNo, (s.tx t).isContain seqNo = true → (s'.tx t).isContain seqNo = true
  state : ∀ t, (s.tx t).state = .running ∨ (s'.tx t).state = (s.tx t).state
  busy : ∀ t, s'.pc t ≠ .idle → s'.tx t = s.tx t
  held : ∀ n, s'.pc (s.row.node n).txId ≠ .idle →
    (s.tx (s.row.node n).txId).state = .running → (s.row.node n).undecided = true →
    s.undone n = false → (s'.row.node n).undecided = true ∧
      (s.cb n = false → (s'.row.node n).delayedCleanout = (s.row.node n).delayedCleanout)

variable {s s' : RowState} {n t v : ℕ}

theorem not_aborted_of_mem (h : n ∈ s.chain) : (s.row.node n).aborted ≠ true := fun hab => by
  have halive := (mem_chain.mp h).2
  simp [TransNode.alive, hab] at halive

theorem not_settledBy_of_running (hinv : s.Inv) (h : n ∈ s.chain)
    (hrun : (s.tx (s.row.node n).txId).state = .running) (hundone : s.undone n = false) :
    ¬ s.SettledBy v n := by
  rintro ((hab | hu | hab) | ⟨w, hw, -⟩)
  · exact not_aborted_of_mem h (hinv.removed n hab).2
  · simp [hundone] at hu
  · exact nomatch hrun.symm.trans hab
  · exact nomatch hrun.symm.trans hw

namespace Decides

section

variable (d : Decides s s')
include d

theorem gone (h : s.Gone n) : s'.Gone n := by
  rcases h with h | h | h
  · exact .inl (d.removed n h)
  · refine .inr (.inl ?_)
    unfold undone at h ⊢
    rw [d.txId, d.seqNo]
    exact d.undo _ _ h
  refine .inr (.inr ?_)
  rw [d.txId]
  exact ((d.state _).resolve_left (by simp [h])).trans h

theorem settledBy (h : s.SettledBy v n) : s'.SettledBy v n := by
  apply h.imp d.gone
  rintro ⟨w, hw, hle⟩
  refine ⟨w, ?_, hle⟩
  rw [d.txId]
  exact ((d.state _).resolve_left (by simp [hw])).trans hw

theorem settled (h : s.Settled n) : s'.Settled n := by
  apply (d.settledBy h).imp_right
  rintro ⟨w, hw, hle⟩
  exact ⟨w, hw, hle.trans d.maxTransVersion⟩

theorem chain_eq : s'.chain = s.chain.filter fun n => (s'.row.node n).alive := by
  unfold chain ObMvccRow.chain
  rw [List.filter_reverse, List.filter_filter, d.nodeCnt]
  congr 1
  refine List.filter_congr fun n _ => ?_
  cases h : (s'.row.node n).alive with
  | false => rfl
  | true => rw [d.alive n h, Bool.and_self]

theorem undone_busy (h : s'.pc (s.row.node n).txId ≠ .idle) : s'.undone n = s.undone n := by
  unfold undone
  rw [d.txId, d.seqNo, d.busy _ h]

theorem rolledBack (hbusy : s'.pc t ≠ .idle) (h : s.RolledBack t) : s'.RolledBack t := by
  intro n hn hcb htx
  rw [d.txId] at htx
  rw [d.undone_busy (htx ▸ hbusy)]
  exact h n (d.nodeCnt ▸ hn) (d.cb n hcb) htx

theorem holds (hbusy : s'.pc t ≠ .idle) {txNode} (h : s.Holds t txNode) : s'.Holds t txNode := by
  obtain ⟨hrun, k, hhead, htx, hund, hundone, hnode⟩ := h
  obtain ⟨hund', hdelayed⟩ := d.held k (htx ▸ hbusy) (htx ▸ hrun) hund hundone
  refine ⟨d.busy t hbusy ▸ hrun, k, ?_, (d.txId k).trans htx, hund', ?_, ?_⟩
  · obtain ⟨l, hl⟩ := head?_eq_some_iff.mp hhead
    simp [d.chain_eq, hl, alive_of_undecided hund']
  · exact (d.undone_busy (htx ▸ hbusy)).trans hundone
  · intro n hn
    obtain ⟨rfl, hcb, hdel⟩ := hnode n hn
    exact ⟨rfl, eq_false_iff.mpr fun h => by simp [d.cb n h] at hcb, (hdelayed hcb).trans hdel⟩

theorem pcOk (h : s.PcOk t (s.pc t)) : s'.PcOk t (s'.pc t) := by
  rcases d.pc t with hsame | ⟨hidle, -⟩
  swap
  · rw [hidle]
    trivial
  have hothers : ∀ {P : ℕ → Prop} {P' : ℕ → Prop}, (∀ n, P n → P' n) →
      (∀ n < s.nodeCnt, (s.row.node n).txId ≠ t → P n) →
      ∀ n < s'.nodeCnt, (s'.row.node n).txId ≠ t → P' n := by
    intro P P' hP h n hn htx
    exact hP n (h n (d.nodeCnt ▸ hn) (d.txId n ▸ htx))
  have hbusy : s.pc t ≠ .idle → s'.pc t ≠ .idle := fun hne => hsame ▸ hne
  rw [hsame]
  cases hpc : s.pc t with
  | idle => trivial
  | loadTrans q | loadElr q | latch q =>
    rw [hpc] at h
    have hb := hbusy (by simp [hpc])
    exact ⟨h.1, d.busy t hb ▸ h.2.1, d.rolledBack hb h.2.2.1, d.busy t hb ▸ h.2.2.2⟩
  | reloadTrans q res =>
    rw [hpc] at h
    exact ⟨h.1, d.holds (hbusy (by simp [hpc])) h.2.1, hothers (fun _ => d.settled) h.2.2⟩
  | reloadElr q res =>
    rw [hpc] at h
    exact ⟨h.1, d.holds (hbusy (by simp [hpc])) h.2.1, hothers (fun _ => d.settledBy) h.2.2⟩
  | undo q res e =>
    rw [hpc] at h
    exact ⟨h.1, d.holds (hbusy (by simp [hpc])) h.2.1, h.2.2⟩

end

end Decides

theorem Inv.of_decides (h : s.Inv) (d : Decides s s') (hok : s'.row.Ok s'.nodeCnt)
    (haborted : ∀ n < s'.nodeCnt, (s'.row.node n).aborted = true → s'.Gone n)
    (hremoved : ∀ n, s'.removed n = true → n < s'.nodeCnt ∧ (s'.row.node n).aborted = true)
    (hcommitted : ∀ n < s'.nodeCnt, (s'.row.node n).committed = true →
      ∃ v, (s'.tx (s'.row.node n).txId).state = .commit v ∧ v ≤ s'.row.maxTransVersion)
    (hcb : ∀ n, s'.cb n = true → n < s'.nodeCnt ∧ (s'.row.node n).undecided = true ∧
      (s'.row.node n).delayedCleanout = false) : s'.Inv := by
  refine ⟨hok, hcommitted, haborted, hremoved, hcb, fun i j hlt hi hj htx => ?_,
    fun n hn hund hdel hcbn => ?_, fun t => d.pcOk (h.pc t)⟩
  · rw [d.chain_eq] at hi hj
    rw [d.txId, d.txId] at htx
    exact d.settled (h.locks i j hlt (mem_of_mem_filter hi) (mem_of_mem_filter hj) htx)
  have hpend : RowState.pending (s.pc (s.row.node n).txId) = some n := by
    refine h.pending n (d.nodeCnt ▸ hn) (d.undecided n hund) ?_ ?_
    · exact eq_false_iff.mpr fun hdel' => by simp [d.delayed n hdel'] at hdel
    refine eq_false_iff.mpr fun hcb' => ?_
    rcases d.lost n hcb' hcbn with h' | h' <;> simp_all
  rw [d.txId]
  rcases d.pc (s.row.node n).txId with hsame | ⟨-, haborted⟩
  · exact hsame ▸ hpend
  · simp [TransNode.undecided, haborted n hpend] at hund

/-! ## Nodes are decided -/

/-- A node that nobody holds is decided: it is aborted, or committed with a version the row
learns. -/
structure DecidesNode (s : RowState) (n : ℕ) (r : ObMvccRow) (cb rm : ℕ → Bool) (pc : ℕ → WritePc)
    (x : TransNode) : Prop where
  lt : n < s.nodeCnt
  undecided : (s.row.node n).undecided = true
  free : pc (s.row.node n).txId = .idle ∨ (s.tx (s.row.node n).txId).state ≠ .running ∨
    s.undone n = true
  pc : ∀ t, pc t = s.pc t ∨ (pc t = .idle ∧ x.aborted = true ∧
    ∀ m, pending (s.pc t) = some m → m = n)
  ok : r.Ok s.nodeCnt
  node : r.node = update s.row.node n x
  txId : x.txId = (s.row.node n).txId
  seqNo : x.seqNo = (s.row.node n).seqNo
  dmlFlag : x.dmlFlag = (s.row.node n).dmlFlag
  maxTransVersion : s.row.maxTransVersion ≤ r.maxTransVersion
  delayed : x.delayedCleanout = (s.row.node n).delayedCleanout
  decided : x.aborted = true ∧ x.committed = false ∨ x.committed = true ∧
    (s.tx (s.row.node n).txId).state = .commit x.transVersion ∧ x.transVersion ≤ r.maxTransVersion
  cb_ne : ∀ m ≠ n, cb m = s.cb m
  cb : cb n = false
  rm_ne : ∀ m ≠ n, rm m = s.removed m
  rm_aborted : rm n = true → x.aborted = true
  rm_mono : s.removed n = true → rm n = true
  cause : x.aborted = true → rm n = true ∨ s.undone n = true ∨
    (s.tx (s.row.node n).txId).state = .abort

theorem Inv.not_removed (h : s.Inv) (hund : (s.row.node n).undecided = true) :
    s.removed n = false :=
  eq_false_iff.mpr fun hr => by simp [TransNode.undecided, (h.removed n hr).2] at hund

namespace DecidesNode

variable {r : ObMvccRow} {cb rm : ℕ → Bool} {pc : ℕ → WritePc} {x : TransNode}

section

variable (d : DecidesNode s n r cb rm pc x)
include d

theorem node_of_ne {m} (hm : m ≠ n) : r.node m = s.row.node m := by
  rw [d.node, update_of_ne hm]

theorem node_self : r.node n = x := by
  rw [d.node, update_self]

theorem cb_of_true {m} (hm : cb m = true) : s.cb m = true ∧ m ≠ n := by
  have hmn : m ≠ n := fun heq => by
    rw [heq, d.cb] at hm
    exact nomatch hm
  exact ⟨d.cb_ne m hmn ▸ hm, hmn⟩

theorem decides : Decides s { s with row := r, cb := cb, removed := rm, pc := pc } := by
  have hself := d.node_self
  have hx : x.undecided = false := by
    rcases d.decided with ⟨h, -⟩ | ⟨h, -⟩ <;> simp [TransNode.undecided, h]
  refine ⟨rfl, fun t => ?_, fun m => ?_, fun m => ?_, fun m hm => (d.cb_of_true hm).1,
    d.maxTransVersion, fun m hm => ?_, fun m hm => ?_, fun m hm => ?_, fun m hm => ?_,
    fun m hm hm' => ?_, fun _ _ => id, fun _ => .inr rfl, fun _ _ => rfl,
    fun m hbusy hrun hu hundone => ?_⟩
  · refine (d.pc t).imp_right fun ⟨hidle, hab, hpend⟩ => ⟨hidle, fun m hm => ?_⟩
    rw [hpend m hm]
    exact (congrArg TransNode.aborted hself).trans hab
  · exact (congrArg (fun f => (f m).txId) d.node).trans (update_field d.txId m)
  · exact (congrArg (fun f => (f m).seqNo) d.node).trans (update_field d.seqNo m)
  · by_cases hmn : m = n
    · subst hmn; exact alive_of_undecided d.undecided
    · rw [← d.node_of_ne hmn]; exact hm
  · by_cases hmn : m = n
    · subst hmn; exact d.rm_mono hm
    · exact (d.rm_ne m hmn).trans hm
  · by_cases hmn : m = n
    · subst hmn; exact d.undecided
    · rw [← d.node_of_ne hmn]; exact hm
  · exact (congrArg (fun f => (f m).delayedCleanout) d.node).trans
      ((update_field d.delayed m).trans hm)
  · by_cases hmn : m = n
    · subst hmn; exact .inl ((congrArg TransNode.undecided hself).trans hx)
    · exact absurd ((d.cb_ne m hmn).trans hm) (by simpa using hm')
  · by_cases hmn : m = n
    · subst hmn
      rcases d.free with h | h | h
      · exact absurd h hbusy
      · exact absurd hrun h
      · simp [h] at hundone
    · exact ⟨by rw [d.node_of_ne hmn]; exact hu, fun _ => by rw [d.node_of_ne hmn]⟩

end

theorem abortNode (h : s.Inv) (hn : n < s.nodeCnt) (hund : (s.row.node n).undecided = true)
    (hfree : s.pc (s.row.node n).txId = .idle ∨ (s.tx (s.row.node n).txId).state ≠ .running ∨
      s.undone n = true) (hcb : ∀ m ≠ n, cb m = s.cb m) (hcbn : cb n = false)
    (hrm : ∀ m ≠ n, rm m = s.removed m) (hcause : rm n = true ∨ s.undone n = true ∨
      (s.tx (s.row.node n).txId).state = .abort) :
    DecidesNode s n (s.row.abortNode n) cb rm s.pc { s.row.node n with aborted := true } := by
  obtain ⟨hok, hnode, hmax, -, -⟩ :=
    abortNode_spec h.ok hn (alive_of_undecided hund)
  have hc : (s.row.node n).committed = false := (of_undecided hund).1
  exact ⟨hn, hund, hfree, fun _ => .inl rfl, hok, hnode, rfl, rfl, rfl, hmax.ge, rfl,
    .inl ⟨rfl, hc⟩,
    hcb, hcbn, hrm, fun _ => rfl, fun hr => absurd hr (by simp [h.not_removed hund]),
      fun _ => hcause⟩

theorem commitNode (h : s.Inv) (hn : n < s.nodeCnt) (hund : (s.row.node n).undecided = true)
    (hv : (s.tx (s.row.node n).txId).state = .commit v) (hcb : ∀ m ≠ n, cb m = s.cb m)
    (hcbn : cb n = false) : DecidesNode s n (s.row.commitNode n v) cb s.removed s.pc
      { s.row.node n with transVersion := v, committed := true } := by
  obtain ⟨hok, hnode, hmax, -⟩ := commitNode_spec (v := v) h.ok hn hund
  have hab : (s.row.node n).aborted = false := (of_undecided hund).2
  exact ⟨hn, hund, .inr (.inl (by simp [hv])), fun _ => .inl rfl, hok, hnode, rfl, rfl, rfl,
    hmax ▸ le_max_left _ _, rfl, .inr ⟨rfl, hv, hmax ▸ le_max_right _ _⟩, hcb, hcbn, fun _ _ => rfl,
    fun hr => absurd hr (by simp [h.not_removed hund]), id, fun hx => by simp [hab] at hx⟩

end DecidesNode

theorem Inv.decide {r} {cb rm : ℕ → Bool} {pc : ℕ → WritePc} {x} (h : s.Inv)
    (d : DecidesNode s n r cb rm pc x) :
    { s with row := r, cb := cb, removed := rm, pc := pc }.Inv := by
  refine h.of_decides d.decides d.ok (fun m hm hab => ?_) (fun m hm => ?_) (fun m hm hc => ?_)
    fun m hm => ?_
  · by_cases hmn : m = n
    · subst hmn
      refine (d.cause (d.node_self ▸ hab)).imp id (Or.imp (fun hu => ?_) fun hs => ?_)
      · change (s.tx (r.node m).txId).isContain (r.node m).seqNo = true
        rw [d.node_self, d.txId, d.seqNo]
        exact hu
      · change (s.tx (r.node m).txId).state = _
        rw [d.node_self, d.txId]
        exact hs
    · exact d.decides.gone (h.aborted m hm (d.node_of_ne hmn ▸ hab))
  · by_cases hmn : m = n
    · subst hmn
      exact ⟨d.lt, (congrArg TransNode.aborted d.node_self).trans (d.rm_aborted hm)⟩
    · obtain ⟨hlt, hab⟩ := h.removed m ((d.rm_ne m hmn).symm.trans hm)
      exact ⟨hlt, (congrArg TransNode.aborted (d.node_of_ne hmn)).trans hab⟩
  · change (r.node m).committed = true at hc
    by_cases hmn : m = n
    · subst hmn
      rw [d.node_self] at hc ⊢
      rcases d.decided with ⟨-, hx⟩ | ⟨-, hv, hle⟩
      · simp [hx] at hc
      · exact ⟨_, d.txId ▸ hv, hle⟩
    · rw [d.node_of_ne hmn] at hc ⊢
      obtain ⟨v, hv, hle⟩ := h.committed m hm hc
      exact ⟨v, hv, hle.trans d.maxTransVersion⟩
  · obtain ⟨hcbm, hmn⟩ := d.cb_of_true hm
    obtain ⟨h1, h2, h3⟩ := h.cb m hcbm
    exact ⟨h1, by rw [d.node_of_ne hmn]; exact h2, by rw [d.node_of_ne hmn]; exact h3⟩

theorem Inv.cb_eq_false (h : s.Inv) (hdel : (s.row.node n).delayedCleanout = true) :
    s.cb n = false :=
  eq_false_iff.mpr fun hcb => by simp [(h.cb n hcb).2.2] at hdel

/-- **A cleanout** does nothing, or decides the node. -/
theorem cleanout_decides (h : s.Inv) (hn : n < s.nodeCnt) : s.row.cleanout s.tx n = s.row ∨
    ∃ x, DecidesNode s n (s.row.cleanout s.tx n) s.cb s.removed s.pc x ∧
      (x.committed = true → s.undone n = false) := by
  rcases cleanout_cases s.tx h.ok hn with ⟨heq, -⟩ | ⟨hund, hdel, hfree, heq⟩ |
    ⟨v, hund, hdel, hundone, hv, heq⟩
  · exact .inl heq
  · have hc : (s.row.node n).committed = false := (of_undecided hund).1
    rw [heq]
    refine .inr ⟨_, .abortNode h hn hund ?_ (fun _ _ => rfl) (h.cb_eq_false hdel) (fun _ _ => rfl)
      (.inr hfree), fun h => ?_⟩
    · exact hfree.elim (fun h => .inr (.inr h)) fun h => .inr (.inl (by simp [h]))
    · simp [hc] at h
  · rw [heq]
    exact .inr ⟨_, .commitNode h hn hund hv (fun _ _ => rfl) (h.cb_eq_false hdel), fun _ => hundone⟩

theorem Inv.cleanout (h : s.Inv) (hn : n < s.nodeCnt) :
    { s with row := s.row.cleanout s.tx n }.Inv := by
  rcases cleanout_decides h hn with heq | ⟨x, d, -⟩
  · rw [heq]
    exact h
  · exact h.decide d

/-! ## The latch section -/

/-- What the loop of `mvcc_write_` has found out where it lets the writer insert: every node of
another transaction is settled, a lock that is not inserted is there already, and the head is the
writer's own if any node is that it has not undone. -/
structure Stopped (s : RowState) (q : WriteArg) (res : WriteResult) : Prop where
  settled : ∀ n < s.nodeCnt, (s.row.node n).txId ≠ q.txId → s.Settled n
  own : res.needInsert = false → ∃ k, s.chain.head? = some k ∧ (s.row.node k).txId = q.txId ∧
    (s.row.node k).undecided = true ∧ s.undone k = false
  top : (s.tx q.txId).state = .running → ∀ j ∈ s.chain, (s.row.node j).txId = q.txId →
    s.undone j = false → ∃ k, s.chain.head? = some k ∧ (s.row.node k).txId = q.txId ∧
      s.undone k = false

theorem Inv.settled_of_committed (h : s.Inv) (hn : n < s.nodeCnt)
    (hc : (s.row.node n).committed = true) : s.Settled n :=
  .inr (h.committed n hn hc)

theorem Inv.settled_of_not_alive (h : s.Inv) (hn : n < s.nodeCnt)
    (ha : (s.row.node n).alive = false) : s.Settled n := by
  simp only [TransNode.alive, and_eq_false_iff, not_eq_false', and_eq_true] at ha
  exact ha.elim (fun hab => .inl (h.aborted n hn hab)) fun hc => h.settled_of_committed hn hc.1

theorem Inv.settled_of_ne_head (h : s.Inv) {k} (hhead : s.chain.head? = some k)
    (hn : n < s.nodeCnt) (hne : n ≠ k) :
    s.Settled n ∨ (s.row.node n).txId = (s.row.node k).txId := by
  by_cases halive : (s.row.node n).alive = true
  · by_cases htx : (s.row.node n).txId = (s.row.node k).txId
    · exact .inr htx
    refine .inl (h.locks k n ?_ (mem_of_mem_head? hhead) ?_ (Ne.symm htx))
    · exact lt_of_le_of_ne (le_of_head hhead (mem_chain.mpr ⟨hn, halive⟩)) hne
    · exact mem_chain.mpr ⟨hn, halive⟩
  · exact .inl (h.settled_of_not_alive hn (by simpa using halive))

/-- A row that differs from `r` in nodes that were written back. -/
structure WrittenBack (r r' : ObMvccRow) : Prop where
  txId : ∀ n, (r'.node n).txId = (r.node n).txId
  seqNo : ∀ n, (r'.node n).seqNo = (r.node n).seqNo
  delayed : ∀ n, (r'.node n).delayedCleanout = (r.node n).delayedCleanout
  undecided : ∀ n, (r'.node n).undecided = true → r'.node n = r.node n

theorem WrittenBack.refl (r : ObMvccRow) : WrittenBack r r :=
  ⟨fun _ => rfl, fun _ => rfl, fun _ => rfl, fun _ _ => rfl⟩

theorem WrittenBack.trans {r r' r''} (h : WrittenBack r r') (h' : WrittenBack r' r'') :
    WrittenBack r r'' :=
  ⟨fun n => (h'.txId n).trans (h.txId n), fun n => (h'.seqNo n).trans (h.seqNo n),
    fun n => (h'.delayed n).trans (h.delayed n), fun n hn => by
      have heq := h'.undecided n hn
      rw [heq] at hn ⊢
      exact h.undecided n hn⟩

theorem WrittenBack.of_update {r r' : ObMvccRow} {x}
    (h : r'.node = update r.node n x) (htx : x.txId = (r.node n).txId)
    (hseq : x.seqNo = (r.node n).seqNo) (hdel : x.delayedCleanout = (r.node n).delayedCleanout)
    (hx : x.undecided = false) : WrittenBack r r' := by
  refine ⟨fun m => ?_, fun m => ?_, fun m => ?_, fun m hm => ?_⟩
  · rw [h, update_field htx]
  · rw [h, update_field hseq]
  · rw [h, update_field hdel]
  rw [h] at hm ⊢
  refine update_of_ne (fun hmn => ?_) _ _
  rw [hmn, update_self, hx] at hm
  exact nomatch hm

theorem WrittenBack.cleanout (tx : ℕ → TxData) {r : ObMvccRow} {cnt} (h : r.Ok cnt)
    (hn : n < cnt) : WrittenBack r (r.cleanout tx n) := by
  rcases cleanout_cases tx h hn with ⟨heq, -⟩ | ⟨hund, -, -, heq⟩ | ⟨v, hund, -, -, -, heq⟩
  · rw [heq]
    exact .refl r
  · rw [heq]
    obtain ⟨-, hnode, -⟩ := abortNode_spec h hn (alive_of_undecided hund)
    exact .of_update hnode rfl rfl rfl (by simp [TransNode.undecided])
  · rw [heq]
    obtain ⟨-, hnode, -⟩ := commitNode_spec (v := v) h hn hund
    exact .of_update hnode rfl rfl rfl (by simp [TransNode.undecided])

/-- A row after some of its first `cnt` nodes were cleaned out. -/
def Cleaned (tx : ℕ → TxData) (cnt : ℕ) : ObMvccRow → ObMvccRow → Prop :=
  Relation.ReflTransGen fun r r' => ∃ n < cnt, r' = r.cleanout tx n

theorem Cleaned.keeps {P : ObMvccRow → Prop} {r'}
    (h : Cleaned s.tx s.nodeCnt s.row r') (hinv : s.Inv)
    (hkeep : ∀ r n, n < s.nodeCnt → { s with row := r }.Inv → P r → P (r.cleanout s.tx n))
    (hP : P s.row) : { s with row := r' }.Inv ∧ P r' := by
  refine star_keeps (I := fun r => { s with row := r }.Inv ∧ P r) ?_ h ⟨hinv, hP⟩
  rintro r r' ⟨n, hn, rfl⟩ ⟨hr, hPr⟩
  exact ⟨Inv.cleanout hr hn, hkeep r n hn hr hPr⟩

variable {q : WriteArg} {p : RowState × Option WriteReturn} {res : WriteResult} {e : WriteError}

/-- Where every node is settled the writer may insert. -/
theorem Stopped.of_settled (hinv : s.Inv) (hneed : res.needInsert = true)
    (h : ∀ n < s.nodeCnt, s.Settled n) :
    Stopped s q res :=
  ⟨fun n hn _ => h n hn, fun h => by simp [hneed] at h, fun hrun j hj htx hundone =>
    absurd (h j (mem_chain.mp hj).1) (not_settledBy_of_running hinv hj (htx ▸ hrun) hundone)⟩

theorem stopped_nil (h : s.Inv) (hnil : s.chain = [])
    (hneed : res.needInsert = true) : Stopped s q res := by
  refine .of_settled h hneed fun n hn => h.settled_of_not_alive hn (eq_false_iff.mpr fun ha => ?_)
  have : n ∈ s.chain := mem_chain.mpr ⟨hn, ha⟩
  simp [hnil] at this

/-- A committed node settles the other nodes of its transaction. -/
theorem Inv.stopped_of_committed (h : s.Inv) {k} (hk : k < s.nodeCnt)
    (hc : (s.row.node k).committed = true) (hother : ∀ n < s.nodeCnt, n ≠ k →
      s.Settled n ∨ (s.row.node n).txId = (s.row.node k).txId)
    (hneed : res.needInsert = true) : Stopped s q res := by
  obtain ⟨w, hw, hle⟩ := h.committed k hk hc
  refine .of_settled h hneed fun n hn => ?_
  by_cases hne : n = k
  · exact hne ▸ .inr ⟨w, hw, hle⟩
  exact (hother n hn hne).elim id fun htx => .inr ⟨w, by rw [htx, hw], hle⟩

/-- **The loop of `mvcc_write_`** writes back nodes until the head of the chain is one that decides.
Where the writer may insert it is committed or the writer's own. -/
theorem mvccWriteLoop_spec (hq : s.RolledBack q.txId) (hpend : pending (s.pc q.txId) = none) :
    ∀ (k : ℕ) (r : ObMvccRow), { s with row := r }.Inv → WrittenBack s.row r →
      Cleaned s.tx s.nodeCnt s.row r → (r.chain s.nodeCnt).length ≤ k →
      ∃ r' res, r.mvccWriteLoop s.tx q k r.links.head = some (r', res) ∧ res.txNode = none ∧
        { s with row := r' }.Inv ∧ Cleaned s.tx s.nodeCnt s.row r' ∧
        (res.canInsert = true → Stopped { s with row := r' } q res) := by
  intro k
  induction k with
  | zero =>
    intro r h hw hcl hlen
    have hnil : r.chain s.nodeCnt = [] := by simpa using hlen
    have hhead : r.links.head = none := by rw [h.ok.rep.head, hnil]; rfl
    exact ⟨r, _, by rw [hhead, ObMvccRow.mvccWriteLoop], rfl, h, hcl,
      fun _ => stopped_nil h hnil rfl⟩
  | succ k ih =>
    intro r h hw hcl hlen
    cases hchain : r.chain s.nodeCnt with
    | nil =>
      have hhead : r.links.head = none := by rw [h.ok.rep.head, hchain]; rfl
      exact ⟨r, _, by rw [hhead, ObMvccRow.mvccWriteLoop], rfl, h, hcl,
        fun _ => stopped_nil h hchain rfl⟩
    | cons iter l =>
    have hhead : r.links.head = some iter := by rw [h.ok.rep.head, hchain]; rfl
    obtain ⟨hlt, halive⟩ := mem_chain.mp (hchain ▸ mem_cons_self (a := iter) (l := l))
    have hchead : (r.chain s.nodeCnt).head? = some iter := by rw [hchain]; rfl
    have hclean : (if (r.node iter).delayedCleanout && (r.node iter).undecided then
        r.cleanout s.tx iter else r) = r.cleanout s.tx iter := by
      rw [Bool.and_comm]
      by_cases hb : ((r.node iter).undecided && (r.node iter).delayedCleanout) = true
      · rw [if_pos hb]
      rw [if_neg hb]
      simp [ObMvccRow.cleanout, hb]
    have hinv₁ := Inv.cleanout (n := iter) h hlt
    have hw₁ := hw.trans (WrittenBack.cleanout s.tx h.ok hlt)
    have hcl₁ : Cleaned s.tx s.nodeCnt s.row (r.cleanout s.tx iter) := hcl.tail ⟨iter, hlt, rfl⟩
    rw [hhead]
    simp only [ObMvccRow.mvccWriteLoop, hclean]
    rcases cleanout_cases s.tx h.ok hlt with ⟨heq, hrun⟩ | ⟨hund, -, -, heq⟩ |
      ⟨v, hund, hdel, -, hv, heq⟩
    · rw [heq]
      by_cases hc : (r.node iter).committed = true
      · exact ⟨r, _, by rw [if_pos hc], rfl, h, hcl, fun _ => h.stopped_of_committed hlt hc
          (fun n hn hne => h.settled_of_ne_head hchead hn hne) rfl⟩
      have hab : ¬ (r.node iter).aborted = true := by
        simp only [TransNode.alive, and_eq_true, not_eq_true'] at halive
        simp [halive.1]
      have hund : (r.node iter).undecided = true := by simp [TransNode.undecided, hc, hab]
      rw [if_neg hc, if_neg hab]
      by_cases htx : (r.node iter).txId = q.txId
      · have hundone : { s with row := r }.undone iter = false := by
          by_cases hdel : (r.node iter).delayedCleanout = true
          · exact (hrun hund hdel).1
          -- the node has its callback, and what was undone has lost it
          have hcb : s.cb iter = true := by
            refine not_eq_false _ ▸ fun hcb => ?_
            have := h.pending iter hlt hund (by simpa using hdel) hcb
            change pending (s.pc (r.node iter).txId) = some iter at this
            rw [htx, hpend] at this
            exact nomatch this
          have hsame := hw.undecided iter hund
          have := hq iter hlt hcb (by rw [← hsame]; exact htx)
          change (s.tx (r.node iter).txId).isContain (r.node iter).seqNo = false
          rw [hsame]
          exact this
        refine ⟨r, _, by rw [if_pos htx], rfl, h, hcl, fun _ => ⟨fun n hn hne => ?_, fun _ => ?_,
          fun _ _ _ _ _ => ⟨iter, hchead, htx, hundone⟩⟩⟩
        · refine (h.settled_of_ne_head hchead hn fun heq => hne (heq ▸ htx)).resolve_right ?_
          exact fun heq => hne (heq.trans htx)
        · exact ⟨iter, hchead, htx, hund, hundone⟩
      · exact ⟨r, _, by rw [if_neg htx], rfl, h, hcl, fun h => by simp at h⟩
    · -- an undone node has left the chain
      have hund' : (r.node iter).committed = false ∧ _ := of_undecided hund
      obtain ⟨-, hnode, -, -, hprev⟩ :=
        abortNode_spec h.ok hlt (alive_of_undecided hund)
      rw [heq] at hinv₁ hw₁ hcl₁ ⊢
      have hself : (r.abortNode iter).node iter = { r.node iter with aborted := true } := by
        rw [hnode, update_self]
      rw [hself, if_neg (by simp [hund'.1]), if_pos rfl, hprev hhead]
      apply ih _ hinv₁ hw₁ hcl₁
      rw [chain_erase (r := r) (n := iter) (fun m _ hm => by
        rw [hnode, update_of_ne hm]) (by rw [hself]; simp [TransNode.alive]), hchain,
        erase_cons_head]
      rw [hchain, length_cons] at hlen
      omega
    · -- a committed node has been written back
      have d := DecidesNode.commitNode h hlt hund hv (fun _ _ => rfl) (h.cb_eq_false hdel)
      rw [heq] at hinv₁ hcl₁ ⊢
      have hc : ((r.commitNode iter v).node iter).committed = true := by rw [d.node_self]
      refine ⟨_, _, by rw [if_pos hc], rfl, hinv₁, hcl₁, fun _ =>
        hinv₁.stopped_of_committed hlt hc (fun n hn hne => ?_) rfl⟩
      exact (h.settled_of_ne_head hchead hn hne).imp d.decides.settled fun htx =>
        (d.decides.txId n).trans (htx.trans (d.decides.txId iter).symm)

/-! ## A call goes on -/

theorem Gone.congr (h : s.Gone n) (hnode : s'.row.node n = s.row.node n)
    (htx : s'.tx = s.tx) (hrm : s'.removed = s.removed) : s'.Gone n := by
  unfold Gone undone at h ⊢
  rw [hnode, htx, hrm]
  exact h

theorem Holds.not_settledBy {txNode} (hinv : s.Inv) (h : s.Holds t txNode) :
    ∃ k < s.nodeCnt, (s.row.node k).txId = t ∧ ∀ v, ¬ s.SettledBy v k := by
  obtain ⟨hrun, k, hk, htx, -, hundone, -⟩ := h
  have hmem := mem_of_mem_head? hk
  exact ⟨k, (mem_chain.mp hmem).1, htx, fun v =>
    not_settledBy_of_running hinv hmem (htx ▸ hrun) hundone⟩

theorem Holds.unique {t' txNode txNode'} (h : s.Holds t txNode)
    (h' : s.Holds t' txNode') : t = t' := by
  obtain ⟨-, k, hk, htx, -⟩ := h
  obtain ⟨-, k', hk', htx', -⟩ := h'
  obtain rfl : k = k' := some.inj (hk.symm.trans hk')
  exact htx.symm.trans htx'

theorem PcOk.setPc {t' pc p} (h : s.PcOk t p) : (s.setPc t' pc).PcOk t p := by
  cases p with
  | idle => trivial
  | loadTrans q | loadElr q | latch q => exact h
  | reloadTrans q res | reloadElr q res | undo q res e =>
    exact ⟨h.1, ⟨h.2.1.running, h.2.1.head⟩, h.2.2⟩

theorem Inv.setPc (h : s.Inv) {pc} (hpc : s.PcOk t pc)
    (hpend : ∀ n, RowState.pending (s.pc t) = some n → RowState.pending pc = some n) :
    (s.setPc t pc).Inv := by
  refine { h with pending := fun n hn hund hdel hcb => ?_, pc := fun t' => ?_ }
  · have hold := h.pending n hn hund hdel hcb
    change RowState.pending (update s.pc t pc (s.row.node n).txId) = some n
    by_cases htx : (s.row.node n).txId = t
    · rw [htx] at hold
      rw [htx, update_self]
      exact hpend n hold
    · rw [update_of_ne htx]
      exact hold
  · change (s.setPc t pc).PcOk t' (update s.pc t pc t')
    by_cases ht : t' = t
    · subst ht
      rw [update_self]
      exact hpc.setPc
    · rw [update_of_ne ht]
      exact (h.pc t').setPc

theorem Inv.return_none (h : s.Inv) {e}
    (hpend : RowState.pending (s.pc q.txId) = none) : (s.return_ q none e).1.Inv := by
  have hidle : (s.setPc q.txId .idle).Inv := h.setPc trivial fun n hn => by simp [hpend] at hn
  cases e <;> exact hidle

theorem Inv.return_some (h : s.Inv) (hheld : s.Holds q.txId (some n))
    (hpend : RowState.pending (s.pc q.txId) = some n) : (s.return_ q (some n) none).1.Inv := by
  obtain ⟨k, hk, htx, hund, -, hnode⟩ := hheld.head
  obtain ⟨rfl, -, hdel⟩ := hnode n rfl
  obtain ⟨hlt, -⟩ := mem_chain.mp (mem_of_mem_head? hk)
  refine ⟨h.ok, h.committed, h.aborted, h.removed, fun m hm => ?_, h.locks,
    fun m hm hund' hdel' hcb => ?_, fun t => ?_⟩
  · change update s.cb n true m = true at hm
    by_cases hmn : m = n
    · subst hmn
      exact ⟨hlt, hund, hdel⟩
    · rw [update_of_ne hmn] at hm
      exact h.cb m hm
  · change update s.cb n true m = false at hcb
    have hmn : m ≠ n := fun heq => by simp [heq] at hcb
    rw [update_of_ne hmn] at hcb
    have hold := h.pending m hm hund' hdel' hcb
    -- the call that returns has no other node
    have hne : (s.row.node m).txId ≠ q.txId := fun heq => by
      rw [heq, hpend] at hold
      exact hmn (some.inj hold).symm
    change RowState.pending (update s.pc q.txId .idle (s.row.node m).txId) = some m
    rw [update_of_ne hne]
    exact hold
  change PcOk _ t (update s.pc q.txId .idle t)
  by_cases ht : t = q.txId
  · rw [ht, update_self]
    trivial
  rw [update_of_ne ht]
  have hold := h.pc t
  have hother : ∀ x, ¬ s.Holds t x := fun x hx => ht (hx.unique hheld)
  cases hpc : s.pc t with
  | idle => trivial
  | loadTrans q' | loadElr q' | latch q' =>
    rw [hpc] at hold
    refine ⟨hold.1, hold.2.1, fun m hm hcb htx' => ?_, hold.2.2.2⟩
    have hmn : m ≠ n := fun heq => ht (by rw [← htx', heq]; exact htx)
    exact hold.2.2.1 m hm ((update_of_ne hmn _ _).symm.trans hcb) htx'
  | reloadTrans q' res | reloadElr q' res | undo q' res e =>
    rw [hpc] at hold
    exact absurd hold.2.1 (hother _)

theorem Inv.fail (h : s.Inv)
    (hheld : s.Holds q.txId res.txNode) (hpend : RowState.pending (s.pc q.txId) = res.txNode) :
    (s.fail q res e).1.Inv := by
  unfold RowState.fail
  split
  · exact h.setPc ⟨rfl, hheld, ‹_›⟩ fun n hn => hpend.symm.trans hn
  · exact h.return_none (hpend.trans (by simpa using ‹¬ res.txNode.isSome = true›))

/-- `mvcc_undo` takes the node of the call that gives up out of the chain again. -/
theorem DecidesNode.mvccUndo (h : s.Inv) (hheld : s.Holds q.txId (some n))
    (hpend : pending (s.pc q.txId) = some n) :
    DecidesNode s n s.row.mvccUndo s.cb (fun m => s.removed m || some n = some m)
      (update s.pc q.txId .idle) { s.row.node n with aborted := true } ∧
      s.row.mvccUndo.chain s.nodeCnt = s.chain.erase n := by
  obtain ⟨k, hk, htx, hund, -, hnode⟩ := hheld.head
  obtain ⟨rfl, hcb, -⟩ := hnode n rfl
  obtain ⟨hlt, halive⟩ := mem_chain.mp (mem_of_mem_head? hk)
  have hhead : s.row.links.head = some n := h.ok.rep.head.trans hk
  have hupdate : s.row.mvccUndo.node =
      update s.row.node n { s.row.node n with aborted := true } := by
    simp [ObMvccRow.mvccUndo, hhead, ObMvccRow.setNode]
  have hdead : (s.row.mvccUndo.node n).alive = false := by
    rw [hupdate, update_self]
    simp [TransNode.alive]
  obtain ⟨l, hl⟩ : ∃ l, s.row.chain s.nodeCnt = n :: l := head?_eq_some_iff.mp hk
  have herase : s.row.mvccUndo.chain s.nodeCnt = s.chain.erase n :=
    chain_erase (r := s.row) (n := n) (fun m _ hm => by rw [hupdate, update_of_ne hm]) hdead
  have hchain : s.row.mvccUndo.chain s.nodeCnt = l := by
    rw [herase, chain, hl, erase_cons_head]
  have hok : s.row.mvccUndo.Ok s.nodeCnt := by
    refine ⟨?_, ?_⟩
    · have := (hl ▸ h.ok.rep).pop
      rw [hchain]
      simpa [ObMvccRow.mvccUndo, hhead, ObMvccRow.setNode] using this
    have := h.ok.count
    rw [hl, length_cons] at this
    rw [hchain]
    simp [ObMvccRow.mvccUndo, hhead, ObMvccRow.setNode, this]
  have hund' := of_undecided hund
  refine ⟨⟨hlt, hund, .inl ?_, fun t => ?_, hok, hupdate, rfl, rfl, rfl, ?_, rfl,
    .inl ⟨rfl, hund'.1⟩, fun _ _ => rfl, hcb, fun m hm => by simp [hm.symm], fun _ => rfl,
    fun _ => by simp, fun _ => .inl (by simp)⟩, herase⟩
  · rw [htx, update_self]
  · by_cases ht : t = q.txId
    · subst ht
      refine .inr ⟨update_self .., rfl, fun m hm => ?_⟩
      exact (some.inj (hpend.symm.trans hm)).symm
    · exact .inl (update_of_ne ht _ _)
  · simp [ObMvccRow.mvccUndo, hhead, ObMvccRow.setNode]

/-- The state with the node of a writer on top. -/
def inserted (s : RowState) (q : WriteArg) : RowState :=
  { s with row := s.row.insertNode s.nodeCnt q
           nodeCnt := s.nodeCnt + 1
           snapshot := update s.snapshot s.nodeCnt q.snapshotVersion }

theorem inserted_node_of_lt : ∀ n < s.nodeCnt, (s.inserted q).row.node n = s.row.node n :=
  fun _ hn => update_of_ne hn.ne _ _

theorem inserted_node_self : (s.inserted q).row.node s.nodeCnt =
    { txId := q.txId, seqNo := q.seqNo, dmlFlag := q.dmlFlag } :=
  update_self ..

theorem Inv.of_latch (h : s.Inv) (hpc : s.pc q.txId = .latch q) : (s.tx q.txId).state = .running ∧
    s.RolledBack q.txId ∧ (s.tx q.txId).isContain q.seqNo = false := by
  have := h.pc q.txId
  rw [hpc] at this
  exact this.2

/-- **The latch section** puts the node of a writer on top of settled nodes. -/
theorem Inv.insert (h : s.Inv) (hpc : s.pc q.txId = .latch q)
    (hset : ∀ n < s.nodeCnt, (s.row.node n).txId ≠ q.txId → s.Settled n)
    (hres : res.txNode = some s.nodeCnt) :
    ((s.inserted q).setPc q.txId (.reloadTrans q res)).Inv := by
  set s' := (s.inserted q).setPc q.txId (.reloadTrans q res)
  have hcnt : s'.nodeCnt = s.nodeCnt + 1 := rfl
  have hold : ∀ n < s.nodeCnt, s'.row.node n = s.row.node n := inserted_node_of_lt
  have hnew : s'.row.node s.nodeCnt = _ := inserted_node_self
  have hcases : ∀ n < s'.nodeCnt, n < s.nodeCnt ∨ n = s.nodeCnt := fun n hn => by omega
  have hgone : ∀ {n}, n < s.nodeCnt → s.Gone n → s'.Gone n := fun hn hg =>
    hg.congr (hold _ hn) rfl rfl
  have hsettled : ∀ {v n}, n < s.nodeCnt → s.SettledBy v n → s'.SettledBy v n := fun hn hv =>
    hv.imp (hgone hn) fun hc => by rw [hold _ hn]; exact hc
  have hchain : s'.chain = s.nodeCnt :: s.chain := by
    have hfilter : (range s.nodeCnt).filter (fun n => (s'.row.node n).alive) =
        (range s.nodeCnt).filter fun n => (s.row.node n).alive :=
      filter_congr fun n hn => by rw [hold n (mem_range.mp hn)]
    change ((range (s.nodeCnt + 1)).filter fun n => (s'.row.node n).alive).reverse = _
    rw [range_succ, filter_append, hfilter]
    simp [hnew, TransNode.alive, chain, ObMvccRow.chain]
  have hcb : s.cb s.nodeCnt = false := eq_false_iff.mpr fun hcb =>
    absurd (h.cb _ hcb).1 (lt_irrefl _)
  obtain ⟨hrun, -, hundone⟩ := h.of_latch hpc
  refine ⟨⟨?_, ?_⟩, fun n hn hc => ?_, fun n hn hab => ?_, fun n hr => ?_, fun n hn => ?_,
    fun i j hlt hi hj htx => ?_, fun n hn hund hdel hcbn => ?_, fun t => ?_⟩
  · change s'.row.links.Rep s'.chain
    rw [hchain]
    exact h.ok.rep.push fun hmem => lt_irrefl _ (mem_chain.mp hmem).1
  · change s'.row.totalTransNodeCnt = s'.chain.length
    rw [hchain, length_cons]
    exact congrArg (· + 1) h.ok.count
  · rcases hcases n hn with hn | rfl
    · rw [hold n hn] at hc ⊢
      exact h.committed n hn hc
    · rw [hnew] at hc
      exact nomatch hc
  · rcases hcases n hn with hn | rfl
    · exact hgone hn (h.aborted n hn (hold n hn ▸ hab))
    · rw [hnew] at hab
      exact nomatch hab
  · obtain ⟨hlt, hab⟩ := h.removed n hr
    exact ⟨hlt.trans (Nat.lt_succ_self _), (hold n hlt).symm ▸ hab⟩
  · obtain ⟨hlt, hund, hdel⟩ := h.cb n hn
    rw [hold n hlt]
    exact ⟨hlt.trans (Nat.lt_succ_self _), hund, hdel⟩
  · rw [hchain, mem_cons] at hi hj
    have hjlt : j < s.nodeCnt := by
      rcases hi with rfl | hi
      · exact hlt
      · exact hlt.trans (mem_chain.mp hi).1
    apply hsettled hjlt
    rw [hold j hjlt] at htx
    rcases hi with rfl | hi
    · rw [hnew] at htx
      exact hset j hjlt htx.symm
    have hilt := (mem_chain.mp hi).1
    rw [hold i hilt] at htx
    exact h.locks i j hlt hi (hj.resolve_left hjlt.ne) htx
  · change RowState.pending (update s.pc q.txId (.reloadTrans q res) _) = some n
    rcases hcases n hn with hn | rfl
    · rw [hold n hn] at hund hdel ⊢
      have hpend := h.pending n hn hund hdel hcbn
      have hne : (s.row.node n).txId ≠ q.txId := fun heq => by
        rw [heq, hpc] at hpend
        exact nomatch hpend
      rw [update_of_ne hne]
      exact hpend
    · rw [hnew, update_self]
      exact hres
  · change s'.PcOk t (update s.pc q.txId (.reloadTrans q res) t)
    by_cases ht : t = q.txId
    · subst ht
      rw [update_self]
      refine ⟨rfl, ⟨hrun, s.nodeCnt, by rw [hchain]; rfl, by rw [hnew], by rw [hnew]; rfl,
        ?_, ?_⟩, ?_⟩
      · unfold undone
        rw [hnew]
        exact hundone
      · intro n hn
        obtain rfl : s.nodeCnt = n := some.inj (hres.symm.trans hn)
        exact ⟨rfl, hcb, by rw [hnew]⟩
      intro n hn htx
      rcases hcases n hn with hn | rfl
      · rw [hold n hn] at htx
        exact hsettled hn (hset n hn htx)
      · exact absurd (by rw [hnew]) htx
    rw [update_of_ne ht]
    have hpct := h.pc t
    -- nobody else can hold the head: all nodes but the writer's own are settled
    have hother : ∀ x, ¬ s.Holds t x := fun x hx => by
      obtain ⟨k, hk, htx, hnot⟩ := hx.not_settledBy h
      exact hnot _ (hset k hk (htx ▸ ht))
    cases hp : s.pc t with
    | idle => trivial
    | loadTrans q' | loadElr q' | latch q' =>
      rw [hp] at hpct
      refine ⟨hpct.1, hpct.2.1, fun n hn hcbn htx => ?_, hpct.2.2.2⟩
      have hlt := (h.cb n hcbn).1
      unfold undone
      rw [hold n hlt] at htx ⊢
      exact hpct.2.2.1 n hlt hcbn htx
    | reloadTrans q' res | reloadElr q' res | undo q' res e =>
      rw [hp] at hpct
      exact absurd hpct.2.1 (hother _)

/-- What a step from `s` to `s'` with which a call of `mvcc_write` returns promises. A failed call
that had linked a node has taken just this node out of the chain; one that had linked none has at
most cleaned out nodes. -/
structure Kept (s s' : RowState) (ret : WriteReturn) : Prop where
  settled : ret.error = none → ∀ n < s'.nodeCnt, (s'.row.node n).txId ≠ ret.arg.txId →
    s'.SettledBy ret.arg.snapshotVersion n
  undone : ret.error ≠ none → ∀ n, ret.txNode = some n → s'.chain = s.chain.erase n ∧
    ∀ m ≠ n, s'.row.node m = s.row.node m
  unlinked : ret.error ≠ none → ret.txNode = none → s'.nodeCnt = s.nodeCnt ∧
    Cleaned s.tx s.nodeCnt s.row s'.row

/-- A result of a step with the invariant, and with the promise if a call has returned. -/
def Good (s : RowState) (p : RowState × Option WriteReturn) : Prop :=
  p.1.Inv ∧ ∀ ret ∈ p.2, Kept s p.1 ret

theorem Good.setPc {s₀} (h : s.Inv) {pc} (hpc : s.PcOk t pc)
    (hpend : ∀ n, pending (s.pc t) = some n → pending pc = some n) : Good s₀ (s.setPc t pc, none) :=
  ⟨h.setPc hpc hpend, fun _ h => nomatch h⟩

theorem Good.return_error {r} (h : { s with row := r }.Inv) (hr : Cleaned s.tx s.nodeCnt s.row r)
    (hpend : pending (s.pc q.txId) = none) :
    Good s ({ s with row := r }.return_ q none (some e)) := by
  refine ⟨h.return_none hpend, fun ret hret => ?_⟩
  obtain rfl := some.inj hret
  exact ⟨nofun, nofun, fun _ _ => ⟨rfl, hr⟩⟩

theorem Good.fail (h : s.Inv)
    (hheld : s.Holds q.txId res.txNode) (hpend : pending (s.pc q.txId) = res.txNode) :
    Good s (s.fail q res e) := by
  refine ⟨h.fail hheld hpend, ?_⟩
  unfold RowState.fail
  split
  · exact fun _ h => nomatch h
  · exact (Good.return_error h .refl (hpend.trans (by simpa using ‹¬ res.txNode.isSome = true›))).2

section

variable (h : s.Inv) (hpc : s.pc q.txId = .latch q) (hstep : s.runWrite q.txId = some p)
include h hpc hstep

/-- **What the latch section does**: it writes back nodes, and returns an error, inserts the node of
the writer or finds the row locked by it. -/
theorem latch_cases :
    ∃ r, { s with row := r }.Inv ∧ Cleaned s.tx s.nodeCnt s.row r ∧
      ((∃ e, p = { s with row := r }.return_ q none (some e)) ∨
      (∃ res, res.txNode = some s.nodeCnt ∧
        p = (({ s with row := r }.inserted q).setPc q.txId (.reloadTrans q res), none) ∧
        Stopped { s with row := r } q res ∧
        ∀ k ∈ r.links.head, checkSequenceSetViolation q (r.node k) = none) ∨
      ∃ res, res.txNode = none ∧ p = ({ s with row := r }.setPc q.txId (.reloadTrans q res), none) ∧
        { s with row := r }.PcOk q.txId (.reloadTrans q res)) := by
  have hq := h.of_latch hpc
  have hpend : pending (s.pc q.txId) = none := by rw [hpc]; rfl
  have hlen : (s.row.chain s.nodeCnt).length ≤ s.nodeCnt + 1 := by
    have : (s.row.chain s.nodeCnt).length ≤ (range s.nodeCnt).length := by
      rw [ObMvccRow.chain, length_reverse]
      exact length_filter_le _ _
    rw [length_range] at this
    omega
  obtain ⟨r, res, hloop, hnone, hinv, hcl, hstop⟩ :=
    mvccWriteLoop_spec hq.2.1 hpend (s.nodeCnt + 1) s.row h (.refl _) .refl hlen
  refine ⟨r, hinv, hcl, ?_⟩
  simp only [runWrite, hpc, ObMvccRow.mvccWriteLatched, hloop, map_some, some.injEq] at hstep
  subst hstep
  by_cases hcan : res.canInsert = true
  swap
  · -- another transaction holds the row
    left
    simp only [hcan, Bool.false_and, Bool.false_eq_true, if_false, hnone, toList_none,
      length_nil, Nat.add_zero, isSome_none]
    exact ⟨_, rfl⟩
  have hstop := hstop hcan
  by_cases hneed : res.needInsert = true
  · rw [hcan, hneed, Bool.and_self, if_pos rfl]
    cases hseq : r.links.head.bind fun k => checkSequenceSetViolation q (r.node k) with
    | some e => exact .inl ⟨e, rfl⟩
    | none =>
      cases hdup : r.links.head.bind fun k => checkDoubleInsert q (r.node k) with
      | some e => exact .inl ⟨e, rfl⟩
      | none =>
      dsimp only
      rw [if_pos rfl]
      refine .inr (.inl ⟨_, rfl, rfl, ⟨hstop.settled, nofun, hstop.top⟩, fun k hk => ?_⟩)
      exact bind_eq_none_iff.mp hseq k hk
  -- the row is locked already
  rw [Bool.not_eq_true] at hneed
  rw [hneed, Bool.and_false, if_neg Bool.false_ne_true]
  dsimp only
  rw [if_pos hcan]
  simp only [hnone, toList_none, length_nil, Nat.add_zero, isSome_none,
    false_eq_true, if_false]
  obtain ⟨k, hk, htx, hund, hundone⟩ := hstop.own hneed
  refine .inr (.inr ⟨res, hnone, rfl, rfl, ⟨hq.1, k, hk, htx, hund, hundone, ?_⟩,
    hstop.settled⟩)
  rw [hnone]
  exact fun _ h => nomatch h

theorem good_latch : Good s p := by
  have hpend : pending (s.pc q.txId) = none := by rw [hpc]; rfl
  obtain ⟨r, hinv, hr, ⟨e, rfl⟩ | ⟨res, hnode, rfl, hstop, -⟩ | ⟨res, -, rfl, hpcok⟩⟩ :=
    latch_cases h hpc hstep
  · exact Good.return_error hinv hr hpend
  · exact ⟨hinv.insert hpc hstop.settled hnode, fun _ h => nomatch h⟩
  · exact Good.setPc hinv hpcok fun n hn => nomatch hpend.symm.trans hn

end

theorem good_runWrite (h : s.Inv) (hstep : s.runWrite t = some p) : Good s p := by
  have hpc := h.pc t
  cases hp : s.pc t with
  | idle => simp [runWrite, hp] at hstep
  | loadTrans q | loadElr q =>
    rw [hp] at hpc
    obtain ⟨rfl, hq⟩ := hpc
    simp only [runWrite, hp] at hstep
    split at hstep <;> cases hstep
    · exact Good.return_error h .refl (by rw [hp]; rfl)
    · exact Good.setPc h ⟨rfl, hq⟩ fun n hn => by rw [hp] at hn; exact nomatch hn
  | latch q =>
    rw [hp] at hpc
    obtain ⟨rfl, -⟩ := hpc
    exact good_latch h hp hstep
  | reloadTrans q res =>
    rw [hp] at hpc
    obtain ⟨rfl, hheld, hset⟩ := hpc
    simp only [runWrite, hp] at hstep
    split at hstep <;> cases hstep
    · exact Good.fail h hheld (by rw [hp]; rfl)
    -- what the row knows of is below the snapshot
    rename_i hle
    refine Good.setPc h ⟨rfl, hheld, fun n hn htx => ?_⟩ fun n hn => by rw [hp] at hn; exact hn
    exact (hset n hn htx).imp_right fun ⟨w, hw, hwle⟩ => ⟨w, hw, hwle.trans (not_lt.mp hle)⟩
  | reloadElr q res =>
    rw [hp] at hpc
    obtain ⟨rfl, hheld, hset⟩ := hpc
    have hpend : pending (s.pc q.txId) = res.txNode := by rw [hp]; rfl
    simp only [runWrite, hp] at hstep
    split at hstep
    · cases hstep
      exact Good.fail h hheld hpend
    split at hstep <;> cases hstep
    · exact Good.fail h hheld hpend
    refine ⟨?_, fun ret hret => ?_⟩
    · cases hnode : res.txNode with
      | none => exact h.return_none (hpend.trans hnode)
      | some n => exact h.return_some (hnode ▸ hheld) (hpend.trans hnode)
    · obtain rfl := some.inj hret
      cases res.txNode <;> exact ⟨fun _ => hset, fun h => absurd rfl h, fun h => absurd rfl h⟩
  | undo q res e =>
    rw [hp] at hpc
    obtain ⟨rfl, hheld, hsome⟩ := hpc
    obtain ⟨n, hn⟩ := isSome_iff_exists.mp hsome
    simp only [runWrite, hp, hn] at hstep
    cases hstep
    rw [hn] at hheld
    obtain ⟨hdec, hchain⟩ := DecidesNode.mvccUndo h hheld (by rw [hp]; exact hn)
    refine ⟨h.decide hdec, fun ret hret => ?_⟩
    obtain rfl := some.inj hret
    refine ⟨nofun, fun _ m hm => ?_, nofun⟩
    obtain rfl := some.inj hm
    exact ⟨hchain, fun k hk => hdec.node_of_ne hk⟩

/-! ## The other steps -/

theorem pc_of_idle (h : s.Idle t = true) : s.pc t = .idle := by
  unfold Idle at h
  split at h
  · assumption
  · exact nomatch h

theorem decides_setTx {d : TxData} (hrun : (s.tx t).state = .running) (hidle : s.Idle t = true)
    (hundo : ∀ seqNo, (s.tx t).isContain seqNo = true → d.isContain seqNo = true) :
    Decides s (s.setTx t d) := by
  have hpc := pc_of_idle hidle
  have hsame : ∀ t' ≠ t, (s.setTx t d).tx t' = s.tx t' := fun t' ht => update_of_ne ht _ _
  have hself : (s.setTx t d).tx t = d := update_self ..
  refine ⟨rfl, fun _ => .inl rfl, fun _ => rfl, fun _ => rfl, fun _ => id, le_rfl,
    fun _ => id, fun _ => id, fun _ => id, fun _ => id, fun n h h' => ?_, fun t' seqNo hc => ?_,
    fun t' => ?_, fun t' hbusy => ?_, fun n _ _ hund _ => ⟨hund, fun _ => rfl⟩⟩
  · exact absurd (h.symm.trans h') (by simp)
  · by_cases ht : t' = t
    · subst ht
      rw [hself]
      exact hundo seqNo hc
    · rw [hsame t' ht]
      exact hc
  · by_cases ht : t' = t
    · exact .inl (ht ▸ hrun)
    · exact .inr (by rw [hsame t' ht])
  · by_cases ht : t' = t
    · exact absurd (ht ▸ hpc) hbusy
    · exact hsame t' ht

theorem Inv.setTx (h : s.Inv) {d : TxData} (hrun : (s.tx t).state = .running)
    (hidle : s.Idle t = true)
    (hundo : ∀ seqNo, (s.tx t).isContain seqNo = true → d.isContain seqNo = true) :
    (s.setTx t d).Inv := by
  have d := decides_setTx hrun hidle hundo
  refine h.of_decides d h.ok (fun n hn hab => d.gone (h.aborted n hn hab)) h.removed
    (fun n hn hc => ?_) h.cb
  obtain ⟨v, hv, hle⟩ := h.committed n hn hc
  have hne : (s.row.node n).txId ≠ t := fun heq => by
    rw [heq, hrun] at hv
    exact nomatch hv
  exact ⟨v, by rw [← hv]; exact congrArg TxData.state (update_of_ne hne _ _), hle⟩

/-- A node whose callback is removed is cleaned out later. -/
def delayed (s : RowState) (n : ℕ) : RowState :=
  { s with row := s.row.setNode n { s.row.node n with delayedCleanout := true }
           cb := update s.cb n false }

theorem delayed_field {α : Type} (f : TransNode → α)
    (hf : ∀ x, f { x with delayedCleanout := true } = f x) (m : ℕ) :
    f ((s.delayed n).row.node m) = f (s.row.node m) := by
  by_cases hm : m = n
  · rw [hm]
    exact (congrArg f setNode_node).trans (hf _)
  · exact congrArg f (setNode_node_of_ne hm)

theorem delayed_cb {m} (hm : (s.delayed n).cb m = true) : s.cb m = true ∧ m ≠ n := by
  change update s.cb n false m = true at hm
  have hmn : m ≠ n := fun heq => by simp [heq] at hm
  rw [update_of_ne hmn] at hm
  exact ⟨hm, hmn⟩

theorem decides_delayed (hcb : s.cb n = true) : Decides s (s.delayed n) := by
  have hund := delayed_field (s := s) (n := n) TransNode.undecided fun _ => rfl
  have hsame : ∀ m ≠ n, (s.delayed n).row.node m = s.row.node m := fun m hm =>
    setNode_node_of_ne hm
  have hself : ((s.delayed n).row.node n).delayedCleanout = true :=
    congrArg TransNode.delayedCleanout setNode_node
  refine ⟨rfl, fun _ => .inl rfl, delayed_field _ fun _ => rfl, delayed_field _ fun _ => rfl,
    fun m hm => (delayed_cb hm).1, le_rfl, fun m hm => ?_, fun _ => id, fun m => (hund m ▸ ·),
    fun m hm => ?_, fun m hm hm' => ?_, fun _ _ => id, fun _ => .inr rfl, fun _ _ => rfl,
    fun m _ _ hu _ => ⟨(hund m).trans hu, fun hcbm => ?_⟩⟩
  · exact (delayed_field TransNode.alive (fun _ => rfl) m).symm.trans hm
  · by_cases hmn : m = n
    · exact hmn ▸ hself
    rw [hsame m hmn]
    exact hm
  · right
    have hmn : m = n := by
      by_contra hmn
      change update s.cb n false m = false at hm'
      rw [update_of_ne hmn, hm] at hm'
      exact nomatch hm'
    exact hmn ▸ hself
  · have hmn : m ≠ n := fun heq => by simp [heq, hcb] at hcbm
    rw [hsame m hmn]

theorem Inv.removeCallback (h : s.Inv) (hcb : s.cb n = true) : (s.delayed n).Inv := by
  have hab := delayed_field (s := s) (n := n) TransNode.aborted fun _ => rfl
  refine h.of_decides (decides_delayed hcb) ?_ (fun m hm hm' => ?_)
    (fun m hm => ⟨(h.removed m hm).1, (hab m).trans (h.removed m hm).2⟩) (fun m hm hc => ?_)
    fun m hm => ?_
  · exact h.ok.congr rfl rfl fun m _ => delayed_field TransNode.alive (fun _ => rfl) m
  · exact (decides_delayed hcb).gone (h.aborted m hm ((hab m).symm.trans hm'))
  · rw [delayed_field TransNode.committed (fun _ => rfl) m] at hc
    rw [delayed_field TransNode.txId (fun _ => rfl) m]
    exact h.committed m hm hc
  obtain ⟨hcbm, hmn⟩ := delayed_cb hm
  have hsame : (s.delayed n).row.node m = s.row.node m := setNode_node_of_ne hmn
  rw [hsame]
  exact h.cb m hcbm

/-- **Every step keeps the invariant**, and a call returns what it promises. -/
theorem good_step (h : s.Inv) {a} (hstep : s.step a = some p) : Good s p := by
  have hnone : ∀ {s' : RowState}, s'.Inv → Good s (s', none) := fun h => ⟨h, fun _ h => nomatch h⟩
  have hcb : ∀ {n : ℕ}, ∀ m ≠ n, update s.cb n false m = s.cb m :=
    fun m hm => update_of_ne hm _ _
  cases a with
  | write q =>
    obtain ⟨⟨hrun, hidle, hback, hseq⟩, ⟨⟩⟩ := ite_none_right_eq_some.mp hstep
    refine Good.setPc h ⟨rfl, hrun, hback, hseq⟩ fun n hn => ?_
    rw [pc_of_idle hidle] at hn
    exact nomatch hn
  | run t => exact good_runWrite h hstep
  | commitTx t v | abortTx t =>
    obtain ⟨⟨hrun, hidle⟩, ⟨⟩⟩ := ite_none_right_eq_some.mp hstep
    exact hnone (h.setTx hrun hidle fun _ => id)
  | undo t u =>
    obtain ⟨⟨hrun, hidle⟩, ⟨⟩⟩ := ite_none_right_eq_some.mp hstep
    refine hnone (h.setTx hrun hidle fun seqNo hc => ?_)
    simp only [TxData.isContain, any_cons, or_eq_true] at hc ⊢
    exact .inr hc
  | transCommit n =>
    simp only [step] at hstep
    split at hstep
    · rename_i v hv
      obtain ⟨⟨hn, hcbn⟩, ⟨⟩⟩ := ite_none_right_eq_some.mp hstep
      exact hnone (h.decide (.commitNode h hn (h.cb n hcbn).2.1 hv hcb (update_self ..)))
    · exact nomatch hstep
  | transAbort n =>
    obtain ⟨⟨hn, hcbn, habort⟩, ⟨⟩⟩ := ite_none_right_eq_some.mp hstep
    have hund := (h.cb n hcbn).2.1
    rw [if_pos hund]
    exact hnone (h.decide (.abortNode h hn hund (.inr (.inl (by simp [habort]))) hcb
      (update_self ..) (fun _ _ => rfl) (.inr (.inr habort))))
  | rollbackCallback n =>
    obtain ⟨⟨hn, hcbn, -, hidle⟩, ⟨⟩⟩ := ite_none_right_eq_some.mp hstep
    exact hnone (h.decide (.abortNode h hn (h.cb n hcbn).2.1 (.inl (pc_of_idle hidle)) hcb
      (update_self ..) (fun m hm => update_of_ne hm _ _) (.inl (update_self ..))))
  | removeCallback n =>
    obtain ⟨⟨-, hcbn⟩, ⟨⟩⟩ := ite_none_right_eq_some.mp hstep
    exact hnone (h.removeCallback hcbn)
  | cleanout n =>
    obtain ⟨hn, ⟨⟩⟩ := ite_none_right_eq_some.mp hstep
    exact hnone (h.cleanout hn)

theorem IsInit.inv (h : s.IsInit) : s.Inv := by
  have hchain : s.chain = [] := by
    simp [chain, ObMvccRow.chain, h.nodeCnt]
  refine ⟨⟨?_, ?_⟩, fun n hn => ?_, fun n hn => ?_, fun n hn => ?_, fun n hn => ?_,
    fun i j _ hi => ?_, fun n hn => ?_, fun t => ?_⟩
  · change s.row.links.Rep s.chain
    rw [hchain]
    exact ⟨.nil, h.head, trivial⟩
  · change s.row.totalTransNodeCnt = s.chain.length
    rw [hchain]
    exact h.count
  · exact absurd hn (by simp [h.nodeCnt])
  · exact absurd hn (by simp [h.nodeCnt])
  · exact absurd hn (by simp [h.removed])
  · exact absurd hn (by simp [h.cb])
  · exact absurd hi (by simp [hchain])
  · exact absurd hn (by simp [h.nodeCnt])
  · rw [h.idle t]
    trivial

theorem inv_of_reachable {ok : RowState → RowAct → Prop} (h : (mvccRow ok).Reachable s) :
    s.Inv := by
  refine Machine.Reachable.of_keeps (fun _ hinit => IsInit.inv hinit) ?_ h
  rintro s s' hs ⟨a, ret, -, hstep⟩
  exact (good_step hs hstep).1

end RowState

/-- **No update is lost.** When a write of a transaction succeeds, every other transaction that ever
linked a node into the row, and has not aborted, rolled it back or failed to write it, has committed
with a version that the snapshot of the write sees. When the write fails, the chain is that before
its last step without its node, and every other node is the same; if it had not linked a node, the
row is as before but for delayed cleanouts. Links and count are those of the chain. -/
theorem mvccWrite_no_lost_update {s s' : RowState} {a : RowAct} {ret : WriteReturn}
    (hs : (mvccRow fun _ _ => True).Reachable s) (hstep : s.step a = some (s', some ret)) :
    (ret.error = none → ∀ n < s'.nodeCnt, (s'.row.node n).txId ≠ ret.arg.txId →
      s'.SettledBy ret.arg.snapshotVersion n) ∧
    (ret.error ≠ none →
      (∀ n, ret.txNode = some n → s'.chain = s.chain.erase n ∧ n ∉ s'.chain ∧
        ∀ m ≠ n, s'.row.node m = s.row.node m) ∧
      (ret.txNode = none → s'.nodeCnt = s.nodeCnt ∧ Cleaned s.tx s.nodeCnt s.row s'.row) ∧
      s'.row.links.Rep s'.chain ∧ s'.row.totalTransNodeCnt = s'.chain.length) := by
  obtain ⟨hinv, hkept⟩ := good_step (inv_of_reachable hs) hstep
  have hkept := hkept ret rfl
  refine ⟨hkept.settled, fun he => ⟨fun n hn => ?_, hkept.unlinked he, hinv.ok.rep, hinv.ok.count⟩⟩
  obtain ⟨hchain, hnodes⟩ := hkept.undone he n hn
  exact ⟨hchain, hchain ▸ (ObMvccRow.chain_nodup).not_mem_erase, hnodes⟩

/-- A write that runs up to its last step but one. -/
def writeUpTo (q : WriteArg) : List RowAct :=
  .write q :: replicate 4 (.run q.txId)

/-- A transaction commits with version 5 between the two checks of a writer with an older
snapshot. -/
def commitBetween : List RowAct :=
  writeUpTo ⟨1, 3, 1, 1, .update, {}⟩ ++
    [.run 1, .write ⟨2, 4, 2, 2, .update, {}⟩, .run 2, .run 2, .commitTx 1 5, .transCommit 0,
      .run 2, .run 2]

/-- What the next step of a transaction's write returns after a run: the error and the new node. -/
def returnAfter (as : List RowAct) (txId : ℕ) : Option (Option WriteError × Option ℕ) :=
  (run (fun _ _ => True) .empty as).bind fun s => (s.runWrite txId).bind fun p =>
    p.2.map fun ret => (ret.error, ret.txNode)

theorem exists_of_returnAfter {as txId x} (h : returnAfter as txId = some x) :
    ∃ s s' ret, (mvccRow fun _ _ => True).Reachable s ∧ s.step (.run txId) = some (s', some ret) ∧
      (ret.error, ret.txNode) = x := by
  obtain ⟨s, hs, h⟩ := bind_eq_some_iff.mp h
  obtain ⟨⟨s', r⟩, hstep, h⟩ := bind_eq_some_iff.mp h
  obtain ⟨ret, rfl, hx⟩ := map_eq_some_iff.mp h
  exact ⟨s, s', ret, run_reachable (.init empty_isInit) hs, hstep, hx⟩

theorem mvccWrite_no_lost_update_commitBetween :
    (∃ s s' ret, (mvccRow fun _ _ => True).Reachable s ∧ s.step (.run 2) = some (s', some ret) ∧
      ret.error = some .transactionSetViolation ∧ ret.txNode = some 1 ∧
      s'.chain = s.chain.erase 1) ∧
    ∃ s s' ret, (mvccRow fun _ _ => True).Reachable s ∧ s.step (.run 3) = some (s', some ret) ∧
      ret.error = none ∧ ∀ n < s'.nodeCnt, (s'.row.node n).txId ≠ ret.arg.txId →
        s'.SettledBy ret.arg.snapshotVersion n := by
  refine ⟨?_, ?_⟩
  · obtain ⟨s, s', ret, hs, hstep, hx⟩ := exists_of_returnAfter
      (show returnAfter commitBetween 2 = some (some .transactionSetViolation, some 1) by
        decide +kernel)
    obtain ⟨herror, hnode⟩ := Prod.mk.inj hx
    exact ⟨s, s', ret, hs, hstep, herror, hnode,
      (((mvccWrite_no_lost_update hs hstep).2 (by simp [herror])).1 1 hnode).1⟩
  · obtain ⟨s, s', ret, hs, hstep, hx⟩ := exists_of_returnAfter
      (show returnAfter (commitBetween ++ [.run 2] ++ writeUpTo ⟨3, 6, 3, 3, .delete, {}⟩) 3 =
        some (none, some 2) by decide +kernel)
    obtain ⟨herror, -⟩ := Prod.mk.inj hx
    exact ⟨s, s', ret, hs, hstep, herror, (mvccWrite_no_lost_update hs hstep).1 herror⟩

end OceanBase.Memtable
