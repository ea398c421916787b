import OceanBase.Memtable.NoLostUpdate

/-!
# The order of the versions of a row

Commit versions are not below the snapshots of the writes they commit. The versions of a chain then
fall from the newest to the oldest, and so do the sequence numbers of one transaction: a node that
`mvcc_write` has checked stands above commits that its snapshot sees, and above smaller sequence
numbers of its own transaction.

## Main results

* `RowState.versions_of_reachable`: every row has ordered versions
-/

namespace OceanBase.Memtable

open Function Option ObMvccRow RowState TransNode

namespace RowState

/-- A transaction commits when its rollbacks are complete, and not below the snapshot of any of its
writes. -/
def CommitAbove (s : RowState) : RowAct → Prop
  | .commitTx t v => s.RolledBack t ∧ ∀ n < s.nodeCnt, (s.row.node n).txId = t → s.snapshot n ≤ v
  | _ => True

instance (s : RowState) : DecidablePred s.CommitAbove
  | .commitTx _ _ => inferInstanceAs (Decidable (_ ∧ ∀ n < s.nodeCnt, _))
  | .write _ | .run _ | .abortTx _ | .undo _ _ | .transCommit _ | .transAbort _
  | .rollbackCallback _ | .removeCallback _ | .cleanout _ => isTrue trivial

/-- The node that a call has put into the chain and not checked yet, or given up. -/
def unchecked : WritePc → Option ℕ
  | .reloadTrans _ res | .undo _ res _ => res.txNode
  | _ => none

variable {p : RowState × Option WriteReturn} {res : WriteResult} {q : WriteArg} {pc : WritePc}

theorem pending_of_unchecked {n} (h : unchecked pc = some n) : pending pc = some n := by
  cases pc with
  | reloadTrans q res | undo q res e => exact h
  | _ => exact nomatch h

/-- **The order of the versions of a row.** -/
structure Versions (s : RowState) : Prop where
  snapshot_le : ∀ n < s.nodeCnt, ∀ v, (s.tx (s.row.node n).txId).state = .commit v →
    s.snapshot n ≤ v
  version : ∀ n < s.nodeCnt, (s.row.node n).committed = true →
    (s.tx (s.row.node n).txId).state = .commit (s.row.node n).transVersion ∧ s.undone n = false
  cb : ∀ n, s.cb n = true → ∀ v, (s.tx (s.row.node n).txId).state = .commit v → s.undone n = false
  above : ∀ i j, j < i → i ∈ s.chain → j ∈ s.chain → (s.row.node i).txId ≠ (s.row.node j).txId →
    unchecked (s.pc (s.row.node i).txId) ≠ some i → s.undone j = false →
    ∀ w, (s.tx (s.row.node j).txId).state = .commit w → w ≤ s.snapshot i
  seq : ∀ i j, j < i → i ∈ s.chain → j ∈ s.chain → (s.row.node i).txId = (s.row.node j).txId →
    s.undone i = false → s.undone j = false → (s.row.node j).seqNo ≤ (s.row.node i).seqNo
  pc : ∀ t q res, s.pc t = .reloadTrans q res → ∀ n ∈ res.txNode, s.snapshot n = q.snapshotVersion

variable {s s' : RowState} {n t v : ℕ}

/-! ## Nodes are decided -/

theorem Decides.not_undone (d : Decides s s') (h : s'.undone n = false) : s.undone n = false := by
  refine Bool.eq_false_iff.mpr fun hu => ?_
  unfold undone at h hu
  rw [d.txId, d.seqNo, d.undo _ _ hu] at h
  exact nomatch h

section

variable (h : s.Versions) (hinv : s.Inv) (d : Decides s s') (hsnap : s'.snapshot = s.snapshot)
include h hinv d hsnap

theorem Versions.of_decides (hle : ∀ n < s'.nodeCnt, ∀ v,
    (s'.tx (s'.row.node n).txId).state = .commit v →
      s'.snapshot n ≤ v) (hversion : ∀ n < s'.nodeCnt, (s'.row.node n).committed = true →
      (s'.tx (s'.row.node n).txId).state = .commit (s'.row.node n).transVersion ∧
        s'.undone n = false)
    (hcb : ∀ n, s'.cb n = true → ∀ v, (s'.tx (s'.row.node n).txId).state = .commit v →
      s'.undone n = false) : s'.Versions := by
  have hchain : ∀ n, n ∈ s'.chain → n ∈ s.chain := fun n hn => by
    rw [d.chain_eq] at hn
    exact List.mem_of_mem_filter hn
  refine ⟨hle, hversion, hcb, fun i j hlt hi hj htx hun hundone w hw => ?_,
    fun i j hlt hi hj htx hui huj => ?_, fun t q res hpc n hn => ?_⟩
  · rw [d.txId, d.txId] at htx
    rw [d.txId] at hun hw
    rw [hsnap]
    have hundone' := d.not_undone hundone
    have hstate : (s.tx (s.row.node j).txId).state = .commit w := by
      -- a node below one of another transaction is settled, so its state is final
      rcases hinv.locks i j hlt (hchain i hi) (hchain j hj) htx with (hab | hu | hab) | ⟨w', hw', -⟩
      · exact absurd (hinv.removed j hab).2 (not_aborted_of_mem (hchain j hj))
      · exact nomatch hu.symm.trans hundone'
      · exact ((d.state _).resolve_left (by simp [hab])).symm.trans hw
      · exact ((d.state _).resolve_left (by simp [hw'])).symm.trans hw
    refine h.above i j hlt (hchain i hi) (hchain j hj) htx (fun hun' => ?_) hundone' w hstate
    rcases d.pc (s.row.node i).txId with heq | ⟨-, hab⟩
    · exact hun (heq ▸ hun')
    · exact not_aborted_of_mem hi (hab i (pending_of_unchecked hun'))
  · rw [d.txId, d.txId] at htx
    rw [d.seqNo, d.seqNo]
    exact h.seq i j hlt (hchain i hi) (hchain j hj) htx (d.not_undone hui) (d.not_undone huj)
  · rw [hsnap]
    rcases d.pc t with heq | ⟨hidle, -⟩
    · exact h.pc t q res (heq ▸ hpc) n hn
    rw [hpc] at hidle
    exact nomatch hidle

theorem Versions.of_decides_nodes (htx : s'.tx = s.tx)
    (hversion : ∀ n < s.nodeCnt, (s'.row.node n).committed = true →
      (s.tx (s.row.node n).txId).state = .commit (s'.row.node n).transVersion ∧
        s.undone n = false) : s'.Versions := by
  have hundone : ∀ n, s'.undone n = s.undone n := fun n => by
    unfold undone
    rw [htx, d.txId, d.seqNo]
  refine h.of_decides hinv d hsnap (fun n hn v hv => ?_) (fun n hn hc => ?_) fun n hn v hv => ?_
  · rw [htx, d.txId] at hv
    rw [hsnap]
    exact h.snapshot_le n (d.nodeCnt ▸ hn) v hv
  · rw [htx, d.txId, hundone]
    exact hversion n (d.nodeCnt ▸ hn) hc
  · rw [htx, d.txId] at hv
    rw [hundone]
    exact h.cb n (d.cb n hn) v hv

end

theorem Versions.decide {r} {cb rm : ℕ → Bool} {pc : ℕ → WritePc} {x}
    (h : s.Versions) (hinv : s.Inv) (d : DecidesNode s n r cb rm pc x)
    (hundone : x.committed = true → s.undone n = false) :
    { s with row := r, cb := cb, removed := rm, pc := pc }.Versions := by
  refine h.of_decides_nodes hinv d.decides rfl rfl fun m hm hc => ?_
  by_cases hmn : m = n
  · subst hmn
    rw [d.node_self] at hc ⊢
    rcases d.decided with ⟨-, hx⟩ | ⟨-, hv, -⟩
    · simp [hx] at hc
    · exact ⟨hv, hundone hc⟩
  · rw [d.node_of_ne hmn] at hc ⊢
    exact h.version m hm hc

theorem Versions.cleanout (h : s.Versions) (hinv : s.Inv) (hn : n < s.nodeCnt) :
    { s with row := s.row.cleanout s.tx n }.Versions := by
  rcases cleanout_decides hinv hn with heq | ⟨x, d, hundone⟩
  · rw [heq]
    exact h
  · exact h.decide hinv d hundone

theorem Versions.cleaned (h : s.Versions) (hinv : s.Inv) {r}
    (hr : Cleaned s.tx s.nodeCnt s.row r) : { s with row := r }.Versions :=
  (hr.keeps (P := fun r => { s with row := r }.Versions) hinv
    (fun _ _ hn hr hP => Versions.cleanout hP hr hn) h).2

theorem Versions.seqNo_le (h : s.Versions) (hinv : s.Inv) (hstop : Stopped s q res)
    (hseq : ∀ k ∈ s.row.links.head, checkSequenceSetViolation q (s.row.node k) = none)
    (hrun : (s.tx q.txId).state = .running) {j} (hj : j ∈ s.chain)
    (htx : (s.row.node j).txId = q.txId) (hundone : s.undone j = false) :
    (s.row.node j).seqNo ≤ q.seqNo := by
  obtain ⟨k, hk, hown, hundonek⟩ := hstop.top hrun j hj htx hundone
  have hle : (s.row.node k).seqNo ≤ q.seqNo := by
    have hcheck := hseq k (hinv.ok.rep.head.trans hk)
    unfold checkSequenceSetViolation at hcheck
    rw [if_pos hown.symm] at hcheck
    split at hcheck
    · exact nomatch hcheck
    split at hcheck
    · exact nomatch hcheck
    · omega
  rcases eq_or_lt_of_le (le_of_head hk hj) with rfl | hlt
  · exact hle
  have hmem := List.mem_of_mem_head? hk
  exact (h.seq k j hlt hmem hj (hown.trans htx.symm) hundonek hundone).trans hle

/-! ## A call goes on -/

section

variable (h : s.Versions)
include h

theorem Versions.setPc (hchecked : ∀ i ∈ s.chain, unchecked (s.pc t) = some i →
      unchecked pc ≠ some i → ∀ j ∈ s.chain, (s.row.node j).txId ≠ t → s.undone j = false →
        ∀ w, (s.tx (s.row.node j).txId).state = .commit w → w ≤ s.snapshot i)
    (hpc : ∀ q res, pc = .reloadTrans q res → ∀ n ∈ res.txNode, s.snapshot n = q.snapshotVersion) :
    (s.setPc t pc).Versions := by
  refine { h with
    above := fun i j hlt hi hj hne hun hundone w hw => ?_, pc := fun t' q res hp => ?_ }
  · change unchecked (Function.update s.pc t pc (s.row.node i).txId) ≠ some i at hun
    by_cases hold : unchecked (s.pc (s.row.node i).txId) = some i
    · have ht : (s.row.node i).txId = t := by
        by_contra hti
        rw [update_of_ne hti] at hun
        exact hun hold
      rw [ht, update_self] at hun
      rw [ht] at hold
      exact hchecked i hi hold hun j hj (fun heq => hne (ht.trans heq.symm)) hundone w hw
    · exact h.above i j hlt hi hj hne hold hundone w hw
  · change Function.update s.pc t pc t' = _ at hp
    by_cases ht : t' = t
    · rw [ht, update_self] at hp
      exact hpc q res hp
    · rw [update_of_ne ht] at hp
      exact h.pc t' q res hp

theorem Versions.setPc_checked (hold : unchecked (s.pc t) = none)
    (hpc : ∀ q res, pc = .reloadTrans q res → ∀ n ∈ res.txNode, s.snapshot n = q.snapshotVersion) :
    (s.setPc t pc).Versions :=
  h.setPc (fun _ _ hi => nomatch hold.symm.trans hi) hpc

theorem Versions.return_ {txNode e} (hold : unchecked (s.pc q.txId) = none)
    (hrun : ∀ n ∈ txNode, (s.tx (s.row.node n).txId).state = .running) :
    (s.return_ q txNode e).1.Versions := by
  have hidle : (s.setPc q.txId .idle).Versions := h.setPc_checked hold nofun
  cases e with
  | some e => exact hidle
  | none =>
    cases txNode with
    | none => exact hidle
    | some n =>
    refine { hidle with cb := fun m hm v hv => ?_ }
    change Function.update s.cb n true m = true at hm
    by_cases hmn : m = n
    · subst hmn
      exact nomatch (hrun m rfl).symm.trans hv
    · rw [update_of_ne hmn] at hm
      exact h.cb m hm v hv

theorem Versions.fail {e}
    (hold : unchecked (s.pc q.txId) = none ∨ unchecked (s.pc q.txId) = res.txNode) :
    (s.fail q res e).1.Versions := by
  unfold RowState.fail
  split
  · refine h.setPc (fun i _ hi hne => ?_) nofun
    rcases hold with hold | hold
    · exact nomatch hold.symm.trans hi
    · exact absurd (hold.symm.trans hi) hne
  · rename_i hnone
    refine h.return_ (hold.elim id fun h => h.trans (by simpa using hnone)) nofun

theorem Versions.insert (hinv : s.Inv) (hpc : s.pc q.txId = .latch q) (hstop : Stopped s q res)
    (hseq : ∀ k ∈ s.row.links.head, checkSequenceSetViolation q (s.row.node k) = none)
    (hres : res.txNode = some s.nodeCnt) :
    ((s.inserted q).setPc q.txId (.reloadTrans q res)).Versions := by
  set s' := (s.inserted q).setPc q.txId (.reloadTrans q res)
  have hcnt : s'.nodeCnt = s.nodeCnt + 1 := rfl
  have hold : ∀ n < s.nodeCnt, s'.row.node n = s.row.node n := inserted_node_of_lt
  have hnew : s'.row.node s.nodeCnt = _ := inserted_node_self
  have hsnap : ∀ n < s.nodeCnt, s'.snapshot n = s.snapshot n := fun n hn =>
    update_of_ne hn.ne _ _
  have hundone : ∀ n < s.nodeCnt, s'.undone n = s.undone n := fun n hn => by
    unfold undone
    rw [hold n hn]
    rfl
  have hcases : ∀ n < s'.nodeCnt, n < s.nodeCnt ∨ n = s.nodeCnt := fun n hn => by omega
  have hmem : ∀ n, n ∈ s'.chain → n < s.nodeCnt → n ∈ s.chain := fun n hn hlt => by
    have := (mem_chain.mp hn).2
    rw [hold n hlt] at this
    exact mem_chain.mpr ⟨hlt, this⟩
  have hrun : (s.tx q.txId).state = .running := by
    have := hinv.pc q.txId
    rw [hpc] at this
    exact this.2.1
  refine ⟨fun n hn v hv => ?_, fun n hn hc => ?_, fun n hn v hv => ?_,
    fun i j hlt hi hj hne hun hu w hw => ?_, fun i j hlt hi hj htx hui huj => ?_,
    fun t q' res' hp n hn => ?_⟩
  · rcases hcases n hn with hn | rfl
    · rw [hold n hn] at hv
      rw [hsnap n hn]
      exact h.snapshot_le n hn v hv
    · rw [hnew] at hv
      exact nomatch hrun.symm.trans hv
  · rcases hcases n hn with hn | rfl
    · rw [hold n hn] at hc ⊢
      rw [hundone n hn]
      exact h.version n hn hc
    · rw [hnew] at hc
      exact nomatch hc
  · have hn' := (hinv.cb n hn).1
    rw [hold n hn'] at hv
    rw [hundone n hn']
    exact h.cb n hn v hv
  · have hun' : unchecked (Function.update s.pc q.txId (.reloadTrans q res) (s'.row.node i).txId) ≠
      some i := hun
    rcases hcases i (mem_chain.mp hi).1 with hi' | rfl
    · have hj' := hlt.trans hi'
      rw [hold i hi'] at hne hun'
      rw [hold j hj'] at hne hw
      rw [hundone j hj'] at hu
      rw [hsnap i hi']
      refine h.above i j hlt (hmem i hi hi') (hmem j hj hj') hne (fun hunold => ?_) hu w hw
      by_cases htx : (s.row.node i).txId = q.txId
      · rw [htx, hpc] at hunold
        exact nomatch hunold
      · rw [update_of_ne htx] at hun'
        exact hun' hunold
    · -- the new node is not checked yet
      rw [hnew, update_self] at hun'
      exact absurd hres hun'
  · rcases hcases i (mem_chain.mp hi).1 with hi' | rfl
    · have hj' := hlt.trans hi'
      rw [hold i hi'] at htx ⊢
      rw [hold j hj'] at htx ⊢
      rw [hundone i hi'] at hui
      rw [hundone j hj'] at huj
      exact h.seq i j hlt (hmem i hi hi') (hmem j hj hj') htx hui huj
    · rw [hnew] at htx ⊢
      rw [hold j hlt] at htx ⊢
      rw [hundone j hlt] at huj
      exact h.seqNo_le hinv hstop hseq hrun (hmem j hj hlt) htx.symm huj
  · change Function.update s.pc q.txId (.reloadTrans q res) t = _ at hp
    by_cases ht : t = q.txId
    · rw [ht, update_self] at hp
      obtain ⟨⟩ := hp
      obtain rfl := some.inj (hres.symm.trans hn)
      exact update_self ..
    rw [update_of_ne ht] at hp
    have hheld := hinv.pc t
    rw [hp] at hheld
    obtain ⟨k, hk, -, -, -, hnode⟩ := hheld.2.1.head
    obtain rfl := (hnode n hn).1
    rw [hsnap n (mem_chain.mp (List.mem_of_mem_head? hk)).1]
    exact h.pc t q' res' hp n hn

theorem Versions.runWrite (hinv : s.Inv) (hstep : s.runWrite t = some p) : p.1.Versions := by
  have hpc := hinv.pc t
  cases hp : s.pc t with
  | idle => simp [RowState.runWrite, hp] at hstep
  | loadTrans q | loadElr q =>
    rw [hp] at hpc
    obtain ⟨rfl, -⟩ := hpc
    simp only [runWrite, hp] at hstep
    split at hstep <;> cases hstep
    · exact h.return_ (by rw [hp]; rfl) (by simp)
    · exact h.setPc_checked (by rw [hp]; rfl) (by simp)
  | latch q =>
    rw [hp] at hpc
    obtain ⟨rfl, -⟩ := hpc
    have hun : unchecked (s.pc q.txId) = none := by rw [hp]; rfl
    obtain ⟨r, hr, hcl, ⟨e, rfl⟩ | ⟨res, hnode, rfl, hstop, hseq⟩ | ⟨res, hnode, rfl, -⟩⟩ :=
      latch_cases hinv hp hstep
    · exact (h.cleaned hinv hcl).return_ hun (by simp)
    · exact (h.cleaned hinv hcl).insert hr hp hstop hseq hnode
    refine (h.cleaned hinv hcl).setPc_checked hun fun q' res' heq n hn => ?_
    obtain ⟨⟩ := heq
    cases hnode.symm.trans hn
  | reloadTrans q res =>
    rw [hp] at hpc
    obtain ⟨rfl, -, hset⟩ := hpc
    simp only [runWrite, hp] at hstep
    split at hstep <;> cases hstep
    · exact h.fail (.inr (by rw [hp]; rfl))
    rename_i hle
    refine h.setPc (fun i _ hi _ j hj hne hundone w hw => ?_) (by simp)
    rw [hp] at hi
    rw [h.pc _ q res hp i hi]
    rcases hset j (mem_chain.mp hj).1 hne with (hab | hu | hab) | ⟨w', hw', hwle⟩
    · exact absurd (hinv.removed j hab).2 (not_aborted_of_mem hj)
    · cases hu.symm.trans hundone
    · cases hab.symm.trans hw
    obtain ⟨⟩ := hw'.symm.trans hw
    exact hwle.trans (not_lt.mp hle)
  | reloadElr q res =>
    rw [hp] at hpc
    obtain ⟨rfl, hheld, -⟩ := hpc
    have hun : unchecked (s.pc q.txId) = none := by rw [hp]; rfl
    simp only [runWrite, hp] at hstep
    split at hstep
    · cases hstep
      exact h.fail (.inl hun)
    split at hstep <;> cases hstep
    · exact h.fail (.inl hun)
    obtain ⟨k, -, htx, -, -, hnode⟩ := hheld.head
    exact h.return_ hun fun n hn => by rw [(hnode n hn).1, htx]; exact hheld.running
  | undo q res e =>
    rw [hp] at hpc
    obtain ⟨rfl, hheld, hsome⟩ := hpc
    obtain ⟨n, hn⟩ := isSome_iff_exists.mp hsome
    simp only [runWrite, hp, hn] at hstep
    cases hstep
    rw [hn] at hheld
    obtain ⟨d, -⟩ := DecidesNode.mvccUndo hinv hheld (by rw [hp]; exact hn)
    refine h.decide hinv d fun hc => ?_
    simp [(of_undecided d.undecided).1] at hc

theorem Versions.setTx (hinv : s.Inv) {d : TxData}
    (hrun : (s.tx t).state = .running) (hidle : s.Idle t = true)
    (hundo : ∀ seqNo, (s.tx t).isContain seqNo = true → d.isContain seqNo = true)
    (hcommit : ∀ v, d.state = .commit v → d.undo = (s.tx t).undo ∧ s.CommitAbove (.commitTx t v)) :
    (s.setTx t d).Versions := by
  have hsame : ∀ t' ≠ t, (s.setTx t d).tx t' = s.tx t' := fun t' ht => update_of_ne ht _ _
  have hself : (s.setTx t d).tx t = d := update_self ..
  have hundone : ∀ n, (s.row.node n).txId ≠ t → (s.setTx t d).undone n = s.undone n := by
    intro n hn
    change ((s.setTx t d).tx (s.row.node n).txId).isContain _ = _
    rw [hsame _ hn]
    rfl
  refine h.of_decides hinv (decides_setTx hrun hidle hundo) rfl (fun n hn v hv => ?_)
    (fun n hn hc => ?_) fun n hn v hv => ?_
  · change ((s.setTx t d).tx (s.row.node n).txId).state = _ at hv
    by_cases ht : (s.row.node n).txId = t
    · rw [ht, hself] at hv
      exact (hcommit v hv).2.2 n hn ht
    · rw [hsame _ ht] at hv
      exact h.snapshot_le n hn v hv
  · obtain ⟨hstate, hu⟩ := h.version n hn hc
    have ht : (s.row.node n).txId ≠ t := fun heq => by
      rw [heq, hrun] at hstate
      exact nomatch hstate
    change ((s.setTx t d).tx (s.row.node n).txId).state = _ ∧ _
    rw [hsame _ ht, hundone n ht]
    exact ⟨hstate, hu⟩
  change ((s.setTx t d).tx (s.row.node n).txId).state = _ at hv
  by_cases ht : (s.row.node n).txId = t
  · rw [ht, hself] at hv
    obtain ⟨hd, hback, -⟩ := hcommit v hv
    have hu := hback n (hinv.cb n hn).1 hn ht
    change ((s.setTx t d).tx (s.row.node n).txId).isContain _ = false
    unfold undone at hu
    rw [ht] at hu ⊢
    rw [hself]
    unfold TxData.isContain at hu ⊢
    rw [hd]
    exact hu
  · rw [hsame _ ht] at hv
    rw [hundone n ht]
    exact h.cb n hn v hv

theorem Versions.step (hinv : s.Inv) {a} (hok : s.CommitAbove a)
    (hstep : s.step a = some p) : p.1.Versions := by
  have hcb : ∀ {n : ℕ}, ∀ m ≠ n, Function.update s.cb n false m = s.cb m :=
    fun m hm => update_of_ne hm _ _
  have habort : ∀ {n : ℕ}, s.cb n = true → { s.row.node n with aborted := true }.committed = true →
      s.undone n = false := by
    intro n hcbn hc
    simp [(of_undecided (hinv.cb n hcbn).2.1).1] at hc
  cases a with
  | write q =>
    obtain ⟨⟨-, hidle, -⟩, ⟨⟩⟩ := ite_none_right_eq_some.mp hstep
    exact h.setPc_checked (by rw [pc_of_idle hidle]; rfl) (by simp)
  | run t => exact h.runWrite hinv hstep
  | commitTx t v =>
    obtain ⟨⟨hrun, hidle⟩, ⟨⟩⟩ := ite_none_right_eq_some.mp hstep
    refine h.setTx hinv hrun hidle (fun _ => id) fun w hw => ?_
    obtain ⟨⟩ := hw
    exact ⟨rfl, hok⟩
  | abortTx t =>
    obtain ⟨⟨hrun, hidle⟩, ⟨⟩⟩ := ite_none_right_eq_some.mp hstep
    exact h.setTx hinv hrun hidle (fun _ => id) (by simp)
  | undo t u =>
    obtain ⟨⟨hrun, hidle⟩, ⟨⟩⟩ := ite_none_right_eq_some.mp hstep
    refine h.setTx hinv hrun hidle (fun seqNo hc => ?_) fun w hw => by cases hrun.symm.trans hw
    simp only [TxData.isContain, List.any_cons, Bool.or_eq_true] at hc ⊢
    exact .inr hc
  | transCommit n =>
    simp only [RowState.step] at hstep
    split at hstep
    · rename_i v hv
      obtain ⟨⟨hn, hcbn⟩, ⟨⟩⟩ := ite_none_right_eq_some.mp hstep
      exact h.decide hinv (.commitNode hinv hn (hinv.cb n hcbn).2.1 hv hcb (update_self ..))
        fun _ => h.cb n hcbn v hv
    · cases hstep
  | transAbort n =>
    obtain ⟨⟨hn, hcbn, hstate⟩, ⟨⟩⟩ := ite_none_right_eq_some.mp hstep
    have hund := (hinv.cb n hcbn).2.1
    rw [if_pos hund]
    exact h.decide hinv (.abortNode hinv hn hund (.inr (.inl (by simp [hstate]))) hcb
      (update_self ..) (fun _ _ => rfl) (.inr (.inr hstate))) (habort hcbn)
  | rollbackCallback n =>
    obtain ⟨⟨hn, hcbn, -, hidle⟩, ⟨⟩⟩ := ite_none_right_eq_some.mp hstep
    exact h.decide hinv (.abortNode hinv hn (hinv.cb n hcbn).2.1 (.inl (pc_of_idle hidle)) hcb
      (update_self ..) (fun m hm => update_of_ne hm _ _) (.inl (update_self ..))) (habort hcbn)
  | removeCallback n =>
    obtain ⟨⟨-, hcbn⟩, ⟨⟩⟩ := ite_none_right_eq_some.mp hstep
    change (s.delayed n).Versions
    refine h.of_decides_nodes hinv (decides_delayed hcbn) rfl rfl fun m hm hc => ?_
    rw [delayed_field committed (fun _ => rfl) m] at hc
    rw [delayed_field transVersion (fun _ => rfl) m]
    exact h.version m hm hc
  | cleanout n =>
    obtain ⟨hn, ⟨⟩⟩ := ite_none_right_eq_some.mp hstep
    exact h.cleanout hinv hn

end

theorem versions_of_reachable (h : (mvccRow CommitAbove).Reachable s) : s.Versions := by
  refine Machine.Reachable.of_keeps_with (J := Inv) (fun _ => inv_of_reachable) ?_ ?_ h
  · intro s hs
    have hchain : s.chain = [] := by simp [chain, ObMvccRow.chain, hs.nodeCnt]
    refine ⟨fun n hn => ?_, fun n hn => ?_, fun n hn => ?_, fun i j _ hi => ?_,
      fun i j _ hi => ?_, fun t q res hpc => ?_⟩
    · exact absurd hn (by simp [hs.nodeCnt])
    · exact absurd hn (by simp [hs.nodeCnt])
    · exact absurd hn (by simp [hs.cb])
    · exact absurd hi (by simp [hchain])
    · exact absurd hi (by simp [hchain])
    · cases (hs.idle t).symm.trans hpc
  · rintro s s' hinv hs ⟨a, ret, hok, hstep⟩
    exact hs.step hinv hok hstep

/-! ## What a snapshot sees -/

theorem Versions.commit_le (h : s.Versions) (hinv : s.Inv) {i j v w} (hlt : j < i)
    (hi : i ∈ s.chain) (hj : j ∈ s.chain) (hundone : s.undone j = false)
    (hv : (s.tx (s.row.node i).txId).state = .commit v)
    (hw : (s.tx (s.row.node j).txId).state = .commit w) : w ≤ v := by
  by_cases htx : (s.row.node i).txId = (s.row.node j).txId
  · rw [htx, hw] at hv
    obtain ⟨⟩ := hv
    exact le_rfl
  refine (h.above i j hlt hi hj htx (fun hun => ?_) hundone w hw).trans
    (h.snapshot_le i (mem_chain.mp hi).1 v hv)
  -- a transaction that has ended has no call in progress
  have hpc := hinv.pc (s.row.node i).txId
  cases hp : s.pc (s.row.node i).txId with
  | reloadTrans q res | undo q res e =>
    rw [hp] at hpc
    exact nomatch hpc.2.1.running.symm.trans hv
  | _ =>
    rw [hp] at hun
    exact nomatch hun

end RowState

end OceanBase.Memtable
