import OceanBase.Ids.Service

/-!
# Identifiers are unique

An identifier belongs to the replica whose log was the first to raise the limit above it. A replica
may hand out what is between its last identifier and its limit, and all of that belongs to it: its
own logs raise the limit over identifiers that no earlier log covers, and replay moves the last
identifier before it moves the limit. So replicas never hand out the same identifier, and on one
replica the last identifier only grows.

A call that has moved the last identifier reads the limit again. If a replay raises the limit in
between, the call finds identifiers below the limit that belong to another replica. The result is
therefore proved for runs in which a replay does not raise the limit over the range of such a call,
and in which the last identifier does not overflow; a run that does the former ends with a
collision.

## Main results

* `getNumber_unique`, `getNumber_collision`
-/

namespace OceanBase.Ids

open Option List IdCluster IdService Function

variable {ι κ : Type} {p p' : SharedLog ι} {r r' : ι} {x x' : IdService} {y : ℤ}

/-! ## Whom an identifier belongs to -/

namespace SharedLog

/-- The identifier belongs to the replica: its log was the first one with a limit above it. -/
def Owned (p : SharedLog ι) (r : ι) (y : ℤ) : Prop :=
  ∃ i e, i < p.committed ∧ p.entries[i]? = some e ∧ e.owner = r ∧ y < e.log.limitId ∧
    ∀ j < i, ∀ e', p.entries[j]? = some e' → e'.log.limitId ≤ y

theorem Owned.unique (h : p.Owned r y) (h' : p.Owned r' y) : r = r' := by
  obtain ⟨i, e, -, he, hown, hlt, hfirst⟩ := h
  obtain ⟨i', e', -, he', hown', hlt', hfirst'⟩ := h'
  rcases lt_trichotomy i i' with hi | rfl | hi
  · exact absurd (hfirst' i hi e he) (not_le.mpr hlt)
  · rw [← hown, ← hown', some.inj (he.symm.trans he')]
  · exact absurd (hfirst i' hi e' he') (not_le.mpr hlt')

theorem Owned.below (h : p.Owned r y) : ∃ e ∈ p.entries.take p.committed, y < e.log.limitId := by
  obtain ⟨i, e, hi, he, -, hlt, -⟩ := h
  refine ⟨e, mem_of_getElem? (i := i) ?_, hlt⟩
  rwa [getElem?_take_of_lt hi]

structure Grows (p p' : SharedLog ι) : Prop where
  committed_le : p.committed ≤ p'.committed
  entries : ∀ i < p.committed, p'.entries[i]? = p.entries[i]?
  term_le : p.term ≤ p'.term

theorem Grows.owned (hg : p.Grows p') (h : p.Owned r y) : p'.Owned r y := by
  obtain ⟨i, e, hi, he, hown, hlt, hfirst⟩ := h
  refine ⟨i, e, hi.trans_le hg.committed_le, (hg.entries i hi).trans he, hown, hlt, ?_⟩
  intro j hj e' he'
  exact hfirst j hj e' ((hg.entries j (hj.trans hi)).symm.trans he')

theorem Grows.cbCommitted (hg : p.Grows p') (h : p.CbCommitted x) : p'.CbCommitted x := by
  obtain ⟨cb, hcb, i, hidx, hi, e, he, hterm⟩ := h
  exact ⟨cb, hcb, i, hidx, hi.trans_le hg.committed_le, e, (hg.entries i hi).trans he, hterm⟩

structure Ok (p : SharedLog ι) : Prop where
  committed_le : p.committed ≤ p.entries.length
  entry : ∀ e ∈ p.entries, e.log.lastId = e.log.limitId ∧ e.log.limitId < 2 ^ 63

end SharedLog

/-! ## What a replica knows -/

/-- The log on the way: once it is committed, the logs before it are known or come from here. -/
structure CbOk (p : SharedLog ι) (r : ι) (limitedId : ℤ) (cb : PresistIdLogCb) : Prop where
  limited_lt : cb.limitedId < 2 ^ 63
  term_le : cb.term ≤ p.term
  index : ∀ i, cb.index = some i → (i < p.entries.length ∨ cb.term < p.term) ∧
    ∀ e, p.entries[i]? = some e → e.term = cb.term →
      e.owner = r ∧ e.log.limitId = cb.limitedId ∧
      ∀ j < i, ∀ e', p.entries[j]? = some e' → e'.log.limitId ≤ limitedId ∨ e'.owner = r

def LockOk (p : SharedLog ι) (x : IdService) : Prop :=
  match x.lock with
  | .free => True
  | .replayTmp i | .replayLast i => i < p.committed
  | .replayLimit i => i < p.committed ∧ ∀ e, p.entries[i]? = some e → e.log.limitId ≤ x.lastId
  | .callbackLast | .callbackTmp | .callbackLimit => p.CbCommitted x

/-- **What a replica knows**: everything between its last identifier and its limit belongs to it. -/
structure ServiceOk (p : SharedLog ι) (r : ι) (x : IdService) : Prop where
  last_pos : 0 < x.lastId
  last_lt : x.lastId < 2 ^ 63
  limited_pos : 0 < x.limitedId
  limited_lt : x.limitedId < 2 ^ 63
  tmp : x.tmpLastId = 0
  avail : ∀ y, x.lastId ≤ y → y < x.limitedId → p.Owned r y
  applied : ∀ i ∈ x.applied, i < p.committed ∧
    ∀ e, p.entries[i]? = some e → e.log.limitId ≤ x.limitedId
  cb : ∀ cb, x.logging = some cb → CbOk p r x.limitedId cb
  lock : LockOk p x
  leads : p.leader = some r → ∀ e ∈ p.entries, e.log.limitId ≤ x.limitedId ∨ e.owner = r

def PcOk (p : SharedLog ι) (r : ι) (x : IdService) : CallPc → Prop
  | .idle => True
  | .checkLeader a | .loadLast a | .remainLimit a | .remainLast a _ | .maxLimit a | .maxInc a
  | .maxLast a | .preAllocated a _ => a.Ok
  | .loadLimit a lastId => a.Ok ∧ 0 < lastId ∧ lastId ≤ x.lastId
  | .bcas a lastId allocatedRange =>
    a.Ok ∧ lastId < a.baseId ∧ 0 < allocatedRange ∧ a.baseId + allocatedRange ≤ x.limitedId
  | .faa a allocatedRange => a.Ok ∧ 0 < allocatedRange
  -- the part of the range that is below the limit belongs to the replica
  | .reloadLimit a tmpId allocatedRange =>
    a.Ok ∧ 0 < allocatedRange ∧ 0 < tmpId ∧ tmpId + allocatedRange ≤ x.lastId ∧
      ∀ y, tmpId ≤ y → y < tmpId + allocatedRange → y < x.limitedId → p.Owned r y
  | .submit limitedId => limitedId < 2 ^ 63

/-- The call is about to read the limit, and its range. -/
def CallPc.Holds (pc : CallPc) (lo hi : ℤ) : Prop :=
  match pc with
  | .reloadLimit _ tmpId allocatedRange => lo = tmpId ∧ hi = tmpId + allocatedRange
  | _ => False

theorem ServiceOk.grows (h : ServiceOk p r x) (hg : p.Grows p')
    (hcb : ∀ cb, x.logging = some cb → CbOk p' r x.limitedId cb)
    (hleads : p'.leader = some r → ∀ e ∈ p'.entries, e.log.limitId ≤ x.limitedId ∨ e.owner = r) :
    ServiceOk p' r x := by
  refine { h with
    avail := fun y h₁ h₂ => hg.owned (h.avail y h₁ h₂), applied := ?_, cb := hcb, lock := ?_,
      leads := hleads }
  · intro i hi
    obtain ⟨hlt, hle⟩ := h.applied i hi
    refine ⟨hlt.trans_le hg.committed_le, fun e he => hle e ?_⟩
    rwa [← hg.entries i hlt]
  have hlock := h.lock
  unfold LockOk at hlock ⊢
  split at hlock
  · trivial
  · exact hlock.trans_le hg.committed_le
  · exact hlock.trans_le hg.committed_le
  · refine ⟨hlock.1.trans_le hg.committed_le, fun e he => hlock.2 e ?_⟩
    rwa [← hg.entries _ hlock.1]
  all_goals exact hg.cbCommitted hlock

theorem PcOk.grows {pc} (h : PcOk p r x pc) (hg : p.Grows p') : PcOk p' r x pc := by
  cases pc with
  | reloadLimit a tmpId allocatedRange =>
    obtain ⟨ha, hpos, hmin, hle, hown⟩ := h
    exact ⟨ha, hpos, hmin, hle, fun y h₁ h₂ h₃ => hg.owned (hown y h₁ h₂ h₃)⟩
  | _ => exact h

/-- The last identifier and the limit grow; over the range of a call the limit grows by identifiers
of the replica. -/
theorem PcOk.mono {pc} (h : PcOk p r x pc) (hlast : x.lastId ≤ x'.lastId)
    (hlimit : x.limitedId ≤ x'.limitedId)
    (hown : ∀ lo hi, pc.Holds lo hi → ∀ y, lo ≤ y → y < hi → x.limitedId ≤ y → y < x'.limitedId →
      p.Owned r y) : PcOk p r x' pc := by
  cases pc with
  | loadLimit a lastId => exact ⟨h.1, h.2.1, h.2.2.trans hlast⟩
  | bcas a lastId allocatedRange => exact ⟨h.1, h.2.1, h.2.2.1, h.2.2.2.trans hlimit⟩
  | reloadLimit a tmpId allocatedRange =>
    obtain ⟨ha, hpos, hmin, hle, hold⟩ := h
    refine ⟨ha, hpos, hmin, hle.trans hlast, fun y h₁ h₂ h₃ => ?_⟩
    rcases lt_or_ge y x.limitedId with hlt | hge
    · exact hold y h₁ h₂ hlt
    · exact hown tmpId _ ⟨rfl, rfl⟩ y h₁ h₂ hge h₃
  | _ => exact h

/-! ## The invariant -/

/-- A result belongs to its replica and is below its last identifier. -/
structure GrantOk (s : IdCluster ι κ) (g : Grant ι) : Prop where
  nonempty : g.startId < g.endId
  le_last : g.endId ≤ (s.service g.replica).lastId
  owned : ∀ y, g.startId ≤ y → y < g.endId → s.palf.Owned g.replica y

/-- Two ranges have nothing in common. -/
def Apart (lo hi lo' hi' : ℤ) : Prop := hi ≤ lo' ∨ hi' ≤ lo
  deriving Decidable

theorem Apart.symm {lo hi lo' hi'} (h : Apart lo hi lo' hi') : Apart lo' hi' lo hi := Or.symm h

/-- **The invariant**: replicas and calls are in order, and what is handed out is handed out
once. -/
structure IdCluster.Inv (s : IdCluster ι κ) : Prop where
  log : s.palf.Ok
  service : ∀ r, ServiceOk s.palf r (s.service r)
  calls : ∀ r c, PcOk s.palf r (s.service r) (s.calls r c)
  grant : ∀ g ∈ s.grants, GrantOk s g
  disjoint : s.grants.Pairwise fun g g' => Apart g.startId g.endId g'.startId g'.endId
  /-- the range of a call has nothing in common with the results of its replica and the other
  calls -/
  held : ∀ r c lo hi, (s.calls r c).Holds lo hi →
    (∀ g ∈ s.grants, g.replica = r → Apart g.startId g.endId lo hi) ∧
    ∀ c' lo' hi', c' ≠ c → (s.calls r c').Holds lo' hi' → Apart lo' hi' lo hi

namespace IdCluster

section

variable [DecidableEq ι] {s : IdCluster ι κ}

section

variable (h : s.Inv) (hx : ServiceOk s.palf r x) (hlast : (s.service r).lastId ≤ x.lastId)
include h hx hlast

theorem Inv.setService (hlimit : (s.service r).limitedId ≤ x.limitedId)
    (hown : ∀ c lo hi, (s.calls r c).Holds lo hi → ∀ y, lo ≤ y → y < hi →
      (s.service r).limitedId ≤ y → y < x.limitedId → s.palf.Owned r y) :
    (s.setService r x).Inv := by
  refine ⟨h.log, ?_, ?_, ?_, h.disjoint, h.held⟩
  · refine (forall_update_iff s.service fun r x => ServiceOk s.palf r x).mpr ⟨hx, ?_⟩
    exact fun r' _ => h.service r'
  · refine (forall_update_iff s.service
      fun r x => ∀ c, PcOk s.palf r x (s.calls r c)).mpr ⟨fun c => ?_, fun r' _ => h.calls r'⟩
    exact (h.calls r c).mono hlast hlimit (hown c)
  intro g hg
  obtain ⟨hne, hle, howned⟩ := h.grant g hg
  refine ⟨hne, ?_, howned⟩
  unfold IdCluster.setService
  by_cases hgr : g.replica = r
  · rw [hgr] at hle ⊢
    simpa using hle.trans hlast
  · simpa [update_of_ne hgr] using hle

theorem Inv.setService_of_eq (hlimit : x.limitedId = (s.service r).limitedId) :
    (s.setService r x).Inv := by
  apply h.setService hx hlast hlimit.ge
  intro c lo hi _ y _ _ hge hlt
  omega

end

end

variable [DecidableEq ι] [DecidableEq κ] {s : IdCluster ι κ} {c : κ} {pc : CallPc} {cfg : Config}

theorem calls_setCall (r' : ι) (c' : κ) :
    (s.setCall r c pc).calls r' c' = if r' = r ∧ c' = c then pc else s.calls r' c' := by
  unfold setCall
  by_cases hr : r' = r
  · subst hr
    by_cases hc : c' = c
    · simp [hc]
    · simp [hc]
  · simp [hr]

theorem Inv.setCall (h : s.Inv) (hpc : PcOk s.palf r (s.service r) pc)
    (hheld : ∀ lo hi, pc.Holds lo hi →
      (∀ g ∈ s.grants, g.replica = r → Apart g.startId g.endId lo hi) ∧
      ∀ c' lo' hi', c' ≠ c → (s.calls r c').Holds lo' hi' → Apart lo' hi' lo hi) :
    (s.setCall r c pc).Inv := by
  refine ⟨h.log, h.service, ?_, fun g hg => ⟨(h.grant g hg).1, (h.grant g hg).2, (h.grant g hg).3⟩,
    h.disjoint, ?_⟩
  · intro r' c'
    rw [calls_setCall]
    split
    case isTrue heq => rw [heq.1]; exact hpc
    case isFalse => exact h.calls r' c'
  intro r' c' lo hi hhold
  rw [calls_setCall] at hhold
  split at hhold
  case isTrue heq =>
    obtain ⟨rfl, rfl⟩ := heq
    refine ⟨(hheld lo hi hhold).1, fun c'' lo' hi' hne hhold' => ?_⟩
    rw [calls_setCall, if_neg (fun heq => hne heq.2)] at hhold'
    exact (hheld lo hi hhold).2 c'' lo' hi' hne hhold'
  case isFalse hne =>
  refine ⟨(h.held r' c' lo hi hhold).1, fun c'' lo' hi' hne' hhold' => ?_⟩
  rw [calls_setCall] at hhold'
  split at hhold'
  case isTrue heq =>
    obtain ⟨rfl, rfl⟩ := heq
    exact ((hheld lo' hi' hhold').2 c' lo hi (Ne.symm hne') hhold).symm
  case isFalse => exact (h.held r' c' lo hi hhold).2 c'' lo' hi' hne' hhold'

end IdCluster

/-! ## Allocation -/

theorem ServiceOk.raiseLast (h : ServiceOk p r x) {n} (hle : x.lastId ≤ n) (hlt : n < 2 ^ 63) :
    ServiceOk p r { x with lastId := n } := by
  refine { h with
    last_pos := h.last_pos.trans_le hle, last_lt := hlt,
      avail := fun y h₁ h₂ => h.avail y (hle.trans h₁) h₂, lock := ?_ }
  have hlock := h.lock
  unfold LockOk at hlock ⊢
  split at hlock
  case h_4 heq =>
    rw [heq]
    exact ⟨hlock.1, fun e he => (hlock.2 e he).trans hle⟩
  all_goals
    rename_i heq
    rw [heq]
    exact hlock

theorem ServiceOk.raiseLimit (h : ServiceOk p r x) {n i cb} (hlt : n < 2 ^ 63)
    (hi : i < p.committed) (hn : ∀ e, p.entries[i]? = some e → e.log.limitId ≤ n)
    (havail : ∀ y, x.lastId ≤ y → y < max x.limitedId n → p.Owned r y)
    (hcb : ∀ b, cb = some b → CbOk p r (max x.limitedId n) b) : ServiceOk p r { x with
      lock := .free, limitedId := max x.limitedId n, logging := cb,
        applied := i :: x.applied } := by
  have hle := le_max_left x.limitedId n
  refine ⟨h.last_pos, h.last_lt, h.limited_pos.trans_le hle, max_lt h.limited_lt hlt, h.tmp, havail,
    forall_mem_cons.mpr ⟨⟨hi, fun e he => (hn e he).trans (le_max_right _ _)⟩, fun j hj => ?_⟩, hcb,
    trivial, fun hlead e he => (h.leads hlead e he).imp_left fun h => h.trans hle⟩
  exact ⟨(h.applied j hj).1, fun e he => ((h.applied j hj).2 e he).trans hle⟩

namespace IdCluster

variable [DecidableEq ι] [DecidableEq κ] {s : IdCluster ι κ} {c : κ} {pc : CallPc} {cfg : Config}

/-- **A range is allocated**: it is above everything that was allocated before. -/
theorem Inv.allocate (h : s.Inv) {a : Args} {tmpId allocatedRange n} (ha : a.Ok)
    (hpos : 0 < allocatedRange) (htmp : (s.service r).lastId ≤ tmpId)
    (hn : tmpId + allocatedRange ≤ n) (hlt : n < 2 ^ 63) :
    ((s.setService r { s.service r with lastId := n }).setCall r c
      (.reloadLimit a tmpId allocatedRange)).Inv := by
  have hlast : (s.service r).lastId ≤ n := by omega
  refine (h.setService_of_eq ((h.service r).raiseLast hlast hlt) hlast rfl).setCall ?_ ?_
  · refine ⟨ha, hpos, (h.service r).last_pos.trans_le htmp, ?_, ?_⟩
    · simpa [IdCluster.setService] using hn
    intro y h₁ _ h₃
    apply (h.service r).avail y (htmp.trans h₁)
    simpa [IdCluster.setService] using h₃
  rintro lo hi ⟨rfl, rfl⟩
  refine ⟨fun g hg hgr => .inl ?_, fun c' lo' hi' _ hhold => .inl ?_⟩
  · have hle := (h.grant g hg).le_last
    rw [hgr] at hle
    exact hle.trans htmp
  have hpc := h.calls r c'
  change (s.calls r c').Holds lo' hi' at hhold
  unfold CallPc.Holds at hhold
  split at hhold
  · rename_i heq
    rw [heq] at hpc
    rw [hhold.2]
    exact hpc.2.2.2.1.trans htmp
  · exact hhold.elim

theorem Inv.goto (h : s.Inv) (hpc : PcOk s.palf r (s.service r) pc)
    (hno : ∀ lo hi, ¬ pc.Holds lo hi) : (s.setCall r c pc).Inv :=
  h.setCall hpc fun lo hi hhold => absurd hhold (hno lo hi)

theorem Inv.loadLimit (h : s.Inv) {a lastId}
    (hpc : PcOk s.palf r (s.service r) (.loadLimit a lastId)) :
    (s.setCall r c ((s.service r).loadLimit a lastId)).Inv := by
  obtain ⟨ha, hge, hle⟩ := hpc
  have hx := h.service r
  have h₁ := hx.limited_pos
  have h₂ := hx.limited_lt
  have h₃ := hx.last_lt
  obtain ⟨hr₁, hr₂, hb₁, hb₂⟩ := ha
  have hbase : i64 ((s.service r).limitedId - a.baseId) = (s.service r).limitedId - a.baseId :=
    i64_eq (by omega) (by omega)
  unfold IdService.loadLimit
  simp only [hbase]
  split
  · exact h.goto ⟨hr₁, hr₂, hb₁, hb₂⟩ fun _ _ => id
  split
  · refine h.goto ⟨⟨hr₁, hr₂, hb₁, hb₂⟩, by assumption, by omega, by omega⟩ fun _ _ => id
  · exact h.goto ⟨⟨hr₁, hr₂, hb₁, hb₂⟩, by omega⟩ fun _ _ => id

theorem Inv.reloadLimit (h : s.Inv) {a tmpId allocatedRange}
    (hcall : s.calls r c = .reloadLimit a tmpId allocatedRange) :
    (s.reloadLimit r c a tmpId allocatedRange).Inv := by
  have hpc := h.calls r c
  rw [hcall] at hpc
  obtain ⟨ha, hpos, hmin, hle, hown⟩ := hpc
  have hlt := (h.service r).last_lt
  have hhold : (s.calls r c).Holds tmpId (tmpId + allocatedRange) := by
    rw [hcall]
    exact ⟨rfl, rfl⟩
  obtain ⟨hgrants, hcalls⟩ := h.held r c _ _ hhold
  have hsum : i64 (tmpId + allocatedRange) = tmpId + allocatedRange := i64_eq (by omega) (by omega)
  unfold IdCluster.reloadLimit
  rw [hsum]
  split
  · exact h.goto ha fun _ _ => id
  case isFalse hlimit =>
  have h' : (s.setCall r c (.remainLimit a)).Inv := h.goto ha fun _ _ => id
  refine ⟨h'.log, h'.service, h'.calls, ?_, ?_, ?_⟩
  · refine forall_mem_cons.mpr ⟨⟨?_, ?_, ?_⟩, fun g hg => ?_⟩
    · exact lt_min (lt_add_of_pos_right _ hpos) (not_le.mp hlimit)
    · exact (min_le_left _ _).trans hle
    · intro y h₁ h₂
      exact hown y h₁ (h₂.trans_le (min_le_left _ _)) (h₂.trans_le (min_le_right _ _))
    · exact ⟨(h'.grant g hg).1, (h'.grant g hg).2, (h'.grant g hg).3⟩
  · -- results of other replicas belong to them, results of this one are apart from the range
    refine pairwise_cons.mpr ⟨fun g hg => ?_, h.disjoint⟩
    have hend := min_le_left (tmpId + allocatedRange) (s.service r).limitedId
    by_cases hgr : g.replica = r
    · rcases hgrants g hg hgr with hap | hap
      · exact .inr hap
      · exact .inl (hend.trans hap)
    obtain ⟨hne, -, howned⟩ := h.grant g hg
    by_contra hap
    unfold Apart at hap
    simp only [not_or, not_le] at hap
    have hmax : s.palf.Owned g.replica (max g.startId tmpId) :=
      howned _ (le_max_left _ _) (max_lt hne hap.2)
    have hmax' : s.palf.Owned r (max g.startId tmpId) := by
      have hlt' : max g.startId tmpId < min (tmpId + allocatedRange) (s.service r).limitedId :=
        max_lt hap.1 (lt_min (by omega) (not_le.mp hlimit))
      exact hown _ (le_max_right _ _) (hlt'.trans_le (min_le_left _ _))
        (hlt'.trans_le (min_le_right _ _))
    exact hgr (hmax.unique hmax')
  · intro r' c' lo hi hhold'
    obtain ⟨hg', hc'⟩ := h'.held r' c' lo hi hhold'
    refine ⟨forall_mem_cons.mpr ⟨fun hrr => ?_, hg'⟩, hc'⟩
    rw [calls_setCall] at hhold'
    split at hhold'
    · exact hhold'.elim
    case isFalse hne =>
    dsimp only at hrr ⊢
    subst hrr
    have hcc : c' ≠ c := fun hcc => hne ⟨rfl, hcc⟩
    have hend := min_le_left (tmpId + allocatedRange) (s.service r).limitedId
    rcases hcalls c' lo hi hcc hhold' with hap | hap
    · exact .inr hap
    · exact .inl (hend.trans hap)

end IdCluster

/-! ## Sections under the lock -/

theorem CbOk.mono {l l' cb} (h : CbOk p r l cb) (hl : l ≤ l') : CbOk p r l' cb := by
  refine ⟨h.limited_lt, h.term_le, fun i hi => ⟨(h.index i hi).1, fun e he hterm => ?_⟩⟩
  obtain ⟨hown, hlim, hbefore⟩ := (h.index i hi).2 e he hterm
  exact ⟨hown, hlim, fun j hj e' he' => (hbefore j hj e' he').imp_left fun hle => hle.trans hl⟩

theorem CbOk.owned {l cb} (h : CbOk p r l cb) {i e}
    (hidx : cb.index = some i) (hi : i < p.committed) (he : p.entries[i]? = some e)
    (hterm : e.term = cb.term) (hl : l ≤ y) (hy : y < cb.limitedId) : p.Owned r y := by
  obtain ⟨hown, hlim, hbefore⟩ := (h.index i hidx).2 e he hterm
  -- the first log above the identifier is this one or an earlier one of the replica
  have hex : ∃ j, j ≤ i ∧ ∃ e', p.entries[j]? = some e' ∧ y < e'.log.limitId :=
    ⟨i, le_rfl, e, he, hlim ▸ hy⟩
  classical
  obtain ⟨hji, e', he', hlt⟩ := Nat.find_spec hex
  refine ⟨Nat.find hex, e', hji.trans_lt hi, he', ?_, hlt, ?_⟩
  · rcases hji.lt_or_eq with hj | hj
    · exact (hbefore _ hj e' he').resolve_left fun hle => absurd (hle.trans hl) (not_le.mpr hlt)
    rw [hj] at he'
    rw [some.inj (he'.symm.trans he), hown]
  · intro j hj e'' he''
    by_contra hgt
    exact Nat.find_min hex hj ⟨hj.le.trans hji, e'', he'', not_le.mp hgt⟩

/-- Whether the next step is the one that raises the limit by a replay. -/
def Section.isReplayLimit : Section → Bool
  | .replayLimit _ => true
  | _ => false

/-- The range the call is about to take is below the limit. -/
def CallPc.Within (limitedId : ℤ) : CallPc → Prop
  | .reloadLimit _ tmpId allocatedRange => tmpId + allocatedRange ≤ limitedId
  | _ => True

instance (limitedId : ℤ) : DecidablePred (CallPc.Within limitedId) := fun pc => by
  unfold CallPc.Within
  split <;> infer_instance

/-- The fetch-and-add does not overflow. -/
def CallPc.NoOverflow (lastId : ℤ) : CallPc → Prop
  | .faa _ allocatedRange => lastId + allocatedRange < 2 ^ 63
  | _ => True

instance (lastId : ℤ) : DecidablePred (CallPc.NoOverflow lastId) := fun pc => by
  unfold CallPc.NoOverflow
  split <;> infer_instance

namespace IdCluster

theorem Inv.sectionLog_eq {s : IdCluster ι κ} (h : s.Inv) {i} (hi : i < s.palf.committed)
    (hlog : s.sectionLog r = (s.palf.entries[i]?.map LogEntry.log).getD ⟨0, 0⟩) :
    ∃ e, s.palf.entries[i]? = some e ∧ s.sectionLog r = e.log ∧ e.log.lastId = e.log.limitId ∧
      e.log.limitId < 2 ^ 63 := by
  have hlen := hi.trans_le h.log.committed_le
  refine ⟨s.palf.entries[i], getElem?_eq_getElem hlen, ?_, h.log.entry _ (getElem_mem hlen)⟩
  rw [hlog, getElem?_eq_getElem hlen]
  rfl

variable [DecidableEq ι] {s : IdCluster ι κ}

/-- **A section goes on.** A replay does not raise the limit over the range of a call. -/
theorem Inv.sectionStep (h : s.Inv) (hread : (s.service r).lock.isReplayLimit = true →
      ∀ c, (s.calls r c).Within (s.service r).limitedId) :
    (s.setService r ((s.service r).sectionStep (s.sectionLog r))).Inv := by
  have hx := h.service r
  have hlock := hx.lock
  have hlog : s.sectionLog r = s.sectionLog r := rfl
  conv at hlog => rhs; unfold sectionLog
  unfold LockOk at hlock
  unfold IdService.sectionStep
  cases hl : (s.service r).lock with
  | free => exact h.setService_of_eq hx le_rfl rfl
  | replayTmp i =>
    rw [hl] at hlock hlog
    obtain ⟨e, he, heq, hlast, -⟩ := h.sectionLog_eq hlock hlog
    refine h.setService_of_eq { hx with tmp := ?_, lock := hlock } le_rfl rfl
    rw [heq]
    exact if_neg fun hne => hne.1 hlast
  | replayLast i =>
    rw [hl] at hlock hlog
    obtain ⟨e, he, heq, -, hlt⟩ := h.sectionLog_eq hlock hlog
    have hraise := hx.raiseLast (le_max_left _ e.log.limitId) (max_lt hx.last_lt hlt)
    rw [heq]
    refine h.setService_of_eq { hraise with lock := ⟨hlock, ?_⟩ } (le_max_left _ _) rfl
    intro e' he'
    rw [some.inj (he'.symm.trans he)]
    exact le_max_right _ _
  | replayLimit i =>
    rw [hl] at hlock hlog hread
    obtain ⟨e, he, heq, -, hlt⟩ := h.sectionLog_eq hlock.1 hlog
    have hlast := hlock.2 e he
    rw [heq]
    refine h.setService (hx.raiseLimit hlt hlock.1 (fun e' he' => ?_) (fun y h₁ h₂ => ?_)
      fun cb hcb => (hx.cb cb hcb).mono (le_max_left _ _)) le_rfl (le_max_left _ _) ?_
    · rw [some.inj (he'.symm.trans he)]
    · refine hx.avail y h₁ ((lt_max_iff.mp h₂).resolve_right fun hlt' => ?_)
      exact absurd hlt' (not_lt.mpr (hlast.trans h₁))
    -- the ranges of the calls are below the old limit
    intro c lo hi hhold y _ hy hge _
    have hw := hread rfl c
    unfold CallPc.Holds at hhold
    split at hhold
    case h_1 hpc =>
      rw [hpc] at hw
      have hle : hi ≤ (s.service r).limitedId := hhold.2.trans_le hw
      exact absurd (hy.trans_le hle) (not_lt.mpr hge)
    case h_2 => exact hhold.elim
  | callbackLast =>
    rw [hl] at hlock
    rw [if_neg (not_not_intro hx.tmp)]
    exact h.setService_of_eq { hx with lock := hlock } le_rfl rfl
  | callbackTmp =>
    rw [hl] at hlock
    exact h.setService_of_eq { hx with tmp := rfl, lock := hlock } le_rfl rfl
  | callbackLimit =>
    rw [hl] at hlock
    obtain ⟨cb, hcb, i, hidx, hi, e, he, hterm⟩ := hlock
    rw [mem_def] at hcb hidx he
    have hok := hx.cb cb hcb
    have hown : ∀ y, (s.service r).limitedId ≤ y → y < max (s.service r).limitedId cb.limitedId →
        s.palf.Owned r y := fun y h₁ h₂ => hok.owned hidx hi he hterm h₁
      ((lt_max_iff.mp h₂).resolve_left (not_lt.mpr h₁))
    simp only [hcb, hidx]
    refine h.setService (hx.raiseLimit hok.limited_lt hi (fun e' he' => ?_) (fun y h₁ h₂ => ?_)
      nofun) le_rfl (le_max_left _ _) fun c lo hi _ y _ _ hge hlt => hown y hge hlt
    · rw [some.inj (he'.symm.trans he), ((hok.index i hidx).2 e he hterm).2.1]
    · rcases lt_or_ge y (s.service r).limitedId with hlt | hge
      · exact hx.avail y h₁ hlt
      · exact hown y hge h₂

end IdCluster

/-! ## The log -/

theorem ServiceOk.setLogging (h : ServiceOk p r x) {cb} (hfree : x.lock = .free)
    (hcb : ∀ b, cb = some b → CbOk p r x.limitedId b) : ServiceOk p r { x with logging := cb } := by
  refine { h with cb := hcb, lock := ?_ }
  unfold LockOk
  simp only [hfree]

theorem ServiceOk.setLock (h : ServiceOk p r x) {l} (hl : LockOk p { x with lock := l }) :
    ServiceOk p r { x with lock := l } :=
  { h with lock := hl }

theorem ServiceOk.setLeader (h : ServiceOk p r x) (b : Bool) :
    ServiceOk p r { x with isLeader := b } :=
  { h with }

namespace IdCluster

variable {s : IdCluster ι κ}

theorem Inv.setPalf (h : s.Inv) (hg : s.palf.Grows p') (hok : p'.Ok)
    (hcb : ∀ r cb, (s.service r).logging = some cb → CbOk p' r (s.service r).limitedId cb)
    (hleads : ∀ r, p'.leader = some r → ∀ e ∈ p'.entries,
      e.log.limitId ≤ (s.service r).limitedId ∨ e.owner = r) :
    { s with palf := p' }.Inv :=
  ⟨hok, fun r => (h.service r).grows hg (hcb r) (hleads r), fun r c => (h.calls r c).grows hg,
    fun g hmem => ⟨(h.grant g hmem).nonempty, (h.grant g hmem).le_last,
      fun y h₁ h₂ => hg.owned ((h.grant g hmem).owned y h₁ h₂)⟩, h.disjoint, h.held⟩

theorem Inv.commit (h : s.Inv) {n} (hle : s.palf.committed ≤ n) (hn : n ≤ s.palf.entries.length) :
    { s with palf := { s.palf with committed := n } }.Inv := by
  refine h.setPalf ⟨hle, fun _ _ => rfl, le_rfl⟩ ⟨hn, h.log.entry⟩ ?_ fun r => (h.service r).leads
  intro r cb hcb
  obtain ⟨h₁, h₂, h₃⟩ := (h.service r).cb cb hcb
  exact ⟨h₁, h₂, h₃⟩

variable [DecidableEq ι]

/-- **A new leader** starts a term with the committed logs, which it has all applied. -/
theorem Inv.becomeLeader (h : s.Inv)
    (happlied : ∀ i < s.palf.committed, i ∈ (s.service r).applied) :
    { s.setService r { s.service r with isLeader := true } with
      palf := { s.palf with
        entries := s.palf.entries.take s.palf.committed
        term := s.palf.term + 1
        leader := some r } }.Inv := by
  have htake : ∀ (i : ℕ) e, (s.palf.entries.take s.palf.committed)[i]? = some e →
      s.palf.entries[i]? = some e ∧ i < s.palf.committed := by
    intro i e he
    rw [getElem?_take] at he
    split at he
    · exact ⟨he, by assumption⟩
    · exact nomatch he
  have h' : { s with
      palf := { s.palf with
        entries := s.palf.entries.take s.palf.committed
        term := s.palf.term + 1
        leader := some r } }.Inv := by
    refine h.setPalf ⟨le_rfl, fun i hi => getElem?_take_of_lt hi, Nat.le_succ _⟩ ⟨?_, ?_⟩ ?_ ?_
    · simpa using h.log.committed_le
    · exact fun e he => h.log.entry e (mem_of_mem_take he)
    · intro r' cb hcb
      obtain ⟨hlt, hterm, hidx⟩ := (h.service r').cb cb hcb
      refine ⟨hlt, hterm.trans (Nat.le_succ _), fun i hi => ⟨.inr (Nat.lt_succ_of_le hterm), ?_⟩⟩
      intro e he heterm
      obtain ⟨hown, hlim, hbefore⟩ := (hidx i hi).2 e (htake i e he).1 heterm
      exact ⟨hown, hlim, fun j hj e' he' => hbefore j hj e' (htake j e' he').1⟩
    · rintro r' heq e he
      obtain rfl : r = r' := some.inj heq
      obtain ⟨i, hi⟩ := mem_iff_getElem?.mp he
      obtain ⟨he, hlt⟩ := htake i e hi
      exact .inl (((h.service r).applied i (happlied i hlt)).2 e he)
  exact h'.setService_of_eq ((h'.service r).setLeader true) le_rfl rfl

theorem Inv.append (h : s.Inv) {limitedId} (hneeds : (s.service r).NeedsLog limitedId)
    (hlt : limitedId < 2 ^ 63) : (s.append r limitedId).Inv := by
  obtain ⟨hfree, hno, -, hgt⟩ := hneeds
  unfold IdCluster.append
  split
  case isFalse =>
    refine h.setService_of_eq ((h.service r).setLogging hfree ?_) le_rfl rfl
    rintro cb ⟨⟩
    exact ⟨hlt, le_rfl, nofun⟩
  case isTrue hlead =>
  have hlast : ∀ (i : ℕ) e, (s.palf.entries ++ [(⟨r, s.palf.term, ⟨limitedId, limitedId⟩⟩ :
      LogEntry ι)])[i]? = some e → s.palf.entries[i]? = some e ∨
      i = s.palf.entries.length ∧ e = ⟨r, s.palf.term, ⟨limitedId, limitedId⟩⟩ := by
    intro i e he
    rcases lt_trichotomy i s.palf.entries.length with hi | rfl | hi
    · rw [getElem?_append_left hi] at he
      exact .inl he
    · simp only [getElem?_concat_length, some.injEq] at he
      exact .inr ⟨rfl, he.symm⟩
    · rw [getElem?_eq_none (by simp; omega)] at he
      exact nomatch he
  have h' : { s with
      palf := { s.palf with
        entries := s.palf.entries ++
          [(⟨r, s.palf.term, ⟨limitedId, limitedId⟩⟩ : LogEntry ι)] } }.Inv := by
    refine h.setPalf ⟨le_rfl, fun i hi => ?_, le_rfl⟩ ⟨?_, ?_⟩ ?_ ?_
    · exact getElem?_append_left (hi.trans_le h.log.committed_le)
    · simp only [length_append]
      exact h.log.committed_le.trans (Nat.le_add_right _ _)
    · intro e he
      rcases mem_append.mp he with he | he
      · exact h.log.entry e he
      rw [mem_singleton.mp he]
      exact ⟨rfl, hlt⟩
    · -- the place of another callback is taken by a log of a later term
      intro r' cb hcb
      obtain ⟨hclt, hterm, hidx⟩ := (h.service r').cb cb hcb
      refine ⟨hclt, hterm, fun i hi => ⟨(hidx i hi).1.imp_left fun hlen => ?_, ?_⟩⟩
      · simp only [length_append]
        omega
      intro e he heterm
      rcases hlast i e he with he | ⟨rfl, rfl⟩
      · obtain ⟨hown, hlim, hbefore⟩ := (hidx i hi).2 e he heterm
        refine ⟨hown, hlim, fun j hj e' he' => hbefore j hj e' ?_⟩
        have hlen := (List.getElem?_eq_some_iff.mp he).1
        rwa [List.getElem?_append_left (hj.trans hlen)] at he'
      · rcases (hidx _ hi).1 with hlen | hold
        · exact absurd hlen (lt_irrefl _)
        · exact absurd heterm hold.ne'
    · intro r' hlead' e he
      obtain rfl : r = r' := some.inj (hlead.symm.trans hlead')
      rcases mem_append.mp he with he | he
      · exact (h.service r).leads hlead e he
      rw [mem_singleton.mp he]
      exact .inr rfl
  refine h'.setService_of_eq ((h'.service r).setLogging hfree ?_) le_rfl rfl
  rintro cb ⟨⟩
  refine ⟨hlt, le_rfl, ?_⟩
  rintro i ⟨⟩
  refine ⟨.inl (by simp), fun e he _ => ?_⟩
  rcases hlast _ e he with he | ⟨-, rfl⟩
  · exact absurd (List.getElem?_eq_some_iff.mp he).1 (lt_irrefl _)
  refine ⟨rfl, rfl, fun j hj e' he' => ?_⟩
  rw [List.getElem?_append_left hj] at he'
  exact (h.service r).leads hlead e' (mem_of_getElem? he')

end IdCluster

/-! ## The calls -/

namespace IdCluster

theorem Inv.init : (init : IdCluster ι κ).Inv where
  log := ⟨le_rfl, nofun⟩
  service _ := ⟨Int.one_pos, (by decide : (1 : ℤ) < 2 ^ 63), Int.one_pos,
    (by decide : (1 : ℤ) < 2 ^ 63), rfl,
    fun y h₁ h₂ => absurd (h₁.trans_lt h₂) (lt_irrefl _), nofun, nofun, trivial, nofun⟩
  calls _ _ := trivial
  grant := nofun
  disjoint := .nil
  held _ _ _ _ hhold := hhold.elim

theorem setService_self [DecidableEq ι] {s : IdCluster ι κ} : s.setService r (s.service r) = s := by
  unfold setService
  rw [update_eq_self]

variable [DecidableEq ι] [DecidableEq κ] {s : IdCluster ι κ} {c : κ} {cfg : Config}

/-- **A call goes on**; its fetch-and-add does not overflow. -/
theorem Inv.call (h : s.Inv) (hov : (s.calls r c).NoOverflow (s.service r).lastId)
    (accepted : Bool) : (s.call cfg r c accepted).Inv := by
  have hpc := h.calls r c
  have hx := h.service r
  unfold IdCluster.call
  cases hcall : s.calls r c with
  | idle =>
    simp only [callStep, setService_self]
    exact h.goto trivial fun _ _ => id
  | checkLeader a | remainLast a limitedId =>
    rw [hcall] at hpc
    simp only [callStep, setService_self]
    split
    · exact h.goto hpc fun _ _ => id
    · exact h.goto trivial fun _ _ => id
  | loadLast a =>
    rw [hcall] at hpc
    simp only [callStep, setService_self]
    exact h.goto ⟨hpc, hx.last_pos, le_rfl⟩ fun _ _ => id
  | loadLimit a lastId =>
    rw [hcall] at hpc
    simp only [callStep, setService_self]
    exact h.loadLimit hpc
  | bcas a lastId allocatedRange =>
    rw [hcall] at hpc
    obtain ⟨ha, hlt, hpos, hle⟩ := hpc
    have hlim := hx.limited_lt
    have hsum : i64 (a.baseId + allocatedRange) = a.baseId + allocatedRange :=
      i64_eq (by have := ha.2.2.1; omega) (by omega)
    simp only [callStep, bcas, hsum]
    split
    case isTrue heq => exact h.allocate ha hpos (heq ▸ hlt.le) le_rfl (by omega)
    case isFalse =>
    rw [setService_self]
    exact h.goto ⟨ha, hpos⟩ fun _ _ => id
  | faa a allocatedRange =>
    rw [hcall] at hpc hov
    have hsum : i64 ((s.service r).lastId + allocatedRange) =
      (s.service r).lastId + allocatedRange :=
      i64_eq (by have := hx.last_pos; have := hpc.2; omega) hov
    simp only [callStep, faa, hsum]
    exact h.allocate hpc.1 hpc.2 le_rfl le_rfl hov
  | reloadLimit a tmpId allocatedRange => exact h.reloadLimit hcall
  | remainLimit a | maxLast a =>
    rw [hcall] at hpc
    simp only [callStep, setService_self]
    exact h.goto hpc fun _ _ => id
  | maxLimit a =>
    rw [hcall] at hpc
    simp only [callStep, setService_self]
    split_ifs
    all_goals exact h.goto hpc fun _ _ => id
  | maxInc a =>
    rw [hcall] at hpc
    simp only [callStep]
    have hraise := hx.raiseLast (le_max_left _ a.baseId) (max_lt hx.last_lt hpc.2.2.2)
    exact (h.setService_of_eq hraise (le_max_left _ _) rfl).goto hpc fun _ _ => id
  | preAllocated a maxPreAllocatedId =>
    simp only [callStep, setService_self]
    exact h.goto ((min_le_right _ _).trans_lt (i64_lt _)) fun _ _ => id
  | submit limitedId =>
    rw [hcall] at hpc
    simp only [submit]
    split
    case isTrue hok => exact (h.append hok.2.2 hpc).goto trivial fun _ _ => id
    case isFalse => exact h.goto trivial fun _ _ => id

/-- **The steps that do not raise a limit too early**: when a replay raises the limit, the calls of
this replica that have moved the last identifier and are about to read the limit have their range
below the old one. The fetch-and-add does not overflow. -/
def LimitRead (s : IdCluster ι κ) : Act ι κ → Prop
  | .inLock r => (s.service r).lock.isReplayLimit = true →
      ∀ c, (s.calls r c).Within (s.service r).limitedId
  | .call r c _ => (s.calls r c).NoOverflow (s.service r).lastId
  | _ => True

instance [Fintype κ] (s : IdCluster ι κ) : DecidablePred (LimitRead s)
  | .inLock _ => inferInstanceAs (Decidable (_ → _))
  | .call _ _ _ => inferInstanceAs (Decidable (CallPc.NoOverflow _ _))
  | .getNumber _ _ _ | .commit _ | .becomeLeader _ | .loseLeadership _ | .onSuccess _ | .onFailure _
  | .replay _ _ => .isTrue trivial

theorem Inv.step (h : s.Inv) {a s'} (hok : s.LimitRead a)
    (hstep : s.step cfg a = some s') : s'.Inv := by
  cases a with
  | getNumber r c a =>
    obtain ⟨⟨-, ha⟩, ⟨⟩⟩ := ite_none_right_eq_some.mp hstep
    exact h.goto ha fun _ _ => id
  | call r c accepted =>
    obtain rfl := some.inj hstep
    exact h.call hok accepted
  | commit n =>
    obtain ⟨⟨hle, hn⟩, ⟨⟩⟩ := ite_none_right_eq_some.mp hstep
    exact h.commit hle hn
  | becomeLeader r =>
    obtain ⟨happlied, ⟨⟩⟩ := ite_none_right_eq_some.mp hstep
    exact h.becomeLeader happlied
  | loseLeadership r =>
    obtain rfl := some.inj hstep
    exact h.setService_of_eq ((h.service r).setLeader false) le_rfl rfl
  | onSuccess r =>
    obtain ⟨⟨-, hcom⟩, ⟨⟩⟩ := ite_none_right_eq_some.mp hstep
    exact h.setService_of_eq ((h.service r).setLock (l := .callbackLast) hcom) le_rfl rfl
  | onFailure r =>
    obtain ⟨hfree, ⟨⟩⟩ := ite_none_right_eq_some.mp hstep
    exact h.setService_of_eq ((h.service r).setLogging hfree nofun) le_rfl rfl
  | replay r i =>
    obtain ⟨⟨-, -, hnext⟩, ⟨⟩⟩ := ite_none_right_eq_some.mp hstep
    exact h.setService_of_eq ((h.service r).setLock (l := .replayTmp i) hnext.1) le_rfl rfl
  | inLock r =>
    obtain rfl := some.inj hstep
    exact h.sectionStep hok

end IdCluster

/-! ## Uniqueness -/

/-- **The results are nonempty, pairwise disjoint and below a committed limit**, over all replicas
and calls, in every run in which no replay raises the limit over a range that is being taken. -/
theorem getNumber_unique [DecidableEq ι] [DecidableEq κ] {cfg : Config} {s : IdCluster ι κ}
    (h : (idCluster cfg LimitRead).Reachable s) : (∀ g ∈ s.grants, g.startId < g.endId ∧
      ∃ e ∈ s.palf.entries.take s.palf.committed, g.endId ≤ e.log.limitId) ∧
    s.grants.Pairwise fun g g' => Apart g.startId g.endId g'.startId g'.endId := by
  have hinv : s.Inv := by
    refine Machine.Reachable.of_keeps ?_ ?_ h
    · rintro s rfl
      exact .init
    · rintro s s' hs ⟨a, hok, hstep⟩
      exact hs.step hok hstep
  refine ⟨fun g hg => ?_, hinv.disjoint⟩
  obtain ⟨hne, -, hown⟩ := hinv.grant g hg
  obtain ⟨e, he, hlt⟩ := (hown (g.endId - 1) (by omega) (by omega)).below
  exact ⟨hne, e, he, by omega⟩

/-! ## Two replicas -/

def transIds : Config := ⟨.transIdService, 1000000⟩

def callSteps (n : ℕ) (r c : Bool) : List (Act Bool Bool) :=
  replicate n (.call r c true)

/-- A call that finds no identifiers and submits a log, which is committed as number `n`. -/
def raiseLimit (r : Bool) (range : ℤ) (n : ℕ) : List (Act Bool Bool) :=
  [.getNumber r false ⟨range, 0⟩] ++ callSteps 6 r false ++
    [.commit n, .onSuccess r, .inLock r, .inLock r]

def replayLog (r : Bool) (i : ℕ) : List (Act Bool Bool) :=
  [.replay r i, .inLock r, .inLock r, .inLock r]

/-- The leader hands out a range, and so does its successor. -/
def changeLeader : List (Act Bool Bool) :=
  [.becomeLeader false] ++ raiseLimit false 10 1 ++
    [.getNumber false true ⟨10, 5⟩] ++ callSteps 5 false true ++
    [.loseLeadership false] ++ replayLog true 0 ++ [.becomeLeader true] ++ raiseLimit true 10 2 ++
    replayLog false 1 ++ [.getNumber true true ⟨10, 0⟩] ++ callSteps 5 true true

theorem getNumber_unique_changeLeader :
    ∃ s, init.run transIds LimitRead changeLeader = some s ∧
      s.grants = [⟨true, 1000001, 1000011⟩, ⟨false, 5, 15⟩] ∧ (∀ g ∈ s.grants, g.startId < g.endId ∧
        ∃ e ∈ s.palf.entries.take s.palf.committed, g.endId ≤ e.log.limitId) := by
  have hrun : (init.run transIds LimitRead changeLeader).map grants =
      some [⟨true, 1000001, 1000011⟩, ⟨false, 5, 15⟩] := by decide +kernel
  obtain ⟨s, hs, hgrants⟩ := map_eq_some_iff.mp hrun
  exact ⟨s, hs, hgrants, (getNumber_unique (run_reachable (.init rfl) hs)).1⟩

/-- Two calls of the leader see the same identifiers. The second one takes a range above the limit,
and before it reads the limit again the leader has changed, the new leader has raised the limit, and
the old one has replayed that. -/
def lateReader : List (Act Bool Bool) :=
  [.becomeLeader false] ++ raiseLimit false 10 1 ++
    [.getNumber false false ⟨1000000, 0⟩, .getNumber false true ⟨1000000, 0⟩] ++
    callSteps 3 false false ++ callSteps 5 false true ++ callSteps 1 false false ++
    [.loseLeadership false] ++ replayLog true 0 ++ [.becomeLeader true] ++
    raiseLimit true 1000000 2 ++ [.getNumber true false ⟨1000000, 0⟩] ++ callSteps 5 true false ++
    replayLog false 1 ++ callSteps 1 false false

/-- **Two replicas hand out the same identifiers.** -/
theorem getNumber_collision :
    ∃ s : IdCluster Bool Bool, (idCluster transIds fun _ _ => True).Reachable s ∧
      ⟨false, 1000001, 2000001⟩ ∈ s.grants ∧ ⟨true, 1000001, 2000001⟩ ∈ s.grants := by
  have hrun : (init.run transIds (fun _ _ => True) lateReader).map grants =
      some [⟨false, 1000001, 2000001⟩, ⟨true, 1000001, 2000001⟩, ⟨false, 1, 1000001⟩] := by
    decide +kernel
  obtain ⟨s, hs, hgrants⟩ := map_eq_some_iff.mp hrun
  refine ⟨s, run_reachable (.init rfl) hs, ?_⟩
  simp [hgrants]

end OceanBase.Ids
