import OceanBase.Deadlock.LclNode
import OceanBase.Lib.SimplePath

/-!
# The deadlock detector kills only on a cycle

Whatever made a node believe that it lies on a cycle, its detect callback runs only when a
collect-info message comes back to it. Such a message carries the reports of the nodes of a simple
path of the graph, in waiting order: each node that forwards it is waited for by the last node of
the path, and drops it if it is already on the path. If the first node gets it back, the path closes
to a simple cycle. The reports carry the priorities of the nodes, so the node that runs its callback
has the lowest one of the cycle.

A message with `k` of `n` nodes is forwarded only if `k < n`, to as many resources as a block list
has. So a detection causes a bounded number of messages, for each copy that the network adds.

Block lists only shrink, when a callback activates its node. Cycles are cycles of the initial graph.

## Main results

* `detect_callback_on_cycle`
-/

namespace OceanBase.Deadlock

open List State Function ObLCLNode Nat

/-! ## The lowest priority -/

theorem ObDetectorPriority.lt_of_not_lt {a b : ObDetectorPriority} (h : a.lt b = false)
    (hne : a ≠ b) : b.lt a = true := by
  obtain ⟨ra, va⟩ := a
  obtain ⟨rb, vb⟩ := b
  have hv : ra = rb → va ≠ vb := by
    rintro rfl rfl
    exact hne rfl
  have hlt : ¬ va < vb → va ≠ vb → vb < va := by
    intro hnlt hv
    rw [UInt64.lt_iff_toNat_lt] at hnlt ⊢
    have := mt UInt64.toNat_inj.mp hv
    omega
  cases ra <;> cases rb <;> simp_all [ObDetectorPriority.lt, PriorityRange.toInt]

/-- Once past the first entry, the loop ends with index zero only if it had it and met nothing
lower. -/
theorem lowestPriorityLoop_eq_zero {ps} : ∀ {i p idx}, 0 < i → lowestPriorityLoop ps i p idx = 0 →
      idx = 0 ∧ ∀ q ∈ ps, q.lt p = false := by
  induction ps with
  | nil =>
    intro i p idx _ h
    exact ⟨h, by simp⟩
  | cons q ps ih =>
  intro i p idx hi h
  rw [lowestPriorityLoop] at h
  by_cases hq : q.lt p = true
  · rw [if_pos hq] at h
    have hzero := (ih (succ_pos i) h).1
    omega
  · rw [if_neg hq] at h
    obtain ⟨hidx, hps⟩ := ih (succ_pos i) h
    exact ⟨hidx, by simpa using ⟨Bool.eq_false_iff.mpr hq, hps⟩⟩

theorem not_lt_of_ifSelfHasLowestPriority {info infos}
    (h : ifSelfHasLowestPriority (info :: infos) = true) :
    ∀ i ∈ infos, i.priority.lt info.priority = false := by
  rw [ifSelfHasLowestPriority, decide_eq_true_iff, map_cons, lowestPriorityLoop] at h
  split at h
  · intro i hi
    exact (lowestPriorityLoop_eq_zero (succ_pos 0) h).2 _ (mem_map_of_mem hi)
  · have hneg := (lowestPriorityLoop_eq_zero (succ_pos 0) h).1
    omega

/-! ## What a message carries -/

section Reports

variable {V : Type} (g : WaitGraph V)

def nodeReport (eventId : ℕ) (role : Role) (v : V) : ObDetectorInnerReportInfo where
  userKey := g.selfKey v
  addr := g.addr v
  detectorId := g.resourceId v
  eventId := eventId
  role := role
  priority := g.priority v

/-- The collected info of a message that has passed the nodes: the first is the victim, the others
are witnesses of its event. -/
def reports : List V → List ObDetectorInnerReportInfo
  | [] => []
  | v :: vs => nodeReport g (g.eventId v) .victim v :: vs.map (nodeReport g (g.eventId v) .witness)

theorem reports_concat (path : List V) (v : V) :
    reports g (path ++ [v]) = reports g path ++ [reportInfo g v (reports g path)] := by
  cases path <;> simp [reports, reportInfo, generateEventId, nodeReport]

@[simp] theorem length_reports (path : List V) : (reports g path).length = path.length := by
  cases path <;> simp [reports]

@[simp] theorem isSelf_nodeReport (e : ℕ) (r : Role) (u v : V) :
    g.isSelf u (nodeReport g e r v) = true ↔ v = u := by
  rw [WaitGraph.isSelf, decide_eq_true_iff]
  constructor
  · rintro ⟨haddr, hid⟩
    exact g.resourceId_inj v u haddr hid
  · rintro rfl
    exact ⟨rfl, rfl⟩

theorem checkDeadLoop_reports (v : V) (path : List V) :
    checkDeadLoop g v (reports g path) = true ↔ v ∈ path := by
  cases path with
  | nil => simp [checkDeadLoop, reports]
  | cons u us => simp [checkDeadLoop, reports, @eq_comm _ v u]

theorem isCompletelyCollected_reports (v : V) (path : List V) :
    isCompletelyCollected g v (reports g path) = true ↔ path.head? = some v := by
  cases path with
  | nil | cons u us => simp [isCompletelyCollected, reports]

/-- The reports are those of a cycle on which the node is the one of lowest priority. -/
structure IsReportOf (v : V) (info : List ObDetectorInnerReportInfo) (cycle : List V) : Prop where
  isCycle : IsSimpleCycle g.Waits cycle
  head : cycle.head? = some v
  lowest : ∀ u ∈ cycle, u ≠ v → (g.priority v).lt (g.priority u) = true
  info : info = reports g cycle

/-- The message has come along the path. -/
structure Carried (m : CollectInfoMessage) (path : List V) : Prop where
  isPath : IsSimplePath g.Waits path
  info : m.collectedInfo = reports g path
  dest : ∀ u ∈ path.getLast?, m.dest ∈ g.blockList u

variable {g}

theorem IsReportOf.of_path (hdist : ∀ u v, g.priority u = g.priority v → u = v) {v : V} {path}
    (hpath : IsSimplePath g.Waits path) (hlast : ∀ u ∈ path.getLast?, g.Waits u v)
    (hhead : path.head? = some v) (hlow : ifSelfHasLowestPriority (reports g path) = true) :
    IsReportOf g v (reports g path) path := by
  obtain ⟨vs, rfl⟩ := List.head?_eq_some_iff.mp hhead
  refine ⟨hpath.close hlast, hhead, ?_, rfl⟩
  intro u hu hne
  have hmem : u ∈ vs := (mem_cons.mp hu).resolve_left hne
  have hle := not_lt_of_ifSelfHasLowestPriority hlow _ (mem_map_of_mem hmem)
  exact ObDetectorPriority.lt_of_not_lt hle fun heq => hne (hdist u v heq)

end Reports

/-! ## The invariant -/

section Invariant

variable {V : Type} [Fintype V] {g : WaitGraph V} {d : ℕ} {s : State V}

/-- The messages that a message with `k` nodes may still cause, counted for its detection. -/
def due (V : Type) [Fintype V] (d detection k : ℕ) (i : ℕ) : ℕ :=
  if i = detection then floodBound (Fintype.card V) d k else 0

/-- The messages that those in flight may still cause. -/
def State.load (s : State V) (d i : ℕ) : ℕ :=
  (s.collectMessages.map fun m => due V d m.detection m.collectedInfo.length i).sum

/-- Every message has come along a simple path, every callback was deserved, and no detection has
caused more messages than it may. The last clause leaves room for a message that a node holds in its
hands. -/
structure Inv (g : WaitGraph V) (d : ℕ) (room : ℕ → ℕ) (s : State V) : Prop where
  lists : ∀ v, (s.node v).blockList.Sublist (g.blockList v)
  carried : ∀ m ∈ s.collectMessages, ∃ path, Carried g m path
  callbacks : ∀ c ∈ s.callbacks, ∃ cycle, IsReportOf g c.1 c.2 cycle
  begun : ∀ m ∈ s.collectMessages, m.detection < s.detections
  fresh : ∀ i, s.detections ≤ i → s.posted i = 0
  budget : ∀ i, s.posted i + s.load d i + room i ≤ (1 + s.repeated i) * (d + 1) ^ Fintype.card V

theorem Inv.mono {room room' : ℕ → ℕ} (hI : Inv g d room s) (h : ∀ i, room' i ≤ room i) :
    Inv g d room' s := by
  refine { hI with budget := ?_ }
  intro i
  have := hI.budget i
  have := h i
  omega

variable {room : ℕ → ℕ}

theorem Inv.drop (hI : Inv g d room s) : Inv g d 0 s :=
  hI.mono fun i => zero_le (room i)

theorem Inv.start (g : WaitGraph V) (d : ℕ) : Inv g d 0 (State.start g) := by
  refine ⟨fun v => List.Sublist.refl _, by simp [State.start], by simp [State.start],
    by simp [State.start], fun i _ => rfl, ?_⟩
  intro i
  simp [State.start, State.load]

theorem Inv.take (hI : Inv g d 0 s) {m} (hm : m ∈ s.collectMessages) :
    Inv g d (due V d m.detection m.collectedInfo.length)
      { s with collectMessages := s.collectMessages.erase m } := by
  refine ⟨hI.lists, ?_, hI.callbacks, ?_, hI.fresh, ?_⟩
  · intro m' hm'
    exact hI.carried m' (mem_of_mem_erase hm')
  · intro m' hm'
    exact hI.begun m' (mem_of_mem_erase hm')
  intro i
  have hload : s.load d i = due V d m.detection m.collectedInfo.length i
      + load { s with collectMessages := s.collectMessages.erase m } d i :=
    ((perm_cons_erase hm).map fun m : CollectInfoMessage =>
      due V d m.detection m.collectedInfo.length i).sum_nat
  have := hI.budget i
  simp only [Pi.zero_apply] at this
  simp only
  omega

theorem Inv.detect (hI : Inv g d 0 s) :
    Inv g d (due V d s.detections 0) { s with detections := s.detections + 1 } := by
  refine ⟨hI.lists, hI.carried, hI.callbacks, ?_, ?_, ?_⟩
  · intro m hm
    exact (hI.begun m hm).trans (lt_succ_self _)
  · intro i hi
    exact hI.fresh i (le_of_succ_le hi)
  intro i
  have hbudget := hI.budget i
  by_cases hi : i = s.detections
  · -- nothing of this detection has been posted yet, and nothing of it is in flight
    have hload : s.load d i = 0 := by
      apply sum_eq_zero
      intro x hx
      obtain ⟨m, hm, rfl⟩ := mem_map.mp hx
      have hne : i ≠ m.detection := ne_of_gt (hi ▸ hI.begun m hm)
      simp [due, hne]
    have hposted := hI.fresh i (le_of_eq hi.symm)
    have hroom := floodBound_lt (Fintype.card V) d 0
    have hone : (d + 1) ^ Fintype.card V ≤ (1 + s.repeated i) * (d + 1) ^ Fintype.card V :=
      Nat.le_mul_of_pos_left _ (by omega)
    have hsame : load { s with detections := s.detections + 1 } d i = s.load d i := rfl
    simp only [due, if_pos hi, hsame, hload, hposted]
    omega
  · simp only [due, if_neg hi]
    exact hbudget

theorem Inv.budget_repeat (hI : Inv g d 0 s) (m : CollectInfoMessage) (i : ℕ) :
    s.posted i + load { s with collectMessages := s.collectMessages ++ [m] } d i + 0
      ≤ (1 + update s.repeated m.detection (s.repeated m.detection + 1) i)
        * (d + 1) ^ Fintype.card V := by
  have hbudget := hI.budget i
  have hload : load { s with collectMessages := s.collectMessages ++ [m] } d i
      = s.load d i + due V d m.detection m.collectedInfo.length i := by
    simp [load]
  rw [hload]
  by_cases hi : i = m.detection
  · subst hi
    have hroom := floodBound_lt (Fintype.card V) d m.collectedInfo.length
    rw [update_self, due, if_pos rfl, ← add_assoc 1, add_mul _ 1, one_mul]
    omega
  · rw [update_of_ne hi, due, if_neg hi]
    exact hbudget

theorem State.load_broadcast (s : State V) (v : V) (info : List ObDetectorInnerReportInfo)
    (detection posts i : ℕ) : (s.broadcast v info detection posts).load d i
      = s.load d i + ((s.node v).blockList.take posts).length * due V d detection
        info.length i := by
  simp only [load, broadcast, map_append, map_map, sum_append_nat]
  have hconst : ((fun m : CollectInfoMessage => due V d m.detection m.collectedInfo.length i) ∘
      fun r => ⟨r, info, detection⟩) = fun _ => due V d detection info.length i := rfl
  rw [hconst, map_const', sum_replicate_nat]

theorem Inv.broadcast (hd : ∀ v, (g.blockList v).length ≤ d) {v : V} {path : List V} {detection}
    (hI : Inv g d (due V d detection path.length) s) (hbegun : detection < s.detections)
    (hpath : IsSimplePath g.Waits (path ++ [v])) (posts : ℕ) :
    Inv g d 0 (s.broadcast v (reports g (path ++ [v])) detection posts) := by
  have hsub : ∀ r ∈ (s.node v).blockList.take posts, r ∈ g.blockList v := fun r hr =>
    (hI.lists v).subset (mem_of_mem_take hr)
  refine ⟨hI.lists, ?_, hI.callbacks, ?_, ?_, ?_⟩
  · intro m hm
    rcases mem_append.mp hm with hm | hm
    · exact hI.carried m hm
    obtain ⟨r, hr, rfl⟩ := mem_map.mp hm
    refine ⟨path ++ [v], hpath, rfl, ?_⟩
    intro u hu
    obtain rfl : v = u := by simpa using hu
    exact hsub r hr
  · intro m hm
    rcases mem_append.mp hm with hm | hm
    · exact hI.begun m hm
    obtain ⟨r, -, rfl⟩ := mem_map.mp hm
    exact hbegun
  · intro i hi
    have hne : i ≠ detection := ne_of_gt (lt_of_lt_of_le hbegun hi)
    simpa [State.broadcast, update_of_ne hne] using hI.fresh i hi
  intro i
  rw [State.load_broadcast]
  have hbudget := hI.budget i
  by_cases hi : i = detection
  · subst hi
    have hlen : ((s.node v).blockList.take posts).length ≤ d :=
      (length_take_le' posts _).trans ((hI.lists v).length_le.trans (hd v))
    have hlt : path.length < Fintype.card V := by
      have hle := hpath.length_le_card
      rw [length_append, length_singleton] at hle
      exact hle
    have hstep := floodBound_step (d := d) hlt
    have hcopies := mul_le_mul_right (1 + floodBound (Fintype.card V) d (path.length + 1)) hlen
    rw [mul_add, mul_one] at hcopies
    simp only [State.broadcast, due, update_self, length_map, length_append,
      length_singleton, length_reports, if_true, Pi.zero_apply] at hbudget ⊢
    omega
  · simp only [State.broadcast, due, update_of_ne hi, if_neg hi, mul_zero,
      add_zero, Pi.zero_apply] at hbudget ⊢
    exact hbudget

variable [DecidableEq V]

theorem Inv.withNode (hI : Inv g d room s) {v : V} {n : ObLCLNode}
    (hn : n.blockList.Sublist (s.node v).blockList) :
    Inv g d room { s with node := update s.node v n } := by
  refine { hI with lists := fun u => ?_ }
  by_cases hu : u = v
  · subst hu
    simpa using hn.trans (hI.lists u)
  · simpa [update_of_ne hu] using hI.lists u

/-! ## The collect phase -/

theorem activatePeer_sublist (n : ObLCLNode) (info : List ObDetectorInnerReportInfo) :
    (n.activatePeer info).blockList.Sublist n.blockList := by
  unfold activatePeer
  split
  · exact List.Sublist.refl _
  · exact erase_sublist
  · exact erase_sublist

theorem Inv.detectCallback (hI : Inv g d room s) {v : V}
    {info cycle} (hc : IsReportOf g v info cycle) (b : Bool) :
    Inv g d room (s.detectCallback g v info b) := by
  have hlist : ∀ p : Prop, [Decidable p] →
      (if p then (s.node v).activatePeer info else s.node v).blockList.Sublist
        (s.node v).blockList := by
    intro p _
    split
    · exact activatePeer_sublist _ _
    · exact List.Sublist.refl _
  refine { hI.withNode (hlist _) with callbacks := ?_ }
  intro c hmem
  rcases mem_append.mp hmem with hmem | hmem
  · exact hI.callbacks c hmem
  obtain rfl := mem_singleton.mp hmem
  exact ⟨cycle, hc⟩

/-- **The collect phase keeps the invariant.** A message that has come along a path to a node is
reported if the path closes to a cycle, dropped if the node is on the path already, and forwarded
otherwise. -/
theorem Inv.processCollectInfoMessage (hdist : ∀ u v, g.priority u = g.priority v → u = v)
    (hd : ∀ v, (g.blockList v).length ≤ d) {v : V} {path : List V} {detection}
    (hI : Inv g d (due V d detection path.length) s) (hbegun : detection < s.detections)
    (hpath : IsSimplePath g.Waits path) (hlast : ∀ u ∈ path.getLast?, g.Waits u v) (a : Answers) :
    Inv g d 0 (s.processCollectInfoMessage g v (reports g path) detection a) := by
  unfold State.processCollectInfoMessage
  split
  next hown =>
    have hhead := (isCompletelyCollected_reports g v path).mp hown
    split
    next hlow => exact hI.drop.detectCallback (.of_path hdist hpath hlast hhead hlow) a.detected
    next => exact hI.drop
  next =>
  split
  next => exact hI.drop
  next hloop =>
  have hv : v ∉ path := mt (checkDeadLoop_reports g v path).mpr hloop
  split
  next =>
    rw [← reports_concat]
    exact hI.broadcast hd hbegun (hpath.concat hlast hv) a.posts
  next => exact hI.drop

/-! ## The steps -/

@[simp] theorem updateLclPeriod_blockList (n : ObLCLNode) (l : ObLCLLabel) (t : ℕ) :
    (n.updateLclPeriod l t).blockList = n.blockList := by
  unfold updateLclPeriod
  split <;> rfl

@[simp] theorem processLcl_blockList (n : ObLCLNode) (l : ObLCLLabel) (m : ObLCLMessage) (t : ℕ) :
    (n.processLcl l m t).1.blockList = n.blockList := by
  simp only [processLcl, processMsgAsLclp, processMsgAsLcls]
  split_ifs <;> rfl

section

variable (hdist : ∀ u v, g.priority u = g.priority v → u = v) (hd : ∀ v, (g.blockList v).length ≤ d)
  (hI : Inv g d 0 s)
include hdist hd hI

theorem Inv.processLclMessage (v : V) (m : ObLCLMessage)
    (realTs currentTs : ℕ) (a : Answers) :
    Inv g d 0 (s.processLclMessage g v m realTs currentTs a) := by
  have hsub : (((s.node v).updateLclPeriod (g.privateLabel v) realTs).processLcl (g.privateLabel v)
      m currentTs).1.blockList.Sublist (s.node v).blockList := by simp
  have hnode := hI.withNode hsub
  unfold State.processLclMessage
  dsimp only
  split
  · have hroom : Inv g d (due V d s.detections ([] : List V).length) _ := hnode.detect
    exact hroom.processCollectInfoMessage hdist hd (lt_succ_self _)
      ⟨List.IsChain.nil, nodup_nil⟩ (by simp) a
  · exact hnode

theorem Inv.step {act s'} (hstep : s.step g act = some s') : Inv g d 0 s' := by
  cases act with
  | pushState v realTs =>
    obtain ⟨⟩ := hstep
    have hsub : ((s.node v).updateLclPeriod (g.privateLabel v) realTs).blockList.Sublist
        (s.node v).blockList := by simp
    obtain ⟨lists, carried, callbacks, begun, fresh, budget⟩ := hI.withNode hsub
    exact ⟨lists, carried, callbacks, begun, fresh, budget⟩
  | mergeLcl m m' =>
    obtain ⟨-, ⟨⟩⟩ := Option.ite_none_right_eq_some.mp hstep
    exact { hI with }
  | receiveLcl m v realTs currentTs a =>
    obtain ⟨-, ⟨⟩⟩ := Option.ite_none_right_eq_some.mp hstep
    exact hI.processLclMessage hdist hd v m realTs currentTs a
  | receiveCollect m v a =>
    obtain ⟨⟨hm, hdest⟩, ⟨⟩⟩ := Option.ite_none_right_eq_some.mp hstep
    obtain ⟨path, hpath, hinfo, hlast⟩ := hI.carried m hm
    have htake := hI.take hm
    rw [hinfo, length_reports] at htake
    rw [hinfo]
    refine htake.processCollectInfoMessage hdist hd (hI.begun m hm) hpath ?_ a
    intro u hu
    have hwait := hlast u hu
    rwa [hdest] at hwait
  | repeatCollect m =>
    obtain ⟨hm, ⟨⟩⟩ := Option.ite_none_right_eq_some.mp hstep
    have hmem : ∀ m' ∈ s.collectMessages ++ [m], m' ∈ s.collectMessages := by
      intro m' hm'
      rcases mem_append.mp hm' with hm' | hm'
      · exact hm'
      · exact mem_singleton.mp hm' ▸ hm
    refine ⟨hI.lists, fun m' hm' => hI.carried m' (hmem m' hm'), hI.callbacks,
      fun m' hm' => hI.begun m' (hmem m' hm'), hI.fresh, ?_⟩
    exact hI.budget_repeat m
  | loseCollect m =>
    obtain ⟨hm, ⟨⟩⟩ := Option.ite_none_right_eq_some.mp hstep
    exact (hI.take hm).drop

end

end Invariant

/-- **The detect callback runs only on a cycle.** In every reachable state, whatever was lost,
repeated or reordered:

* a node's callback has run only with the reports of a simple cycle of the graph in waiting order,
  starting with the node, whose other nodes have a higher priority;
* a collect-info message has passed a simple path, that is, no node twice;
* a detection has caused at most `(d + 1) ^ n` collect-info messages for itself and for each copy
  that the network made of one, with `n` nodes and block lists of at most `d` resources. -/
theorem detect_callback_on_cycle {V : Type} [DecidableEq V] [Fintype V] (g : WaitGraph V)
    (hdist : ∀ u v, g.priority u = g.priority v → u = v) {s : State V}
    (hs : (lclDetector g).Reachable s) :
    (∀ v info, (v, info) ∈ s.callbacks → ∃ cycle, IsSimpleCycle g.Waits cycle ∧
      cycle.head? = some v ∧ (∀ u ∈ cycle, u ≠ v → (g.priority v).lt (g.priority u) = true) ∧
      info = reports g cycle) ∧
    (∀ m ∈ s.collectMessages, ∃ path, IsSimplePath g.Waits path ∧ m.collectedInfo = reports g path)
    ∧ (∀ d, (∀ v, (g.blockList v).length ≤ d) → ∀ i,
      s.posted i ≤ (1 + s.repeated i) * (d + 1) ^ Fintype.card V) := by
  have hinv : ∀ d, (∀ v, (g.blockList v).length ≤ d) → Inv g d 0 s := by
    intro d hd
    refine hs.of_keeps ?_ ?_
    · rintro s rfl
      exact Inv.start g d
    · rintro s s' hI ⟨act, hstep⟩
      exact hI.step hdist hd hstep
  -- the first two parts do not depend on the bound of the block lists, and there is one
  obtain ⟨d, hd⟩ : ∃ d, ∀ v, (g.blockList v).length ≤ d :=
    ⟨Finset.univ.sup fun v => (g.blockList v).length, fun v =>
      Finset.le_sup (f := fun v => (g.blockList v).length) (Finset.mem_univ v)⟩
  have hI := hinv d hd
  refine ⟨?_, ?_, ?_⟩
  · intro v info hmem
    obtain ⟨cycle, hc⟩ := hI.callbacks (v, info) hmem
    exact ⟨cycle, hc.isCycle, hc.head, hc.lowest, hc.info⟩
  · intro m hm
    obtain ⟨path, hp⟩ := hI.carried m hm
    exact ⟨path, hp.isPath, hp.info⟩
  · intro d hd i
    have hbudget := (hinv d hd).budget i
    omega

def twoNodes : WaitGraph (Fin 2) where
  addr _ := 7
  selfKey v := v
  resourceId v := 100 + v
  priority v := ⟨.normal, if v = 0 then 1 else 2⟩
  eventId v := v
  autoActivateWhenDetected _ := true
  blockList v := [⟨7, 1 - v⟩]
  selfKey_inj := by decide
  resourceId_inj := by decide

/-- Both nodes push their state, the first one gets back its own label and detects, and its message
comes back to it. -/
def twoNodesRun : List (Act (Fin 2)) :=
  let a : Answers := ⟨true, true, 1⟩
  let label := twoNodes.privateLabel 0
  let t := 3 * phaseTime
  [.pushState 0 t, .receiveLcl ⟨⟨7, 1⟩, 0, label, t⟩ 1 t t a,
    .pushState 1 t, .receiveLcl ⟨⟨7, 0⟩, 0, label, t⟩ 0 t t a,
    .receiveCollect ⟨⟨7, 1⟩, reports twoNodes [0], 0⟩ 1 a,
    .receiveCollect ⟨⟨7, 0⟩, reports twoNodes [0, 1], 0⟩ 0 a]

theorem detect_callback_two_nodes : ∃ s, (start twoNodes).run twoNodes twoNodesRun = some s ∧
    s.callbacks = [(0, reports twoNodes [0, 1])] ∧ s.posted 0 = 2 ∧
    s.posted 0 ≤ (1 + s.repeated 0) * (1 + 1) ^ Fintype.card (Fin 2) := by
  obtain ⟨s, hrun⟩ : ∃ s, (start twoNodes).run twoNodes twoNodesRun = some s :=
    Option.isSome_iff_exists.mp (by decide)
  have hs := run_reachable twoNodes (.init rfl) hrun
  have hlast : ((start twoNodes).run twoNodes twoNodesRun).map (fun s => (s.callbacks, s.posted 0))
      = some ([(0, reports twoNodes [0, 1])], 2) := by decide
  rw [hrun, Option.map_some, Option.some_inj, Prod.mk.injEq] at hlast
  exact ⟨s, hrun, hlast.1, hlast.2,
    (detect_callback_on_cycle twoNodes (by decide) hs).2.2 1 (by decide) 0⟩

end OceanBase.Deadlock
