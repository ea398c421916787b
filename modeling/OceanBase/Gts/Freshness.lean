import OceanBase.Gts.LocalCache

/-!
# Freshness of the cached timestamp

A caller that gets a timestamp from `get_gts(stc, …)` gets one that is at least as large as every
timestamp handed out before it read `stc`, provided that the clock has moved on since the last time
taken for a request. The reason is the order of the accesses. A request whose time is not before
`stc` was sent after the caller read the clock, so the answer is large enough; `gts_` is stored
before `srr_` and loaded after it, so a caller that sees the time of a request also sees its
timestamp or a larger one.

With `stc` equal to the time of an earlier request the comparison `stc > srr` does not tell which
one was read first, and the caller may get an older timestamp.

## Main results

* `getGts_fresh`, `getGts_stale`
-/

namespace OceanBase.Gts

open Option List Subset

/-- The timestamp is at least as large as those handed out before the caller read the clock. -/
def Call.Covered (c : Call) (gts : ℕ) : Prop := ∀ x ∈ c.before, x ≤ gts

theorem Call.Covered.mono {c : Call} {g g'} (h : c.Covered g) (hle : g ≤ g') : c.Covered g' :=
  fun x hx => (h x hx).trans hle

/-- A message: its timestamp covers every caller that its request does not precede. -/
structure MsgOk (s : State) (m : Response) : Prop where
  srr : m.srr ∈ s.srrReads
  gts : m.gts ∈ s.produced
  fresh : ∀ c ∈ s.calls, c.stc ≤ m.srr → c.Covered m.gts

def PcOk (s : State) : Pc → Prop
  | .idle => True
  | .ready c => c ∈ s.calls
  | .loadSrr c => c ∈ s.calls ∧ 0 < c.stc
  | .loadGts c srr => c ∈ s.calls ∧ 0 < c.stc ∧ (c.stc ≤ srr → c.Covered s.cache.gts)
  | .loadReceive c srr gts => c ∈ s.calls ∧ (c.stc ≤ srr → c.Covered gts) ∧
      (gts = 0 ∨ ∃ x ∈ s.produced, gts ≤ x)
  | .loadLatest c | .askLeader c _ | .localTime c => c ∈ s.calls
  | .localNumber c curTs => c ∈ s.calls ∧ curTs ∈ s.srrReads
  | .updateReceive m _ k | .updateGts m k => MsgOk s m ∧ ∀ c ∈ k, c ∈ s.calls ∧ c.Covered m.gts
  | .updateSrr m k => MsgOk s m ∧ (∀ c ∈ k, c ∈ s.calls ∧ c.Covered m.gts) ∧ m.gts ≤ s.cache.gts
  | .queryTime k => ∀ c ∈ k, c ∈ s.calls
  | .queryLatest srr k | .querySend srr k => srr ∈ s.srrReads ∧ ∀ c ∈ k, c ∈ s.calls
  | .done c gts => c.Covered gts ∧ ∃ x ∈ s.produced, gts ≤ x

structure Inv (s : State) : Prop where
  before : ∀ c ∈ s.calls, ∀ x ∈ c.before, x ∈ s.produced
  request : ∀ t ∈ s.requests, t ∈ s.srrReads
  response : ∀ m ∈ s.responses, MsgOk s m
  cacheSrr : s.cache.srr = 0 ∨ s.cache.srr ∈ s.srrReads
  cacheGts : s.cache.gts = 0 ∨ ∃ x ∈ s.produced, s.cache.gts ≤ x
  /-- whoever sees `srr_` sees a timestamp that is new enough -/
  fresh : ∀ c ∈ s.calls, 0 < c.stc → c.stc ≤ s.cache.srr → c.Covered s.cache.gts
  pc : ∀ i, PcOk s (s.thread i)

/-- What a step only adds to. A new caller reads a time after those taken for requests. -/
structure Grows (s s' : State) : Prop where
  produced : s.produced ⊆ s'.produced
  srrReads : s.srrReads ⊆ s'.srrReads
  calls : s.calls ⊆ s'.calls
  newCalls : ∀ c ∈ s'.calls, c ∈ s.calls ∨ ∀ t ∈ s.srrReads, t < c.stc
  gts : s.cache.gts ≤ s'.cache.gts

section Grows

variable {s s' : State} (g : Grows s s')

include g

theorem MsgOk.grows {m} (h : MsgOk s m) : MsgOk s' m := by
  refine ⟨g.srrReads h.srr, g.produced h.gts, fun c hc hle => ?_⟩
  rcases g.newCalls c hc with hold | hnew
  · exact h.fresh c hold hle
  · exact absurd (hnew _ h.srr) (Nat.not_lt.mpr hle)

theorem exists_produced {n} (h : ∃ x ∈ s.produced, n ≤ x) : ∃ x ∈ s'.produced, n ≤ x := by
  obtain ⟨x, hx, hle⟩ := h
  exact ⟨x, g.produced hx, hle⟩

theorem PcOk.grows {pc} (h : PcOk s pc) : PcOk s' pc := by
  have hk : ∀ {k : Option Call} {n : ℕ}, (∀ c ∈ k, c ∈ s.calls ∧ c.Covered n) →
      ∀ c ∈ k, c ∈ s'.calls ∧ c.Covered n := fun hk c hc => ⟨g.calls (hk c hc).1, (hk c hc).2⟩
  have hk' : ∀ {k : Option Call}, (∀ c ∈ k, c ∈ s.calls) → ∀ c ∈ k, c ∈ s'.calls := fun hk c hc =>
    g.calls (hk c hc)
  cases pc with
  | idle => trivial
  | ready c | loadLatest c | askLeader c needSendRpc | localTime c => exact g.calls h
  | loadSrr c => exact ⟨g.calls h.1, h.2⟩
  | loadGts c srr => exact ⟨g.calls h.1, h.2.1, fun hle => (h.2.2 hle).mono g.gts⟩
  | loadReceive c srr gts =>
    exact ⟨g.calls h.1, h.2.1, h.2.2.imp id (exists_produced g)⟩
  | localNumber c curTs => exact ⟨g.calls h.1, g.srrReads h.2⟩
  | updateReceive m r k | updateGts m k => exact ⟨h.1.grows g, hk h.2⟩
  | updateSrr m k => exact ⟨h.1.grows g, hk h.2.1, h.2.2.trans g.gts⟩
  | queryTime k => exact hk' h
  | queryLatest srr k | querySend srr k => exact ⟨g.srrReads h.1, hk' h.2⟩
  | done c gts => exact ⟨h.1, exists_produced g h.2⟩

end Grows

section Step

variable {s s' : State}

theorem Inv.of_grows (h : Inv s) (g : Grows s s')
    (hthread : ∀ i, s'.thread i = s.thread i ∨ PcOk s' (s'.thread i)) :
    ∀ i, PcOk s' (s'.thread i) := by
  intro i
  rcases hthread i with heq | hok
  · rw [heq]
    exact (h.pc i).grows g
  · exact hok

theorem setPc_thread {i pc} (j : ℕ) :
    (s.setPc i pc).thread j = s.thread j ∨ (s.setPc i pc).thread j = pc := by
  by_cases hj : j = i
  · exact .inr (by rw [hj]; exact Function.update_self i pc s.thread)
  left
  exact Function.update_of_ne hj pc s.thread

theorem Inv.setPc (h : Inv s) (i : ℕ) (pc : Pc) (hpc : PcOk s pc) : Inv (s.setPc i pc) := by
  have g : Grows s (s.setPc i pc) :=
    ⟨refl _, refl _, refl _, fun _ hc => .inl hc, le_rfl⟩
  refine ⟨h.before, h.request, fun m hm => (h.response m hm).grows g, h.cacheSrr, h.cacheGts,
    h.fresh, h.of_grows g fun j => (setPc_thread j).imp id fun heq => ?_⟩
  rw [heq]
  exact hpc.grows g

/-- The two states differ in what the invariant does not read, and in the messages. -/
structure Same (s s' : State) : Prop where
  produced : s'.produced = s.produced
  srrReads : s'.srrReads = s.srrReads
  calls : s'.calls = s.calls
  gts : s'.cache.gts = s.cache.gts
  srr : s'.cache.srr = s.cache.srr
  thread : s'.thread = s.thread

section

variable (h : Inv s)
include h

theorem Inv.of_same (e : Same s s') (hrequest : ∀ t ∈ s'.requests, t ∈ s.srrReads)
    (hresponse : ∀ m ∈ s'.responses, m ∈ s.responses ∨ MsgOk s m) : Inv s' := by
  have g : Grows s s' := ⟨e.produced ▸ refl _, e.srrReads ▸ refl _,
    e.calls ▸ refl _, fun _ hc => .inl (e.calls ▸ hc), e.gts.ge⟩
  refine ⟨?_, e.srrReads ▸ hrequest, fun m hm => ?_, ?_, ?_, ?_,
    h.of_grows g fun _ => .inl (e.thread ▸ rfl)⟩
  · rw [e.calls, e.produced]
    exact h.before
  · exact ((hresponse m hm).elim (h.response m) id).grows g
  · rw [e.srr, e.srrReads]
    exact h.cacheSrr
  · rw [e.gts, e.produced]
    exact h.cacheGts
  · rw [e.calls, e.srr, e.gts]
    exact h.fresh

theorem Inv.produce (gts : ℕ) : Inv { s with produced := gts :: s.produced } := by
  have g : Grows s { s with produced := gts :: s.produced } :=
    ⟨subset_cons_self _ _, refl _, refl _, fun _ hc => .inl hc, le_rfl⟩
  exact ⟨fun c hc x hx => g.produced (h.before c hc x hx), h.request,
    fun m hm => (h.response m hm).grows g, h.cacheSrr,
      h.cacheGts.imp id (exists_produced g), h.fresh,
    h.of_grows g fun _ => .inl rfl⟩

theorem Inv.covered {gts} (hmay : s.mayProduce gts = true) {c}
    (hc : c ∈ s.calls) : c.Covered gts := by
  intro x hx
  have := all_eq_true.mp hmay x (h.before c hc x hx)
  simpa using this

theorem Inv.readSrr : Inv { s with srrReads := s.now :: s.srrReads } := by
  have g : Grows s { s with srrReads := s.now :: s.srrReads } :=
    ⟨refl _, subset_cons_self _ _, refl _, fun _ hc => .inl hc, le_rfl⟩
  exact ⟨h.before, fun t ht => g.srrReads (h.request t ht), fun m hm => (h.response m hm).grows g,
    h.cacheSrr.imp id fun hm => g.srrReads hm, h.cacheGts, h.fresh, h.of_grows g fun _ => .inl rfl⟩

theorem Inv.updateGts {gts} (hgts : gts ∈ s.produced) :
    Inv { s with cache := { s.cache with gts := max s.cache.gts gts } } := by
  have hle : s.cache.gts ≤ max s.cache.gts gts := le_max_left _ _
  have g : Grows s { s with cache := { s.cache with gts := max s.cache.gts gts } } :=
    ⟨refl _, refl _, refl _, fun _ hc => .inl hc, hle⟩
  refine ⟨h.before, h.request, fun m hm => (h.response m hm).grows g, h.cacheSrr, .inr ?_,
    fun c hc hpos hstc => (h.fresh c hc hpos hstc).mono hle, h.of_grows g fun _ => .inl rfl⟩
  rcases le_total s.cache.gts gts with hmax | hmax
  · exact ⟨gts, hgts, (max_eq_right hmax).le⟩
  have hcache : ∃ x ∈ s.produced, s.cache.gts ≤ x := by
    rcases h.cacheGts with hzero | hex
    · exact ⟨gts, hgts, hzero ▸ Nat.zero_le _⟩
    · exact hex
  obtain ⟨x, hx, hlex⟩ := hcache
  exact ⟨x, hx, (max_eq_left hmax).le.trans hlex⟩

theorem Inv.updateSrr {m} (hm : MsgOk s m) (hle : m.gts ≤ s.cache.gts) :
    Inv { s with cache := { s.cache with srr := max s.cache.srr m.srr } } := by
  have g : Grows s { s with cache := { s.cache with srr := max s.cache.srr m.srr } } :=
    ⟨refl _, refl _, refl _, fun _ hc => .inl hc, le_rfl⟩
  refine ⟨h.before, h.request, fun m hm => (h.response m hm).grows g, ?_, h.cacheGts,
    fun c hc hpos hstc => ?_, h.of_grows g fun _ => .inl rfl⟩
  · change max s.cache.srr m.srr = 0 ∨ max s.cache.srr m.srr ∈ s.srrReads
    rcases le_total s.cache.srr m.srr with hmax | hmax
    · rw [max_eq_right hmax]
      exact .inr hm.srr
    · rw [max_eq_left hmax]
      exact h.cacheSrr
  · rcases le_max_iff.mp (show c.stc ≤ max s.cache.srr m.srr from hstc) with hold | hnew
    · exact h.fresh c hc hpos hold
    · exact (hm.fresh c hc hnew).mono hle

theorem Inv.readStc (hticks : ∀ t ∈ s.srrReads, t < s.now) :
    Inv { s with calls := ⟨s.now, s.produced⟩ :: s.calls } := by
  have hnew : ∀ c ∈ (⟨s.now, s.produced⟩ : Call) :: s.calls, c ∈ s.calls ∨
      c = ⟨s.now, s.produced⟩ := fun c hc => (mem_cons.mp hc).symm
  have g : Grows s { s with calls := ⟨s.now, s.produced⟩ :: s.calls } :=
    ⟨refl _, refl _, subset_cons_self _ _,
      fun c hc => (hnew c hc).imp id fun heq => by
        rw [heq]
        exact hticks, le_rfl⟩
  refine ⟨fun c hc => ?_, h.request, fun m hm => (h.response m hm).grows g, h.cacheSrr, h.cacheGts,
    fun c hc hpos hstc => ?_, h.of_grows g fun _ => .inl rfl⟩
  · rcases hnew c hc with hold | rfl
    · exact h.before c hold
    · exact fun x hx => hx
  rcases hnew c hc with hold | rfl
  · exact h.fresh c hold hpos hstc
  rcases h.cacheSrr with hzero | hmem
  · change s.now ≤ s.cache.srr at hstc
    change 0 < s.now at hpos
    omega
  · exact absurd (hticks _ hmem) (Nat.not_lt.mpr hstc)

end

theorem pcOk_resume {k} (h : ∀ c ∈ k, c ∈ s.calls) : PcOk s (.resume k) := by
  cases k with
  | none => trivial
  | some c => exact h c rfl

theorem Inv.runPc (h : Inv s) {i pc e} (hpc : PcOk s pc)
    (hstep : s.runPc i pc e = some s') : Inv s' := by
  cases pc with
  | idle | ready c => exact nomatch hstep
  | loadSrr c =>
    cases e <;> cases hstep
    exact h.setPc _ _ ⟨hpc.1, hpc.2, h.fresh c hpc.1 hpc.2⟩
  | loadGts c srr =>
    cases e <;> cases hstep
    exact h.setPc _ _ ⟨hpc.1, hpc.2.2, h.cacheGts⟩
  | loadReceive c srr gts =>
    cases e <;> cases hstep
    apply h.setPc _ _
    split_ifs with hzero hlt
    · exact hpc.1
    · exact hpc.1
    · exact ⟨hpc.2.1 (Nat.le_of_not_lt hlt), hpc.2.2.resolve_left hzero⟩
  | loadLatest c =>
    cases e <;> cases hstep
    exact h.setPc _ (.askLeader c _) hpc
  | askLeader c needSendRpc =>
    cases e <;> cases hstep
    · exact h.setPc _ (.ready c) hpc
    · exact h.setPc _ (.localTime c) hpc
    apply h.setPc _ _
    split_ifs
    · rintro _ ⟨⟩
      exact hpc
    · exact hpc
  | localTime c =>
    cases e <;> cases hstep
    exact h.readSrr.setPc _ (.localNumber c s.now) ⟨hpc, mem_cons_self⟩
  | localNumber c curTs =>
    cases e with
    | go | leaderIsLocal | leaderIsRemote => cases hstep
    | fail =>
      cases hstep
      exact h.setPc _ (.ready c) hpc.1
    | number gts =>
    obtain ⟨hmay, ⟨⟩⟩ := ite_none_right_eq_some.mp hstep
    -- the new timestamp covers every caller, whatever its `stc`
    apply (h.produce gts).setPc _ _
    split_ifs
    · refine ⟨⟨hpc.2, mem_cons_self, fun c hc _ => h.covered hmay hc⟩, ?_⟩
      rintro _ ⟨⟩
      exact ⟨hpc.1, h.covered hmay hpc.1⟩
    · exact hpc.1
  | updateReceive m r k =>
    cases e <;> cases hstep
    exact (h.setPc i (.updateGts m k) hpc).of_same ⟨rfl, rfl, rfl, rfl, rfl, rfl⟩ h.request
      fun _ hm => .inl hm
  | updateGts m k =>
    cases e <;> cases hstep
    have hupdate := h.updateGts hpc.1.gts
    refine hupdate.setPc _ (.updateSrr m k) ⟨?_, hpc.2, le_max_right _ _⟩
    exact ⟨hpc.1.srr, hpc.1.gts, hpc.1.fresh⟩
  | updateSrr m k =>
    cases e <;> cases hstep
    apply (h.updateSrr hpc.1 hpc.2.2).setPc _ _
    cases k with
    | none => trivial
    | some c => exact ⟨(hpc.2.1 c rfl).2, m.gts, hpc.1.gts, le_rfl⟩
  | queryTime k =>
    cases e <;> cases hstep
    exact h.readSrr.setPc _ (.queryLatest s.now k) ⟨mem_cons_self, hpc⟩
  | queryLatest srr k =>
    cases e with
    | fail | leaderIsLocal | leaderIsRemote | number => cases hstep
    | go =>
    rw [State.runPc] at hstep
    split_ifs at hstep
    · cases hstep
      exact h.setPc _ _ (pcOk_resume hpc.2)
    cases hstep
    exact (h.setPc i (.querySend srr k) hpc).of_same ⟨rfl, rfl, rfl, rfl, rfl, rfl⟩
      h.request fun _ hm => .inl hm
  | querySend srr k =>
    cases e <;> cases hstep
    · exact (h.setPc i _ (pcOk_resume hpc.2)).of_same ⟨rfl, rfl, rfl, rfl, rfl, rfl⟩
        (forall_mem_cons.mpr ⟨hpc.1, h.request⟩) fun _ hm => .inl hm
    · exact h.setPc _ _ (pcOk_resume hpc.2)
  | done c gts =>
    cases e <;> cases hstep
    exact h.setPc _ (.idle) trivial

/-- **Every step keeps the invariant**, if the clock has moved on when a caller reads it. -/
theorem Inv.step (h : Inv s) {a} (hok : Ticks s a) (hstep : s.step a = some s') : Inv s' := by
  cases a with
  | clock t =>
    cases hstep
    exact h.of_same ⟨rfl, rfl, rfl, rfl, rfl, rfl⟩ h.request fun _ hm => .inl hm
  | handOut gts =>
    obtain ⟨-, ⟨⟩⟩ := ite_none_right_eq_some.mp hstep
    exact h.produce gts
  | answer srr gts =>
    obtain ⟨⟨hreq, hmay⟩, ⟨⟩⟩ := ite_none_right_eq_some.mp hstep
    have hp := h.produce gts
    have hm : MsgOk { s with produced := gts :: s.produced } ⟨srr, gts⟩ :=
      ⟨h.request srr hreq, mem_cons_self, fun c hc _ => h.covered hmay hc⟩
    refine hp.of_same ⟨rfl, rfl, rfl, rfl, rfl, rfl⟩ hp.request fun m' hm' => ?_
    rcases mem_cons.mp hm' with rfl | hold
    · exact .inr hm
    · exact .inl hold
  | push gts =>
    obtain ⟨⟨hgts, -⟩, ⟨⟩⟩ := ite_none_right_eq_some.mp hstep
    exact h.updateGts hgts
  | readStc i =>
    obtain ⟨-, ⟨⟩⟩ := ite_none_right_eq_some.mp hstep
    exact (h.readStc hok).setPc _ (.ready ⟨s.now, s.produced⟩) mem_cons_self
  | call i =>
    have hpc := h.pc i
    rw [State.step] at hstep
    split at hstep
    · rename_i c hi
      rw [hi] at hpc
      obtain ⟨hpos, ⟨⟩⟩ := ite_none_right_eq_some.mp hstep
      exact h.setPc _ _ ⟨hpc, hpos⟩
    · exact nomatch hstep
  | receive i m =>
    obtain ⟨⟨-, hm, -⟩, ⟨⟩⟩ := ite_none_right_eq_some.mp hstep
    exact h.setPc _ _ ⟨h.response m hm, nofun⟩
  | refresh i =>
    obtain ⟨-, ⟨⟩⟩ := ite_none_right_eq_some.mp hstep
    exact h.setPc _ (.queryTime none) nofun
  | run i e => exact h.runPc (h.pc i) hstep

end Step

theorem inv_of_reachable {s} (hs : (gtsSource Ticks).Reachable s) : Inv s := by
  refine hs.of_keeps ?_ ?_
  · rintro s ⟨now, rfl⟩
    exact ⟨nofun, nofun, nofun, .inl rfl, .inl rfl, nofun, fun _ => trivial⟩
  · rintro s s' h ⟨a, hok, hstep⟩
    exact h.step hok hstep

/-- **A timestamp that `get_gts` returns is fresh**: it is at least as large as every timestamp
handed out before the caller read `stc`, and not larger than all that were handed out until it
returned. -/
theorem getGts_fresh {s : State} (hs : (gtsSource Ticks).Reachable s) {i : ℕ} {c : Call} {gts : ℕ}
    (hdone : s.thread i = .done c gts) : (∀ x ∈ c.before, x ≤ gts) ∧ ∃ x ∈ s.produced, gts ≤ x := by
  have hpc := (inv_of_reachable hs).pc i
  rw [hdone] at hpc
  exact hpc

/-- A request is sent at time `5` and answered, another timestamp is handed out, and a caller reads
the clock and finds the answer in the cache. -/
def requestThenCall (stc : ℕ) : List Act :=
  [.refresh 0, .run 0 .go, .run 0 .go, .run 0 .go, .answer 5 10, .receive 0 ⟨5, 10⟩, .run 0 .go,
    .run 0 .go, .run 0 .go, .handOut 20, .clock stc, .readStc 1, .call 1, .run 1 .go, .run 1 .go,
    .run 1 .go]

theorem getGts_fresh_retry :
    ∃ s, (gtsSource Ticks).Reachable s ∧ s.thread 1 = .done ⟨6, [20, 10]⟩ 30 ∧
      (∀ x ∈ [20, 10], x ≤ 30) ∧ ∃ x ∈ s.produced, 30 ≤ x := by
  obtain ⟨s, hs⟩ : ∃ s, run Ticks (.init 5) (requestThenCall 6 ++
      [.run 1 .go, .run 1 .leaderIsLocal, .run 1 .go, .run 1 (.number 30), .run 1 .go, .run 1 .go,
        .run 1 .go]) = some s := isSome_iff_exists.mp (by decide)
  have hreach := run_reachable (Machine.Reachable.init ⟨5, rfl⟩) hs
  have hdone : s.thread 1 = .done ⟨6, [20, 10]⟩ 30 := by
    have : (run Ticks (.init 5) (requestThenCall 6 ++
      [.run 1 .go, .run 1 .leaderIsLocal, .run 1 .go, .run 1 (.number 30), .run 1 .go, .run 1 .go,
        .run 1 .go])).map (fun s => s.thread 1) = some (.done ⟨6, [20, 10]⟩ 30) := by decide
    rw [hs] at this
    exact some.inj this
  exact ⟨s, hreach, hdone, getGts_fresh hreach hdone⟩

/-- **With the clock standing still the caller gets an old timestamp**: `stc` is equal to the time
of the request, and the timestamp `20` was handed out before the caller read it. -/
theorem getGts_stale :
    ∃ s, (gtsSource fun _ _ => True).Reachable s ∧ s.thread 1 = .done ⟨5, [20, 10]⟩ 10 := by
  obtain ⟨s, hs⟩ : ∃ s, run (fun _ _ => True) (.init 5) (requestThenCall 5) = some s :=
    isSome_iff_exists.mp (by decide)
  refine ⟨s, run_reachable (.init ⟨5, rfl⟩) hs, ?_⟩
  have : (run (fun _ _ => True) (.init 5) (requestThenCall 5)).map (fun s => s.thread 1) =
      some (.done ⟨5, [20, 10]⟩ 10) := by decide
  rw [hs] at this
  exact some.inj this

end OceanBase.Gts
