import OceanBase.Lib.History
import OceanBase.Palf.LogCursor

/-!
# Iterating while the log changes

An iterator works on a log that grows, whose readable part grows, and that may be cut by a flashback
between two calls. The machine of this file interleaves calls of `next` with these steps, and writes
down what the calls return.

A flashback goes to an SCN that is not below an entry already returned or a replayable point already
used, and what is appended afterwards is above it. An iterator may be opened at any entry. If that
entry lies inside a group that was written raw, the iterator does not know this, as only the header
of the group says so: it returns the rest of the group without regard to the replayable point.

## Main results

* `iteration_sound`, `iteration_rawStart`
-/

namespace OceanBase.Palf

open List LogIterator PalfLog

/-! ## Calls -/

namespace LogIterator

variable {c : Checksums} {l : PalfLog} {env : IterEnv} {rp : ℕ} {it it' : LogIterator}
  {rest : List PlacedEntry}

@[simp] theorem prepare_currReadLsn :
    (it.prepare env).currReadLsn = it.currReadLsn + it.currEntrySize := by
  unfold prepare tryCleanUpCache
  split_ifs <;> rfl

@[simp] theorem prepare_isRawWrite :
    (it.prepare env).currEntryIsRawWrite = it.currEntryIsRawWrite := by
  unfold prepare tryCleanUpCache
  split_ifs <;> rfl

@[simp] theorem prepare_prevEntryScn : (it.prepare env).prevEntryScn = it.prevEntryScn := by
  unfold prepare tryCleanUpCache
  split_ifs <;> rfl

theorem prepare_of_eq (h : it.initModeVersion = env.modeVersion) : it.prepare env = it.advance := by
  unfold prepare tryCleanUpCache
  split_ifs with hskip hlt
  · rfl
  · exact absurd h (ne_of_lt hlt)
  · rfl

theorem prepare_initModeVersion (h : it.initModeVersion ≤ env.modeVersion)
    (hv : env.modeVersion ≠ invalidProposalId) :
    (it.prepare env).initModeVersion = env.modeVersion := by
  rcases h.eq_or_lt with h | h
  · rw [prepare_of_eq h]
    exact h
  · unfold prepare tryCleanUpCache
    simp only [hv, not_lt.mpr h.le, or_self, if_false, if_pos h]

theorem advance_of_size (h : it.currEntrySize = 0) : it.advance = it := by
  unfold advance
  rw [h, Nat.add_zero, ← h]

/-- A new mode version empties the buffer: what remains is the position. -/
theorem ready_prepare_of_lt {raw} (h : it.initModeVersion < env.modeVersion)
    (hv : env.modeVersion ≠ invalidProposalId) (hraw : it.currEntryIsRawWrite = raw)
    (hcursor : Cursor c l (it.currReadLsn + it.currEntrySize) raw (-1) rest) :
    (it.prepare env).Ready c l rest := by
  have heq : it.prepare env = { it.advance with
      endLsn := it.currReadLsn + it.currEntrySize
      currEntry := none
      currEntrySize := 0
      initModeVersion := env.modeVersion
      accumulateChecksum := -1
      currEntryIsPadding := false
      paddingEntrySize := 0
      paddingEntryScn := invalidScn } := by
    unfold prepare tryCleanUpCache
    simp only [hv, not_lt.mpr h.le, or_self, if_false, if_pos h]
    rfl
  rw [heq]
  subst hraw
  exact ⟨hcursor, fun p hp hp' => absurd hp' (not_lt.mpr hp), le_rfl, hcursor.le_tail.2, rfl, rfl⟩

theorem ready_init {lsn} (h : palfInitialProposalId ≤ env.modeVersion)
    (hv : env.modeVersion ≠ invalidProposalId) (hcursor : Cursor c l lsn false (-1) rest) :
    ((init lsn).prepare env).Ready c l rest := by
  rcases h.eq_or_lt with heq | hlt
  · rw [prepare_of_eq heq]
    exact ⟨hcursor, fun p hp hp' => absurd hp' (not_lt.mpr hp), le_rfl, hcursor.le_tail.2, rfl, rfl⟩
  · exact ready_prepare_of_lt hlt hv rfl hcursor

theorem Ready.settle (h : it.Ready c l rest) (prev : ℕ) :
    ({ it with prevEntryScn := prev, currEntrySize := 0 } : LogIterator).advance.Ready c l rest :=
  { h with size := rfl }

variable {info : IterateEndInfo} {e : LogEntry}

theorem next_of_success (hv : scnIsValid rp)
    (h : (it.prepare env).getNextEntry c env rp = ⟨.success, it', info⟩)
    (he : it'.currEntry = some e) :
    it.next c env rp = ⟨.success, { it' with prevEntryScn := e.scn }, invalidScn, false⟩ := by
  rw [next]
  simp only [hv, not_true_eq_false, if_false, h, he, Option.map_some, Option.getD_some]

theorem next_of_iterEnd (hv : scnIsValid rp)
    (h : (it.prepare env).getNextEntry c env rp = ⟨.iterEnd, it', info⟩) :
    it.next c env rp = ⟨.iterEnd, { it' with
        prevEntryScn := (nextMinScn rp it'.prevEntryScn info).2
        currEntrySize := 0 },
      (nextMinScn rp it'.prevEntryScn info).1, info.isIterateEndByReplayablePointScn⟩ := by
  rw [next]
  simp only [hv, not_true_eq_false, if_false, h]

theorem next_of_ioError (hv : scnIsValid rp)
    (h : (it.prepare env).getNextEntry c env rp = ⟨.ioError, it', info⟩) :
    it.next c env rp = ⟨.ioError, { it' with currEntrySize := 0 }, invalidScn,
      info.isIterateEndByReplayablePointScn⟩ := by
  rw [next]
  simp only [hv, not_true_eq_false, if_false, h, reduceCtorEq, or_self]

/-- **What a call of `next` leaves**: no entry and the same position, or the next entry. -/
theorem Ready.next (h : (it.prepare env).Ready c l rest) (henv : EnvOf c l env)
    (hl : GroupsTile c l.base l.groups)
    (hmode : (it.prepare env).initModeVersion = env.modeVersion) (rp : ℕ) :
    (it.next c env rp).it.initModeVersion = env.modeVersion ∧
      (((it.next c env rp).it.currEntrySize = 0 ∧ (it.next c env rp).it.advance.Ready c l rest) ∨
        ∃ x xs, rest = x :: xs ∧ ¬ x.Held rp ∧ x.lsn + x.entry.size ≤ env.fileEnd ∧
          (it.next c env rp).it.currReadLsn = x.lsn ∧
          (it.next c env rp).it.currEntry = some x.entry ∧
          (it.next c env rp).it.advance.Ready c l xs) := by
  by_cases hv : scnIsValid rp
  · have hout := h.getNextEntry henv hl rp
    generalize hnext : (it.prepare env).getNextEntry c env rp = out at hout
    cases hout with
    | atEnd hend =>
      rw [next_of_iterEnd hv hnext]
      exact ⟨hmode, .inl ⟨rfl, h.settle _⟩⟩
    | failed hio =>
      rw [next_of_ioError hv hnext]
      exact ⟨hmode, .inl ⟨rfl, h.settle _⟩⟩
    | held hrest hheld hreason hlsn hready hsame =>
      rw [next_of_iterEnd hv hnext]
      exact ⟨hsame.mode.trans hmode, .inl ⟨rfl, hready.settle _⟩⟩
    | found hrest hheld hend hlsn hsize hraw hentry hready hsame =>
    rw [next_of_success hv hnext hentry]
    refine ⟨hsame.mode.trans hmode, .inr ⟨_, _, hrest, hheld, ?_, hlsn, hentry, ?_⟩⟩
    · rw [← hlsn, ← hsize]
      exact hend
    · exact { hready with size := rfl }
  · have heq : it.next c env rp = ⟨.invalidArgument, it.prepare env, invalidScn, false⟩ := by
      simp only [LogIterator.next, hv, not_false_eq_true, if_true]
    rw [heq]
    exact ⟨hmode, .inl ⟨h.size, (advance_of_size h.size).symm ▸ h⟩⟩

theorem nextMinScn_atEnd {prev} : nextMinScn rp prev ⟨.dueToFileEndLsnNotReadNewData, invalidScn⟩ =
      if scnIsValid prev then (scnPlus prev 1, prev) else (invalidScn, prev) := by
  have hinfo : ¬ (⟨.dueToFileEndLsnNotReadNewData, invalidScn⟩ : IterateEndInfo).isValid :=
    fun h => not_scnIsValid_invalidScn h.2
  by_cases hp : scnIsValid prev
  · simp [nextMinScn, hinfo, hp, IterateEndInfo.isIterateEndByReplayablePointScn]
  · simp [nextMinScn, hinfo, hp]

theorem nextMinScn_held {prev scn reason}
    (hreason : (⟨reason, scn⟩ : IterateEndInfo).isIterateEndByReplayablePointScn = true)
    (hscn : scnIsValid scn) (hlt : rp < scn) : nextMinScn rp prev ⟨reason, scn⟩ =
      (scnMax (if scnIsValid prev then scnPlus prev 1 else minScn) (min (rp + 1) scn),
        scnMax rp prev) := by
  have hinfo : (⟨reason, scn⟩ : IterateEndInfo).isValid := by
    refine ⟨?_, hscn⟩
    rintro rfl
    simp [IterateEndInfo.isIterateEndByReplayablePointScn] at hreason
  have hrp : scnPlus rp 1 = rp + 1 := scnPlus_one (lt_of_lt_of_le hlt hscn)
  have hv : scnIsValid (rp + 1) := le_trans (Nat.succ_le_of_lt hlt) hscn
  have hlt' : scnLt rp scn := ⟨hscn, fun _ => hlt⟩
  rw [nextMinScn, if_neg (fun h => h.1 hinfo), if_pos (.inl hreason), if_pos hlt', hrp,
    scnMin_of_valid hv hscn]

end LogIterator

/-! ## The machine -/

/-- An entry that was returned, with the replayable point of the call. -/
structure ReturnedEntry where
  rp : ℕ
  lsn : ℕ
  entry : LogEntry
deriving DecidableEq

inductive IterEvent
  | entry (r : ReturnedEntry)
  | ended (nextMinScn : ℕ)
deriving DecidableEq

/-- A log, an iterator over it, and what the iterator has returned. -/
structure IterState where
  log : PalfLog
  fileEnd : ℕ
  modeVersion : ℤ
  startLsn : ℕ
  it : LogIterator
  rp : ℕ
  flashbackScn : Option ℕ
  events : List IterEvent

def returnedOf : List IterEvent → List ReturnedEntry :=
  List.filterMap fun
    | .entry r => some r
    | .ended _ => none

@[simp] theorem returnedOf_append {h k} :
    returnedOf (h ++ k) = returnedOf h ++ returnedOf k := filterMap_append

@[simp] theorem returnedOf_entry {r} : returnedOf [.entry r] = [r] := rfl

namespace IterState

variable (c : Checksums)

def env (s : IterState) (ioOk : Bool) : IterEnv where
  disk := s.log.cell c
  tail := s.log.tail
  fileEnd := s.fileEnd
  modeVersion := s.modeVersion
  ioOk := ioOk

/-- What a call returns, with `get_entry` behind a successful one. -/
def eventOf (rp : ℕ) (out : NextOut) : List IterEvent :=
  match out.ret, out.it.currEntry with
  | .success, some e => [.entry ⟨rp, out.it.currReadLsn, e⟩]
  | .iterEnd, _ => [.ended out.nextMinScn]
  | _, _ => []

def call (rp : ℕ) (ioOk : Bool) (s : IterState) : IterState :=
  let out := s.it.next c (s.env c ioOk) rp
  { s with it := out.it, rp := rp, events := s.events ++ eventOf rp out }

def append (g : LogGroup) (s : IterState) : IterState :=
  { s with log := { s.log with groups := s.log.groups ++ [g] } }

/-- The file end moves behind the first `n` groups. -/
def growFileEnd (n : ℕ) (s : IterState) : IterState :=
  { s with fileEnd := s.log.base + groupsSize (s.log.groups.take n) }

def flashback (scn : ℕ) (modeVersion : ℤ) (s : IterState) : IterState :=
  { s with
    log := s.log.cut scn
    fileEnd := min s.fileEnd (s.log.cut scn).tail
    modeVersion := modeVersion
    flashbackScn := some scn }

/-- The steps. Replayable points do not decrease, appended SCNs grow, and a flashback spares what
was returned and the replayable points. -/
inductive Step : IterState → IterState → Prop
  | append {s : IterState} (g : LogGroup) (hwf : g.Wf c s.log.tail)
      (hasc : Ascending (entriesOf s.log.groups ++ g.entries))
      (hscn : ∀ scn ∈ s.flashbackScn, ∀ e ∈ g.entries, scn < e.scn) : Step s (s.append g)
  | growFileEnd {s : IterState} (n : ℕ) (h : s.fileEnd ≤ (s.growFileEnd n).fileEnd) :
      Step s (s.growFileEnd n)
  | call {s : IterState} (rp : ℕ) (ioOk : Bool) (h : s.rp ≤ rp) : Step s (s.call c rp ioOk)
  | flashback {s : IterState} (scn : ℕ) (modeVersion : ℤ) (hmode : s.modeVersion < modeVersion)
      (hvalid : modeVersion ≠ invalidProposalId) (hrp : s.rp ≤ scn)
      (hreturned : ∀ r ∈ returnedOf s.events, r.entry.scn ≤ scn) :
      Step s (s.flashback scn modeVersion)

structure Init (s : IterState) : Prop where
  wf : s.log.Wf c
  fileEnd : ∃ n, s.fileEnd = s.log.base + groupsSize (s.log.groups.take n)
  modeVersion : palfInitialProposalId ≤ s.modeVersion
  modeVersion_valid : s.modeVersion ≠ invalidProposalId
  it : s.it = .init s.startLsn
  rp : s.rp = 0
  flashbackScn : s.flashbackScn = none
  events : s.events = []

/-- The start LSN is a position of the log: a group or an entry begins there, or the log ends. -/
def StartAt (s : IterState) : Prop := ∃ raw rest, Cursor c s.log s.startLsn raw (-1) rest

/-- The start LSN is a position of the log, and not one inside a group written raw. -/
def StartOk (s : IterState) : Prop := ∃ rest, Cursor c s.log s.startLsn false (-1) rest

end IterState

/-- Iteration over a changing log, in states that meet `ok`. -/
def iteration (c : Checksums) (ok : IterState → Prop) : Machine IterState where
  init s := s.Init c ∧ ok s
  step s s' := s.Step c s' ∧ ok s'

/-! ## Soundness -/

namespace IterState

variable {c : Checksums} {s s' : IterState} {pre rest : List PlacedEntry} {rp m : ℕ}

def fromStart (s : IterState) : List PlacedEntry := s.log.entries.filter (s.startLsn ≤ ·.lsn)

/-- What was returned is an entry of the log, and it was not to be held back. -/
structure Returns (r : ReturnedEntry) (x : PlacedEntry) : Prop where
  lsn : r.lsn = x.lsn
  entry : r.entry = x.entry
  not_held : ¬ x.Held r.rp

/-- An entry is not below a bound returned before it. -/
def MeetsBounds (past : List IterEvent) (ev : IterEvent) : Prop :=
  ∀ r, ev = .entry r → ∀ m, .ended m ∈ past → scnIsValid m → m ≤ r.entry.scn

/-- **What iteration promises.** The entries returned are the first ones of the log from the start
LSN on, one by one, and none was above the replayable point of its call if its group was written
raw. Bounds returned at the end are met by all later entries. And the next entry is returned, as
soon as it is below the file end and the replayable point and the storage answers. -/
structure Sound (c : Checksums) (s : IterState) : Prop where
  returned : ∃ pre, pre <+: s.fromStart ∧ List.Forall₂ Returns (returnedOf s.events) pre
  bounds : Justified MeetsBounds s.events
  progress : ∀ rp x, s.rp ≤ rp → scnIsValid rp → s.fromStart[(returnedOf s.events).length]? =
    some x → x.lsn + x.entry.size ≤ s.fileEnd → ¬ x.Held rp →
    returnedOf (s.call c rp true).events = returnedOf s.events ++ [⟨rp, x.lsn, x.entry⟩]

/-! ## The invariant -/

/-- A lower bound for what is still to come: for the entries that are left, for what may be
appended, and not above what a flashback spares. -/
structure ToCome (s : IterState) (pre rest : List PlacedEntry) (m : ℕ) : Prop where
  rest : ∀ x ∈ rest, m ≤ x.entry.scn
  fresh : ∀ scn, (∀ f ∈ s.flashbackScn, f < scn) → (∀ e ∈ entriesOf s.log.groups, e.scn < scn) →
    m ≤ scn
  used : m ≤ s.rp + 1 ∨ ∃ x ∈ pre, m ≤ x.entry.scn + 1

/-- What holds between the steps, with the entries returned and the entries left. -/
structure Inv (c : Checksums) (s : IterState) (pre rest : List PlacedEntry) : Prop where
  wf : s.log.Wf c
  fileEnd : ∃ done todo, s.log.groups = done ++ todo ∧ s.fileEnd = s.log.base + groupsSize done
  mode : s.it.initModeVersion ≤ s.modeVersion
  mode_valid : s.modeVersion ≠ invalidProposalId
  ready : (s.it.prepare (s.env c true)).Ready c s.log rest
  entries : s.fromStart = pre ++ rest
  position : (pre = [] ∧ s.it.currReadLsn + s.it.currEntrySize = s.startLsn) ∨
    ∃ x ∈ pre, s.it.currReadLsn + s.it.currEntrySize = x.lsn + x.entry.size
  returned : List.Forall₂ Returns (returnedOf s.events) pre
  prev : s.it.prevEntryScn = invalidScn ∨
    (scnIsValid s.it.prevEntryScn ∧ ToCome s pre rest (s.it.prevEntryScn + 1))
  ended : ∀ m, .ended m ∈ s.events → scnIsValid m → ToCome s pre rest m
  bounds : Justified MeetsBounds s.events

theorem Inv.envOf (h : Inv c s pre rest) (ioOk : Bool) : EnvOf c s.log (s.env c ioOk) :=
  ⟨rfl, rfl, h.fileEnd⟩

theorem Init.inv (h : s.Init c) (hok : s.StartOk c) : ∃ rest, Inv c s [] rest := by
  obtain ⟨rest, hcursor⟩ := hok
  have hit : s.it.currReadLsn + s.it.currEntrySize = s.startLsn := by
    rw [h.it]
    rfl
  have hmode : s.it.initModeVersion = palfInitialProposalId := by
    rw [h.it]
    rfl
  obtain ⟨n, hn⟩ := h.fileEnd
  refine ⟨rest, ⟨h.wf, ⟨_, _, (take_append_drop n _).symm, hn⟩, hmode ▸ h.modeVersion,
    h.modeVersion_valid, ?_, hcursor.rest_eq.symm, .inl ⟨rfl, hit⟩, ?_, .inl ?_, ?_, ?_⟩⟩
  · rw [h.it]
    exact ready_init h.modeVersion h.modeVersion_valid hcursor
  · rw [h.events]
    exact .nil
  · rw [h.it]
    rfl
  · rw [h.events]
    simp
  · rw [h.events]
    exact justified_nil

/-! ### The log changes -/

theorem Inv.startLsn_le (h : Inv c s pre rest) :
    s.startLsn ≤ s.it.currReadLsn + s.it.currEntrySize := by
  rcases h.position with ⟨-, hpos⟩ | ⟨x, hx, hpos⟩
  · exact hpos.ge
  have hmem : x ∈ s.fromStart := by
    rw [h.entries]
    exact mem_append_left _ hx
  have := of_decide_eq_true (mem_filter.mp hmem).2
  omega

theorem Inv.rest_eq (h : Inv c s pre rest) :
    rest = s.log.entries.filter (s.it.currReadLsn + s.it.currEntrySize ≤ ·.lsn) := by
  have := h.ready.cursor.rest_eq
  rwa [prepare_currReadLsn] at this

open IterState

theorem ToCome.append {g : LogGroup} {new} (h : ToCome s pre rest m)
    (hasc : Ascending (entriesOf s.log.groups ++ g.entries))
    (hscn : ∀ scn ∈ s.flashbackScn, ∀ e ∈ g.entries, scn < e.scn)
    (hnew : ∀ x ∈ new, x.entry ∈ g.entries) : ToCome (s.append g) pre (rest ++ new) m := by
  refine ⟨fun x hx => ?_, fun scn hf he => h.fresh scn hf fun e he' => he e ?_, h.used⟩
  · rcases mem_append.mp hx with hx | hx
    · exact h.rest x hx
    exact h.fresh _ (fun f hf => hscn f hf _ (hnew x hx)) fun e he =>
      (pairwise_append.mp hasc).2.2 e he _ (hnew x hx)
  · simp only [IterState.append, entriesOf_append]
    exact mem_append_left _ he'

theorem Inv.append {g : LogGroup} (h : Inv c s pre rest) (hwf : g.Wf c s.log.tail)
    (hasc : Ascending (entriesOf s.log.groups ++ g.entries))
    (hscn : ∀ scn ∈ s.flashbackScn, ∀ e ∈ g.entries, scn < e.scn) :
    ∃ rest', Inv c (s.append g) pre rest' := by
  have hentries : (s.append g).log.entries = s.log.entries ++ placeGroups s.log.tail [g] :=
    placeGroups_append
  have hcur := h.ready.cursor.le_tail.2
  rw [prepare_currReadLsn] at hcur
  have hstart := h.startLsn_le
  -- the new entries are behind the cursor
  have hnew : ∀ lsn, lsn ≤ s.it.currReadLsn + s.it.currEntrySize →
      (placeGroups s.log.tail [g]).filter (lsn ≤ ·.lsn) = placeGroups s.log.tail [g] := by
    intro lsn hlsn
    refine filter_eq_self.mpr fun x hx => ?_
    have := (mem_placeGroups hx).1
    simp only [decide_eq_true_eq]
    omega
  have hmem : ∀ x ∈ placeGroups s.log.tail [g], x.entry ∈ g.entries := fun x hx => by
    simpa using entry_mem_of_placeGroups hx
  obtain ⟨rest', hready⟩ := h.ready.append [g]
  have hrest : rest' = rest ++ placeGroups s.log.tail [g] := by
    have heq := hready.cursor.rest_eq
    rw [prepare_currReadLsn] at heq
    apply heq.trans
    change (s.append g).log.entries.filter _ = _
    rw [hentries, filter_append, hnew _ le_rfl, ← h.rest_eq]
  subst hrest
  obtain ⟨done, todo, hgroups, hfile⟩ := h.fileEnd
  refine ⟨_, ⟨?_, ⟨done, todo ++ [g], ?_, hfile⟩, h.mode, h.mode_valid, ?_, ?_, h.position,
    h.returned, ?_, fun m hm hv => (h.ended m hm hv).append hasc hscn hmem, h.bounds⟩⟩
  · refine ⟨groupsTile_append.mpr ⟨h.wf.tile, hwf, trivial⟩, ?_⟩
    simpa [IterState.append] using hasc
  · rw [← append_assoc, ← hgroups]
    rfl
  · exact hready
  · rw [fromStart, hentries, filter_append, ← append_assoc, ← h.entries]
    change _ ++ (placeGroups s.log.tail [g]).filter (s.startLsn ≤ ·.lsn) = _
    rw [hnew _ hstart]
    rfl
  · rcases h.prev with hp | ⟨hv, hp⟩
    · exact .inl hp
    · exact .inr ⟨hv, hp.append hasc hscn hmem⟩

theorem Inv.growFileEnd (h : Inv c s pre rest) (n : ℕ) : Inv c (s.growFileEnd n) pre rest :=
  ⟨h.wf, ⟨_, _, (take_append_drop n _).symm, rfl⟩, h.mode, h.mode_valid, h.ready, h.entries,
    h.position, h.returned, h.prev.imp_right fun hp => ⟨hp.1, ⟨hp.2.rest, hp.2.fresh, hp.2.used⟩⟩,
    fun m hm hv => ⟨(h.ended m hm hv).rest, (h.ended m hm hv).fresh, (h.ended m hm hv).used⟩,
    h.bounds⟩

theorem Inv.scn_le {scn} (h : Inv c s pre rest)
    (hreturned : ∀ r ∈ returnedOf s.events, r.entry.scn ≤ scn) : ∀ x ∈ pre, x.entry.scn ≤ scn := by
  have key : ∀ {rs : List ReturnedEntry} {xs : List PlacedEntry}, List.Forall₂ Returns rs xs →
      (∀ r ∈ rs, r.entry.scn ≤ scn) → ∀ x ∈ xs, x.entry.scn ≤ scn := by
    intro rs xs hrs
    induction hrs with
    | nil => simp
    | cons hr _ ih =>
    intro hall x hx
    rcases mem_cons.mp hx with rfl | hx
    · rw [← hr.entry]
      exact hall _ mem_cons_self
    · exact ih (fun r hr => hall r (mem_cons_of_mem _ hr)) x hx
  exact key h.returned hreturned

theorem ToCome.flashback {scn modeVersion rest'}
    (h : ToCome s pre rest m) (hrp : s.rp ≤ scn) (hpre : ∀ x ∈ pre, x.entry.scn ≤ scn)
    (hrest : ∀ x ∈ rest', x ∈ rest) : ToCome (s.flashback scn modeVersion) pre rest' m := by
  refine ⟨fun x hx => h.rest x (hrest x hx), fun scn' hf _ => ?_, h.used⟩
  have hlt : scn < scn' := hf scn rfl
  rcases h.used with hm | ⟨x, hx, hm⟩
  · omega
  have := hpre x hx
  omega

/-- **A flashback** leaves the iterator where it is, with the entries that are left of its rest. -/
theorem Inv.flashback {scn modeVersion} (h : Inv c s pre rest)
    (hmode : s.modeVersion < modeVersion) (hvalid : modeVersion ≠ invalidProposalId)
    (hrp : s.rp ≤ scn) (hreturned : ∀ r ∈ returnedOf s.events, r.entry.scn ≤ scn)
    (hok : (s.flashback scn modeVersion).StartOk c) :
    ∃ rest', Inv c (s.flashback scn modeVersion) pre rest' := by
  have hpre := h.scn_le hreturned
  have hentries : (s.log.cut scn).entries = s.log.entries.filter (·.entry.scn ≤ scn) :=
    h.wf.entries_cut scn
  -- the cursor is still in the log: it is the start LSN, or the end of an entry that is spared
  have htail : s.it.currReadLsn + s.it.currEntrySize ≤ (s.log.cut scn).tail := by
    rcases h.position with ⟨-, hpos⟩ | ⟨x, hx, hpos⟩
    · obtain ⟨_, hcursor⟩ := hok
      rw [hpos]
      exact hcursor.le_tail.2
    have hmem : x ∈ s.fromStart := by
      rw [h.entries]
      exact mem_append_left _ hx
    have hcut : x ∈ (s.log.cut scn).entries := by
      rw [hentries]
      exact mem_filter.mpr ⟨(mem_filter.mp hmem).1, by simpa using hpre x hx⟩
    rw [hpos]
    exact (mem_placeGroups hcut).2
  obtain ⟨rest', hcursor⟩ := h.ready.cursor.cut h.wf.tile (by simpa using htail)
  rw [prepare_currReadLsn, prepare_isRawWrite] at hcursor
  have hrest : rest' = rest.filter (·.entry.scn ≤ scn) := by
    rw [hcursor.rest_eq, hentries, h.rest_eq, filter_filter, filter_filter]
    exact filter_congr fun x _ => Bool.and_comm _ _
  have hsub : ∀ x ∈ rest', x ∈ rest := fun x hx => by
    rw [hrest] at hx
    exact mem_of_mem_filter hx
  have hmode' : s.it.initModeVersion < modeVersion := lt_of_le_of_lt h.mode hmode
  refine ⟨rest', ⟨h.wf.cut scn, ?_, hmode'.le, hvalid, ?_, ?_, h.position, h.returned, ?_,
    fun m hm hv => (h.ended m hm hv).flashback hrp hpre hsub, h.bounds⟩⟩
  · obtain ⟨done, todo, hgroups, hfile⟩ := h.fileEnd
    have hne := h.wf.tile.nonempty
    rw [hgroups] at hne
    by_cases hle : groupsSize done ≤ groupsSize (cutGroups scn (done ++ todo))
    · refine ⟨done, cutGroups scn todo, ?_, ?_⟩
      · simp only [IterState.flashback, PalfLog.cut, hgroups]
        exact cutGroups_append (fun g hg => hne g (mem_append_left _ hg)) hle
      · simp only [IterState.flashback, PalfLog.tail, PalfLog.cut, hgroups, hfile]
        omega
    · -- the file end was cut off
      refine ⟨cutGroups scn (done ++ todo), [], ?_, ?_⟩
      · simp only [IterState.flashback, PalfLog.cut, hgroups, append_nil]
      simp only [IterState.flashback, PalfLog.tail, PalfLog.cut, hgroups, hfile]
      omega
  · exact ready_prepare_of_lt hmode' hvalid rfl hcursor
  · have hfrom : (s.flashback scn modeVersion).fromStart =
        s.fromStart.filter (·.entry.scn ≤ scn) := by
      change (s.log.cut scn).entries.filter (s.startLsn ≤ ·.lsn) = _
      rw [hentries, fromStart, filter_filter, filter_filter]
      exact filter_congr fun x _ => Bool.and_comm _ _
    rw [hfrom, h.entries, filter_append, hrest,
      filter_eq_self.mpr fun x hx => by simpa using hpre x hx]
  · rcases h.prev with hp | ⟨hv, hp⟩
    · exact .inl hp
    · exact .inr ⟨hv, hp.flashback hrp hpre hsub⟩

/-! ### A call -/

theorem ToCome.mono {pre' rest' m'} (h : ToCome s pre rest m)
    (hlog : s'.log = s.log) (hflash : s'.flashbackScn = s.flashbackScn) (hrp : s.rp ≤ s'.rp)
    (hpre : ∀ x ∈ pre, x ∈ pre') (hrest : ∀ x ∈ rest', x ∈ rest) (hm : m' ≤ m) :
    ToCome s' pre' rest' m' := by
  refine ⟨fun x hx => hm.trans (h.rest x (hrest x hx)), fun scn hf he => ?_, ?_⟩
  · rw [hlog] at he
    rw [hflash] at hf
    exact hm.trans (h.fresh scn hf he)
  · rcases h.used with hu | ⟨x, hx, hu⟩
    · exact .inl (by omega)
    · exact .inr ⟨x, hpre x hx, hm.trans hu⟩

theorem ToCome.max {m'} (h : ToCome s pre rest m) (h' : ToCome s pre rest m') :
    ToCome s pre rest (max m m') := by
  rcases max_choice m m' with heq | heq <;> rw [heq]
  · exact h
  · exact h'

theorem ToCome.zero : ToCome s pre rest 0 :=
  ⟨fun _ _ => Nat.zero_le _, fun _ _ _ => Nat.zero_le _, .inl (Nat.zero_le _)⟩

theorem Inv.ascending (h : Inv c s pre rest) :
    s.log.entries.Pairwise fun x y => x.entry.scn < y.entry.scn := by
  have hasc := h.wf.ascending
  rw [← map_entry_placeGroups, Ascending, pairwise_map] at hasc
  exact hasc

theorem Inv.rest_mem (h : Inv c s pre rest) : ∀ x ∈ rest, x.entry ∈ entriesOf s.log.groups := by
  intro x hx
  rw [h.rest_eq] at hx
  exact entry_mem_of_placeGroups (mem_of_mem_filter hx)

theorem Inv.head_lt {x xs} (h : Inv c s pre (x :: xs)) : ∀ y ∈ xs, x.entry.scn < y.entry.scn := by
  have hasc : (x :: xs).Pairwise fun x y => x.entry.scn < y.entry.scn := by
    rw [h.rest_eq]
    exact h.ascending.sublist filter_sublist
  exact (pairwise_cons.mp hasc).1

/-- The state behind a call that leaves `it'` and returns `evs`. -/
def afterCall (s : IterState) (rp : ℕ) (it' : LogIterator) (evs : List IterEvent) : IterState :=
  { s with it := it', rp := rp, events := s.events ++ evs }

section Call

variable {it' : LogIterator} {evs : List IterEvent}

theorem ToCome.afterCall {pre' rest'} (h : ToCome s pre rest m)
    (hrp : s.rp ≤ rp) (hpre : ∀ x ∈ pre, x ∈ pre') (hrest : ∀ x ∈ rest', x ∈ rest) :
    ToCome (s.afterCall rp it' evs) pre' rest' m :=
  h.mono rfl rfl hrp hpre hrest le_rfl

theorem Inv.stay (h : Inv c s pre rest) (hrp : s.rp ≤ rp)
    (hmode : it'.initModeVersion = s.modeVersion) (hready : it'.advance.Ready c s.log rest)
    (hlsn : it'.currReadLsn + it'.currEntrySize = s.it.currReadLsn + s.it.currEntrySize)
    (hprev : it'.prevEntryScn = invalidScn ∨ (scnIsValid it'.prevEntryScn ∧
      ToCome (s.afterCall rp it' evs) pre rest (it'.prevEntryScn + 1)))
    (hevs : evs = [] ∨ ∃ m, evs = [.ended m] ∧
      (scnIsValid m → ToCome (s.afterCall rp it' evs) pre rest m)) :
    Inv c (s.afterCall rp it' evs) pre rest := by
  have hprep : it'.prepare (s.env c true) = it'.advance := prepare_of_eq hmode
  have hnone : returnedOf evs = [] := by
    rcases hevs with rfl | ⟨m, rfl, -⟩ <;> rfl
  refine ⟨h.wf, h.fileEnd, hmode.le, h.mode_valid, hprep ▸ hready, h.entries, ?_, ?_, hprev, ?_, ?_⟩
  · rcases h.position with ⟨hp, hpos⟩ | ⟨x, hx, hpos⟩
    · exact .inl ⟨hp, hlsn.trans hpos⟩
    · exact .inr ⟨x, hx, hlsn.trans hpos⟩
  · simp only [afterCall, returnedOf_append, hnone, append_nil]
    exact h.returned
  · intro m hm hv
    rcases mem_append.mp hm with hm | hm
    · exact (h.ended m hm hv).afterCall hrp (fun _ hx => hx) fun _ hx => hx
    rcases hevs with rfl | ⟨m', rfl, hm'⟩
    · cases hm
    obtain rfl := IterEvent.ended.inj (mem_singleton.mp hm)
    exact hm' hv
  · rcases hevs with rfl | ⟨m, rfl, -⟩
    · simp only [afterCall, append_nil]
      exact h.bounds
    · exact justified_concat.mpr ⟨h.bounds, fun r hr => nomatch hr⟩

theorem Inv.take {x xs} (h : Inv c s pre (x :: xs))
    (hrp : s.rp ≤ rp) (hmode : it'.initModeVersion = s.modeVersion)
    (hready : it'.advance.Ready c s.log xs)
    (hlsn : it'.currReadLsn + it'.currEntrySize = x.lsn + x.entry.size)
    (hprev : it'.prevEntryScn = x.entry.scn) (hheld : ¬ x.Held rp)
    (hevs : evs = [.entry ⟨rp, x.lsn, x.entry⟩]) :
    Inv c (s.afterCall rp it' evs) (pre ++ [x]) xs := by
  have hprep : it'.prepare (s.env c true) = it'.advance := prepare_of_eq hmode
  have hpre : ∀ y ∈ pre, y ∈ pre ++ [x] := fun y hy => mem_append_left _ hy
  have hxs : ∀ y ∈ xs, y ∈ x :: xs := fun y hy => mem_cons_of_mem _ hy
  have hmem := h.rest_mem x mem_cons_self
  subst hevs
  refine ⟨h.wf, h.fileEnd, hmode.le, h.mode_valid, hprep ▸ hready, ?_,
    .inr ⟨x, mem_append_right _ (mem_singleton_self _), hlsn⟩, ?_, .inr ⟨?_, ?_⟩, ?_, ?_⟩
  · rw [append_assoc]
    exact h.entries
  · simp only [afterCall, returnedOf_append, returnedOf_entry]
    exact rel_append h.returned (.cons ⟨rfl, rfl, hheld⟩ .nil)
  · change scnIsValid it'.prevEntryScn
    rw [hprev]
    exact h.wf.tile.scn_valid _ hmem
  · change ToCome _ _ _ (it'.prevEntryScn + 1)
    rw [hprev]
    exact ⟨h.head_lt, fun scn _ he => he _ hmem,
      .inr ⟨x, mem_append_right _ (mem_singleton_self _), le_rfl⟩⟩
  · intro m hm hv
    rcases mem_append.mp hm with hm | hm
    · exact (h.ended m hm hv).afterCall hrp hpre hxs
    · cases mem_singleton.mp hm
  · refine justified_concat.mpr ⟨h.bounds, fun r hr m hm hv => ?_⟩
    cases hr
    exact (h.ended m hm hv).rest x mem_cons_self

theorem Inv.bound_atEnd (h : Inv c s pre rest) (hrp : s.rp ≤ rp)
    (hv : scnIsValid (nextMinScn rp s.it.prevEntryScn
      ⟨.dueToFileEndLsnNotReadNewData, invalidScn⟩).1) :
    ToCome (s.afterCall rp it' evs) pre rest (nextMinScn rp s.it.prevEntryScn
      ⟨.dueToFileEndLsnNotReadNewData, invalidScn⟩).1 := by
  rw [nextMinScn_atEnd] at hv ⊢
  rcases h.prev with hp | ⟨hp, hbound⟩
  · rw [hp, if_neg not_scnIsValid_invalidScn] at hv
    exact absurd hv not_scnIsValid_invalidScn
  rw [if_pos hp] at hv ⊢
  rw [scnPlus_one_of_valid hv]
  exact hbound.afterCall hrp (fun _ hx => hx) fun _ hx => hx

theorem Inv.bound_held {x xs reason}
    (h : Inv c s pre (x :: xs)) (hrp : s.rp ≤ rp) (hheld : x.Held rp)
    (hreason : (⟨reason, x.entry.scn⟩ : IterateEndInfo).isIterateEndByReplayablePointScn = true) :
    let out := nextMinScn rp s.it.prevEntryScn ⟨reason, x.entry.scn⟩
    (scnIsValid out.1 → ToCome (s.afterCall rp it' evs) pre (x :: xs) out.1) ∧
      (out.2 = invalidScn ∨
        (scnIsValid out.2 ∧ ToCome (s.afterCall rp it' evs) pre (x :: xs) (out.2 + 1))) := by
  have hmem := h.rest_mem x mem_cons_self
  have hscn : scnIsValid x.entry.scn := h.wf.tile.scn_valid _ hmem
  -- the entry bounds what is left and what is appended, the replayable point what is cut off
  have hhead : ∀ m, m ≤ x.entry.scn → m ≤ rp + 1 →
      ToCome (s.afterCall rp it' evs) pre (x :: xs) m := by
    intro m hm hm'
    refine ⟨fun y hy => ?_, fun scn _ he => hm.trans (he _ hmem).le, .inl hm'⟩
    rcases mem_cons.mp hy with rfl | hy
    · exact hm
    · exact hm.trans (h.head_lt y hy).le
  have hlt : rp < x.entry.scn := hheld.2
  have hv : scnIsValid rp := hlt.le.trans hscn
  have hmin : scnIsValid (min (rp + 1) x.entry.scn) := (min_le_right _ _).trans hscn
  have hheadMin := hhead _ (min_le_right (rp + 1) x.entry.scn) (min_le_left _ _)
  rw [nextMinScn_held hreason hscn hlt]
  rcases h.prev with hp | ⟨hp, hbound⟩
  · -- nothing was returned yet, and the replayable point becomes the SCN that is kept
    rw [hp, if_neg not_scnIsValid_invalidScn, scnMax_of_valid (by decide : scnIsValid minScn) hmin,
      scnMax_invalid_right hv not_scnIsValid_invalidScn]
    exact ⟨fun _ => .max .zero hheadMin, .inr ⟨hv, hhead _ hlt le_rfl⟩⟩
  rw [if_pos hp, scnMax_of_valid hv hp]
  have hbound' : ToCome (s.afterCall rp it' evs) pre (x :: xs) (s.it.prevEntryScn + 1) :=
    hbound.afterCall hrp (fun _ hx => hx) fun _ hx => hx
  refine ⟨fun _ => ?_, .inr ⟨max_le hv hp, ?_⟩⟩
  · by_cases hplus : scnIsValid (scnPlus s.it.prevEntryScn 1)
    · rw [scnMax_of_valid hplus hmin, scnPlus_one_of_valid hplus]
      exact .max hbound' hheadMin
    · rw [scnMax_invalid_left hplus]
      exact hheadMin
  · rw [← Nat.add_max_add_right]
    exact .max (hhead _ hlt le_rfl) hbound'

theorem call_eq {out ioOk} (h : s.it.next c (s.env c ioOk) rp = out) :
    s.call c rp ioOk = s.afterCall rp out.it (eventOf rp out) := by
  rw [← h]
  rfl

section

variable {ioOk : Bool}

theorem Inv.prepared (h : Inv c s pre rest) (ioOk : Bool) :
    (s.it.prepare (s.env c ioOk)).Ready c s.log rest ∧
      (s.it.prepare (s.env c ioOk)).initModeVersion = s.modeVersion :=
  ⟨h.ready, prepare_initModeVersion h.mode h.mode_valid⟩

theorem Inv.call_atEnd (h : Inv c s pre rest) (hrp : s.rp ≤ rp) (hv : scnIsValid rp)
    (hnext : (s.it.prepare (s.env c ioOk)).getNextEntry c (s.env c ioOk) rp =
      ⟨.iterEnd, s.it.prepare (s.env c ioOk), ⟨.dueToFileEndLsnNotReadNewData, invalidScn⟩⟩) :
    Inv c (s.call c rp ioOk) pre rest := by
  obtain ⟨hready, hmode⟩ := h.prepared ioOk
  have hsnd : (nextMinScn rp s.it.prevEntryScn
      ⟨.dueToFileEndLsnNotReadNewData, invalidScn⟩).2 = s.it.prevEntryScn := by
    rw [nextMinScn_atEnd]
    split_ifs <;> rfl
  rw [call_eq (next_of_iterEnd hv hnext)]
  refine h.stay hrp hmode (hready.settle _) prepare_currReadLsn ?_ (.inr ⟨_, rfl, ?_⟩)
  · simp only [prepare_prevEntryScn, hsnd]
    exact h.prev.imp_right fun hp => ⟨hp.1, hp.2.afterCall hrp (fun _ hx => hx) fun _ hx => hx⟩
  · simp only [prepare_prevEntryScn]
    exact h.bound_atEnd hrp

theorem Inv.call_failed (h : Inv c s pre rest) (hrp : s.rp ≤ rp) (hv : scnIsValid rp)
    (hnext : (s.it.prepare (s.env c ioOk)).getNextEntry c (s.env c ioOk) rp =
      ⟨.ioError, s.it.prepare (s.env c ioOk), .reset⟩) : Inv c (s.call c rp ioOk) pre rest := by
  obtain ⟨hready, hmode⟩ := h.prepared ioOk
  rw [call_eq (next_of_ioError hv hnext)]
  refine h.stay hrp hmode (hready.settle _) prepare_currReadLsn ?_ (.inl rfl)
  simp only [prepare_prevEntryScn]
  exact h.prev.imp_right fun hp => ⟨hp.1, hp.2.afterCall hrp (fun _ hx => hx) fun _ hx => hx⟩

theorem Inv.call_held {x xs reason}
    (h : Inv c s pre (x :: xs)) (hrp : s.rp ≤ rp) (hv : scnIsValid rp) (hheld : x.Held rp)
    (hreason : (⟨reason, x.entry.scn⟩ : IterateEndInfo).isIterateEndByReplayablePointScn = true)
    (hlsn : it'.currReadLsn = (s.it.prepare (s.env c ioOk)).currReadLsn)
    (hready : it'.Ready c s.log (x :: xs)) (hsame : (s.it.prepare (s.env c ioOk)).SameHistory it')
    (hnext : (s.it.prepare (s.env c ioOk)).getNextEntry c (s.env c ioOk) rp =
      ⟨.iterEnd, it', ⟨reason, x.entry.scn⟩⟩) : Inv c (s.call c rp ioOk) pre (x :: xs) := by
  obtain ⟨-, hmode⟩ := h.prepared ioOk
  have hprev : it'.prevEntryScn = s.it.prevEntryScn :=
    hsame.prev.trans prepare_prevEntryScn
  rw [call_eq (next_of_iterEnd hv hnext)]
  refine h.stay hrp (hsame.mode.trans hmode) (hready.settle _)
    (hlsn.trans prepare_currReadLsn) ?_ (.inr ⟨_, rfl, ?_⟩)
  · simp only [hprev]
    exact (h.bound_held hrp hheld hreason).2
  · simp only [hprev]
    exact (h.bound_held hrp hheld hreason).1

theorem Inv.call_found {x xs}
    (h : Inv c s pre (x :: xs)) (hrp : s.rp ≤ rp) (hv : scnIsValid rp) (hheld : ¬ x.Held rp)
    (hlsn : it'.currReadLsn = x.lsn) (hsize : it'.currEntrySize = x.entry.size)
    (hentry : it'.currEntry = some x.entry) (hready : it'.advance.Ready c s.log xs)
    (hsame : (s.it.prepare (s.env c ioOk)).SameHistory it')
    (hnext : (s.it.prepare (s.env c ioOk)).getNextEntry c (s.env c ioOk) rp =
      ⟨.success, it', .reset⟩) : Inv c (s.call c rp ioOk) (pre ++ [x]) xs ∧
      returnedOf (s.call c rp ioOk).events = returnedOf s.events ++ [⟨rp, x.lsn, x.entry⟩] := by
  obtain ⟨-, hmode⟩ := h.prepared ioOk
  have hevs : eventOf rp ⟨.success, { it' with prevEntryScn := x.entry.scn }, invalidScn, false⟩ =
      [.entry ⟨rp, x.lsn, x.entry⟩] := by
    simp only [eventOf, hentry, hlsn]
  rw [call_eq (next_of_success hv hnext hentry)]
  refine ⟨h.take hrp (hsame.mode.trans hmode) ?_ (by rw [← hlsn, ← hsize]) rfl hheld hevs, ?_⟩
  · exact { hready with size := rfl }
  · rw [afterCall, hevs, returnedOf_append, returnedOf_entry]

end

/-- **A call** returns nothing and leaves the position, for one of four reasons, or it returns the
next entry. -/
theorem Inv.call_cases (h : Inv c s pre rest) (hrp : s.rp ≤ rp) (ioOk : Bool) :
    (Inv c (s.call c rp ioOk) pre rest ∧
      (¬ scnIsValid rp ∨ ioOk = false ∨ s.fileEnd ≤ s.it.currReadLsn + s.it.currEntrySize ∨
        ∃ x xs, rest = x :: xs ∧ x.Held rp)) ∨
    ∃ x xs, rest = x :: xs ∧ Inv c (s.call c rp ioOk) (pre ++ [x]) xs ∧
      returnedOf (s.call c rp ioOk).events = returnedOf s.events ++ [⟨rp, x.lsn, x.entry⟩] := by
  obtain ⟨hready, hmode⟩ := h.prepared ioOk
  by_cases hv : scnIsValid rp
  · have hout := hready.getNextEntry (h.envOf ioOk) h.wf.tile rp
    generalize hnext : (s.it.prepare (s.env c ioOk)).getNextEntry c (s.env c ioOk) rp = out at hout
    cases hout with
    | atEnd hend =>
      rw [prepare_currReadLsn] at hend
      exact .inl ⟨h.call_atEnd hrp hv hnext, .inr (.inr (.inl hend))⟩
    | failed hio => exact .inl ⟨h.call_failed hrp hv hnext, .inr (.inl hio)⟩
    | held hrest hheld hreason hlsn hready' hsame =>
      subst hrest
      exact .inl ⟨h.call_held hrp hv hheld hreason hlsn hready' hsame hnext,
        .inr (.inr (.inr ⟨_, _, rfl, hheld⟩))⟩
    | found hrest hheld hend hlsn hsize hraw hentry hready' hsame =>
      subst hrest
      exact .inr ⟨_, _, rfl, h.call_found hrp hv hheld hlsn hsize hentry hready' hsame hnext⟩
  · refine .inl ⟨?_, .inl hv⟩
    have hcall : s.call c rp ioOk = s.afterCall rp (s.it.prepare (s.env c ioOk)) [] := by
      simp only [call, LogIterator.next, hv, not_false_eq_true, if_true]
      rfl
    rw [hcall]
    refine h.stay hrp hmode (by rw [LogIterator.advance_of_size hready.size]; exact hready) ?_ ?_
      (.inl rfl)
    · rw [hready.size, prepare_currReadLsn, Nat.add_zero]
    simp only [prepare_prevEntryScn]
    exact h.prev.imp_right fun hp => ⟨hp.1, hp.2.afterCall hrp (fun _ hx => hx) fun _ hx => hx⟩

end Call

/-! ## Every run -/

theorem Inv.step (h : Inv c s pre rest) (hstep : s.Step c s') (hok : s'.StartOk c) :
    ∃ pre' rest', Inv c s' pre' rest' := by
  cases hstep with
  | append g hwf hasc hscn => exact ⟨pre, h.append hwf hasc hscn⟩
  | growFileEnd n _ => exact ⟨pre, rest, h.growFileEnd n⟩
  | call rp ioOk hrp =>
    rcases h.call_cases hrp ioOk with ⟨h', -⟩ | ⟨x, xs, -, h', -⟩
    · exact ⟨_, _, h'⟩
    · exact ⟨_, _, h'⟩
  | flashback scn modeVersion hmode hvalid hrp hreturned =>
    exact ⟨pre, h.flashback hmode hvalid hrp hreturned hok⟩

theorem Inv.sound (h : Inv c s pre rest) : s.Sound c := by
  refine ⟨⟨pre, ⟨rest, h.entries.symm⟩, h.returned⟩, h.bounds, fun rp x hrp hv hx hend hheld => ?_⟩
  rw [h.returned.length_eq, h.entries, List.getElem?_append_right le_rfl, Nat.sub_self] at hx
  obtain ⟨xs, hrest⟩ := List.head?_eq_some_iff.mp (List.head?_eq_getElem?.trans hx)
  rcases h.call_cases hrp true with ⟨-, hstuck⟩ | ⟨y, ys, hrest', -, hret⟩
  · exfalso
    rcases hstuck with hc | hc | hc | ⟨y, ys, hrest', hc⟩
    · exact hc hv
    · exact Bool.noConfusion hc
    · -- the entry lies behind the cursor and before the file end
      have hmem : x ∈ s.log.entries.filter (s.it.currReadLsn + s.it.currEntrySize ≤ ·.lsn) := by
        rw [← h.rest_eq, hrest]
        exact mem_cons_self
      have hle := of_decide_eq_true (mem_filter.mp hmem).2
      have := x.entry.size_pos
      omega
    · obtain ⟨rfl, -⟩ := cons_eq_cons.mp (hrest.symm.trans hrest')
      exact hheld hc
  · obtain ⟨rfl, -⟩ := cons_eq_cons.mp (hrest.symm.trans hrest')
    exact hret

end IterState

/-- **Iteration is sound** in every run in which the start LSN is never inside a group written
raw: entries come complete, in order and within their bounds. -/
theorem iteration_sound {c : Checksums} {s : IterState}
    (h : (iteration c (IterState.StartOk c)).Reachable s) : s.Sound c := by
  have hinv : ∃ pre rest, IterState.Inv c s pre rest := by
    refine Machine.Reachable.of_keeps (I := fun s => ∃ pre rest, IterState.Inv c s pre rest)
      ?_ ?_ h
    · rintro s ⟨hinit, hok⟩
      exact ⟨[], hinit.inv hok⟩
    · rintro s s' ⟨pre, rest, hs⟩ ⟨hstep, hok⟩
      exact hs.step hstep hok
  obtain ⟨pre, rest, hs⟩ := hinv
  exact hs.sound

/-! ### A run -/

/-- Checksums for the runs below. -/
def sumChecksums : Checksums := ⟨fun a b => a + b, 7⟩

/-- A log with an entry that was appended and two that were written raw. -/
def mixedLog : PalfLog where
  base := 0
  accum := 0
  groups := [⟨false, false, 1, 1, [⟨5, 16, 3⟩]⟩, ⟨true, false, 1, 2, [⟨10, 16, 4⟩, ⟨20, 16, 5⟩]⟩]

/-- A group written raw after a flashback. -/
def laterGroup : LogGroup := ⟨true, false, 1, 3, [⟨30, 16, 6⟩]⟩

def openedAt (startLsn : ℕ) : IterState where
  log := mixedLog
  fileEnd := 256
  modeVersion := 0
  startLsn := startLsn
  it := .init startLsn
  rp := 0
  flashbackScn := none
  events := []

theorem mixedLog_wf : mixedLog.Wf sumChecksums := by
  refine ⟨⟨⟨by decide, by decide, by decide, by decide, nofun⟩,
    ⟨by decide, by decide, by decide, by decide, nofun⟩, trivial⟩, ?_⟩
  change List.Pairwise _ _
  decide

theorem openedAt_init (startLsn : ℕ) : (openedAt startLsn).Init sumChecksums :=
  ⟨mixedLog_wf, ⟨2, rfl⟩, le_rfl, show (0 : ℤ) ≠ invalidProposalId by decide, rfl, rfl, rfl, rfl⟩

theorem IterState.startOk_of_base {c} {s : IterState} (h : s.startLsn = s.log.base) :
    s.StartOk c := by
  have : Cursor c s.log (s.log.base + groupsSize []) false (-1) _ :=
    .boundary (nil_append _).symm (.inl rfl)
  exact ⟨_, h ▸ this⟩

/-- Two entries are returned, the third is held back and falls to a flashback. -/
def mixedRun : IterState :=
  (((openedAt 0).call sumChecksums 12 true).call sumChecksums 12 true).call sumChecksums 12 true

/-- An entry is written after the flashback, and returned. -/
def mixedRunEnd : IterState :=
  (((mixedRun.flashback 12 1).append laterGroup).growFileEnd 3).call sumChecksums 40 true

theorem mixedRunEnd_reachable :
    (iteration sumChecksums (IterState.StartOk sumChecksums)).Reachable mixedRunEnd := by
  have hok : ∀ {s : IterState}, s.startLsn = s.log.base → s.StartOk sumChecksums :=
    IterState.startOk_of_base
  refine .step (.step (.step (.step (.step (.step (.step (.init ⟨openedAt_init 0, hok rfl⟩)
    ⟨.call 12 true (by decide), hok rfl⟩) ⟨.call 12 true (by decide), hok rfl⟩)
    ⟨.call 12 true (by decide), hok rfl⟩) ⟨.flashback 12 1 (by decide) (by decide) (by decide) ?_,
    hok rfl⟩) ⟨.append laterGroup ?_ ?_ ?_, hok rfl⟩) ⟨.growFileEnd 3 (by decide), hok rfl⟩)
    ⟨.call 40 true (by decide), hok rfl⟩
  · decide +kernel
  · exact ⟨by decide, by decide, by decide, by decide, nofun⟩
  · change List.Pairwise _ _
    decide
  · decide

theorem iteration_sound_mixedRunEnd :
    mixedRunEnd.events = [.entry ⟨12, 56, ⟨5, 16, 3⟩⟩, .entry ⟨12, 160, ⟨10, 16, 4⟩⟩, .ended 13,
      .entry ⟨40, 264, ⟨30, 16, 6⟩⟩] ∧ mixedRunEnd.Sound sumChecksums :=
  ⟨by decide +kernel, iteration_sound mixedRunEnd_reachable⟩

/-- **A start inside a group written raw.** The iterator is opened at the second entry of such a
group and returns it, although its SCN of 20 is above the replayable point 10. -/
theorem iteration_rawStart :
    ∃ s, (iteration sumChecksums (IterState.StartAt sumChecksums)).Reachable s ∧
      ¬ s.Sound sumChecksums := by
  have hstart : (openedAt 208).StartAt sumChecksums := by
    have hgroups : mixedLog.groups = [⟨false, false, 1, 1, [⟨5, 16, 3⟩]⟩] ++
        ⟨true, false, 1, 2, [⟨10, 16, 4⟩] ++ [⟨20, 16, 5⟩]⟩ :: [] := rfl
    exact ⟨true, _, Cursor.behind hgroups rfl (.inl rfl) (by decide) rfl⟩
  refine ⟨(openedAt 208).call sumChecksums 10 true,
    .step (.init ⟨openedAt_init 208, hstart⟩) ⟨.call 10 true (by decide), hstart⟩, fun h => ?_⟩
  obtain ⟨pre, hpre, hret⟩ := h.returned
  have hevents : returnedOf ((openedAt 208).call sumChecksums 10 true).events =
      [⟨10, 208, ⟨20, 16, 5⟩⟩] := by decide +kernel
  have hfrom : ((openedAt 208).call sumChecksums 10 true).fromStart =
      [⟨208, true, ⟨20, 16, 5⟩⟩] := by decide +kernel
  rw [hevents] at hret
  rw [hfrom] at hpre
  cases hret with
  | cons hx hnil =>
  cases hnil
  obtain ⟨rfl, -⟩ := cons_eq_cons.mp
    (List.IsPrefix.eq_of_length hpre rfl)
  exact hx.not_held ⟨rfl, by decide⟩

end OceanBase.Palf
