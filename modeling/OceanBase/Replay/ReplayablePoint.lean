import OceanBase.Palf.LogIteration

/-!
# Replay and the replayable point

On a standby, logs are written raw, and a follower replays them only up to the replayable point, as
logs above it may still fall to a flashback. The submit task relies on its iterator for that: it
passes the replayable point to `next`, and pushes the entry the iterator stands at without looking
at the point again.

When replay is enabled, and when a leader becomes a follower, the submit task seeks its iterator and
fetches an entry with the `next` that has no replayable point. That entry is pushed like any other
one. It may be above the replayable point, and so may be the entries that follow it, if the iterator
was set inside a group written raw.

The submit task runs under the read lock of the replay status, between the check whether a log
remains and its submission. Enabling, disabling and resetting the iterator take the write lock.

## Main results

* `pushed_replayable`, `enable_pushes_unreplayable`
-/

namespace OceanBase.Replay

open Palf List LogIterator

/-! ## The submit task -/

/-- A log put into a replay queue, with the replayable point at that moment. -/
structure PushedLog where
  replayablePoint : ℕ
  lsn : ℕ
  entry : LogEntry
deriving DecidableEq

/-- A replica: its log, its replay status and the submit task. -/
structure Follower where
  log : PalfLog
  fileEnd : ℕ
  modeVersion : ℤ
  replayablePoint : ℕ
  isEnabled : Bool
  isFollower : Bool
  isSubmitBlocked : Bool
  iterator : LogIterator
  nextToSubmitLsn : ℕ
  nextToSubmitScn : ℕ
  baseScn : ℕ
  /-- `has_remained_submit_log` has returned true, under the read lock -/
  isFetching : Bool
  pushed : List PushedLog

namespace Follower

variable (c : Checksums) (isPaddingLog : LogEntry → Bool)

def env (s : Follower) (ioOk : Bool) : IterEnv where
  disk := s.log.cell c
  tail := s.log.tail
  fileEnd := s.fileEnd
  modeVersion := s.modeVersion
  ioOk := ioOk

/-- `seek` and the `next` without a replayable point. -/
def seek (lsn : ℕ) (ioOk : Bool) (s : Follower) : Follower :=
  { s with iterator := ((LogIterator.init lsn).next c (s.env c ioOk) maxScn).it }

/-- `ObReplayStatus::enable_` with `ObReplayServiceSubmitTask::init`. -/
def enable (baseLsn baseScn : ℕ) (ioOk : Bool) (s : Follower) : Follower :=
  { s.seek c baseLsn ioOk with
    isEnabled := true
    isSubmitBlocked := false
    nextToSubmitLsn := baseLsn
    nextToSubmitScn := minScn
    baseScn := baseScn }

def disable (s : Follower) : Follower :=
  { s with isEnabled := false, isSubmitBlocked := true }

def switchToLeader (s : Follower) : Follower := { s with isFollower := false }

/-- `ObReplayStatus::switch_to_follower` with `ObReplayServiceSubmitTask::reset_iterator`. -/
def switchToFollower (beginLsn : ℕ) (ioOk : Bool) (s : Follower) : Follower :=
  if s.isEnabled then
    { s.seek c (max s.nextToSubmitLsn beginLsn) ioOk with
      nextToSubmitLsn := max s.nextToSubmitLsn beginLsn
      isFollower := true }
  else { s with isFollower := true }

def nextLog (ioOk : Bool) (s : Follower) : Follower :=
  let out := s.iterator.next c (s.env c ioOk) s.replayablePoint
  { s with
    iterator := out.it
    nextToSubmitScn :=
      if out.ret = .iterEnd ∧ scnIsValid s.replayablePoint ∧ scnIsValid out.nextMinScn ∧
        s.nextToSubmitScn ≤ out.nextMinScn then out.nextMinScn
      else s.nextToSubmitScn }

/-- `has_remained_submit_log`, at the head of the loop of `handle_submit_task_`. -/
def hasRemainedSubmitLog (ioOk : Bool) (s : Follower) : Follower :=
  let s' := if s.iterator.currEntrySize = 0 then s.nextLog c ioOk else s
  { s' with isFetching := s'.iterator.currEntrySize ≠ 0 }

/-- The end of `fetch_and_submit_single_log_`: `update_submit_log_meta_info`, then `next_log`. -/
def iterateNextLog (lsn : ℕ) (e : LogEntry) (ioOk : Bool) (s : Follower) : Follower :=
  if lsn + e.size ≤ s.nextToSubmitLsn then s
  else if scnLe (scnInc e.scn) s.nextToSubmitScn then { s with nextToSubmitLsn := lsn + e.size }
  else
    { s with nextToSubmitLsn := lsn + e.size, nextToSubmitScn := scnInc e.scn }.nextLog c ioOk

def push (lsn : ℕ) (e : LogEntry) (s : Follower) : Follower :=
  { s with pushed := s.pushed ++ [⟨s.replayablePoint, lsn, e⟩] }

/-- `fetch_and_submit_single_log_`. Logs below the base SCN and padding logs are passed over; a task
may fail to be built or submitted, and the log is then fetched again later. -/
def fetchAndSubmitSingleLog (submitted ioOk : Bool) (s : Follower) : Follower :=
  let s := { s with isFetching := false }
  match s.iterator.currEntry with
  | none => s
  | some e =>
    if e.scn < s.baseScn ∨ isPaddingLog e = true then
      s.iterateNextLog c s.iterator.currReadLsn e ioOk
    else if submitted then
      (s.push s.iterator.currReadLsn e).iterateNextLog c s.iterator.currReadLsn e ioOk
    else s

/-! ## The machine -/

def append (g : LogGroup) (s : Follower) : Follower :=
  { s with log := { s.log with groups := s.log.groups ++ [g] } }

/-- Logs are committed: the file end moves behind the first `n` groups. -/
def growFileEnd (n : ℕ) (s : Follower) : Follower :=
  { s with fileEnd := s.log.base + groupsSize (s.log.groups.take n) }

/-- The steps; an iterator is set to LSNs that meet `ok`. -/
inductive Step (ok : Follower → ℕ → Prop) : Follower → Follower → Prop
  | append {s : Follower} (g : LogGroup) (hwf : g.Wf c s.log.tail)
      (hasc : Ascending (entriesOf s.log.groups ++ g.entries)) : Step ok s (s.append g)
  | growFileEnd {s : Follower} (n : ℕ) (h : s.fileEnd ≤ (s.growFileEnd n).fileEnd) :
      Step ok s (s.growFileEnd n)
  | advanceReplayablePoint {s : Follower} (scn : ℕ) (h : s.replayablePoint ≤ scn) :
      Step ok s { s with replayablePoint := scn }
  | enable {s : Follower} (baseLsn baseScn : ℕ) (ioOk : Bool) (hdis : s.isEnabled = false)
      (hlock : s.isFetching = false) (hscn : scnIsValid baseScn) (hok : ok s baseLsn) :
      Step ok s (s.enable c baseLsn baseScn ioOk)
  | disable {s : Follower} (hlock : s.isFetching = false) : Step ok s s.disable
  | switchToLeader {s} : Step ok s s.switchToLeader
  | switchToFollower {s : Follower} (beginLsn : ℕ) (ioOk : Bool) (hlock : s.isFetching = false)
      (hok : s.isEnabled = true → ok s (max s.nextToSubmitLsn beginLsn)) :
      Step ok s (s.switchToFollower c beginLsn ioOk)
  | setSubmitBlocked {s} (blocked : Bool) :
      Step ok s { s with isSubmitBlocked := blocked }
  | hasRemainedSubmitLog {s : Follower} (ioOk : Bool) (hen : s.isEnabled = true)
      (hrole : s.isFollower = true) (hblock : s.isSubmitBlocked = false)
      (hlock : s.isFetching = false) : Step ok s (s.hasRemainedSubmitLog c ioOk)
  | fetchAndSubmitSingleLog {s : Follower} (submitted ioOk : Bool) (hfetch : s.isFetching = true) :
      Step ok s (s.fetchAndSubmitSingleLog c isPaddingLog submitted ioOk)

structure Init (s : Follower) : Prop where
  wf : s.log.Wf c
  fileEnd : ∃ n, s.fileEnd = s.log.base + groupsSize (s.log.groups.take n)
  modeVersion : palfInitialProposalId ≤ s.modeVersion
  modeVersion_valid : s.modeVersion ≠ invalidProposalId
  isEnabled : s.isEnabled = false
  isFetching : s.isFetching = false
  pushed : s.pushed = []

/-- An LSN of the log at which a group or an entry begins, or its end. -/
def SeekAt (s : Follower) (lsn : ℕ) : Prop := ∃ raw rest, Cursor c s.log lsn raw (-1) rest

/-- The LSN is not inside a group written raw, and the entry there, if it can be read, is not above
the replayable point. -/
structure SeekOk (s : Follower) (lsn : ℕ) : Prop where
  cursor : ∃ rest, Cursor c s.log lsn false (-1) rest
  replayable : ∀ x, (s.log.entries.filter (lsn ≤ ·.lsn)).head? = some x →
    x.lsn + x.entry.size ≤ s.fileEnd → ¬ x.Held s.replayablePoint

end Follower

/-- A replica with its submit task, in which iterators are set to LSNs that meet `ok`. -/
def submission (c : Checksums) (isPaddingLog : LogEntry → Bool) (ok : Follower → ℕ → Prop) :
    Machine Follower where
  init s := s.Init c
  step s s' := s.Step c isPaddingLog ok s'

/-! ## Seeks that are safe -/

namespace Follower

variable {c : Checksums} {isPaddingLog : LogEntry → Bool} {s s' : Follower} {lsn : ℕ} {ioOk : Bool}

/-- A pushed log is an entry of the log that was replayable when it was pushed. -/
def Replayable (s : Follower) (p : PushedLog) : Prop :=
  ∃ x ∈ s.log.entries, x.lsn = p.lsn ∧ x.entry = p.entry ∧ ¬ x.Held p.replayablePoint

/-- The iterator of an enabled submit task: it is ready, and the entry it stands at is
replayable. -/
structure IterOk (c : Checksums) (s : Follower) : Prop where
  ready : ∃ rest, (s.iterator.prepare (s.env c true)).Ready c s.log rest
  mode : s.iterator.initModeVersion ≤ s.modeVersion
  current : s.iterator.currEntrySize ≠ 0 → ∃ e, s.iterator.currEntry = some e ∧
    s.Replayable ⟨s.replayablePoint, s.iterator.currReadLsn, e⟩

structure Inv (c : Checksums) (s : Follower) : Prop where
  wf : s.log.Wf c
  fileEnd : ∃ done todo, s.log.groups = done ++ todo ∧ s.fileEnd = s.log.base + groupsSize done
  mode : palfInitialProposalId ≤ s.modeVersion
  mode_valid : s.modeVersion ≠ invalidProposalId
  iter : s.isEnabled = true → s.IterOk c
  fetching : s.isFetching = true → s.isEnabled = true ∧ s.iterator.currEntrySize ≠ 0
  pushed : ∀ p ∈ s.pushed, s.Replayable p

theorem Inv.envOf (h : Inv c s) (ioOk : Bool) : EnvOf c s.log (s.env c ioOk) :=
  ⟨rfl, rfl, h.fileEnd⟩

theorem Init.inv (h : s.Init c) : Inv c s := by
  obtain ⟨n, hn⟩ := h.fileEnd
  refine ⟨h.wf, ⟨_, _, (take_append_drop n _).symm, hn⟩, h.modeVersion, h.modeVersion_valid,
    fun hen => ?_, fun hf => ?_, fun p hp => ?_⟩
  · rw [h.isEnabled] at hen
    exact absurd hen Bool.false_ne_true
  · rw [h.isFetching] at hf
    exact absurd hf Bool.false_ne_true
  · rw [h.pushed] at hp
    cases hp

theorem Inv.iterOk_next {it : LogIterator} {rest rp} (h : Inv c s)
    (ioOk : Bool) (hready : (it.prepare (s.env c ioOk)).Ready c s.log rest)
    (hmode : it.initModeVersion ≤ s.modeVersion)
    (hrp : ∀ x xs, rest = x :: xs → x.lsn + x.entry.size ≤ s.fileEnd → ¬ x.Held rp →
      ¬ x.Held s.replayablePoint) :
    IterOk c { s with iterator := (it.next c (s.env c ioOk) rp).it } := by
  have hinit : (it.prepare (s.env c ioOk)).initModeVersion = s.modeVersion :=
    prepare_initModeVersion hmode h.mode_valid
  obtain ⟨hmode', hnext⟩ := Ready.next hready (h.envOf ioOk) h.wf.tile hinit rp
  have hprep : (it.next c (s.env c ioOk) rp).it.prepare (s.env c true) =
      (it.next c (s.env c ioOk) rp).it.advance := prepare_of_eq hmode'
  rcases hnext with ⟨hsize, hready'⟩ | ⟨x, xs, hrest, hheld, hend, hlsn, hentry, hready'⟩
  · exact ⟨⟨rest, hprep ▸ hready'⟩, hmode'.le, fun hne => absurd hsize hne⟩
  refine ⟨⟨xs, hprep ▸ hready'⟩, hmode'.le, fun _ => ⟨x.entry, hentry, x, ?_, hlsn.symm, rfl, ?_⟩⟩
  · have hmem : x ∈ rest := hrest ▸ mem_cons_self
    rw [hready.cursor.rest_eq] at hmem
    exact mem_of_mem_filter hmem
  · exact hrp x xs hrest hend hheld

/-! ### The submit task -/

theorem Inv.nextLog (h : Inv c s) (hen : s.isEnabled = true) (hf : s.isFetching = false)
    (ioOk : Bool) : Inv c (s.nextLog c ioOk) := by
  obtain ⟨rest, hready⟩ := (h.iter hen).ready
  have hiter := h.iterOk_next ioOk hready (h.iter hen).mode fun x xs _ _ hheld => hheld
  exact { h with
    iter := fun _ => { hiter with }
    fetching := fun hf' => absurd (hf.symm.trans hf') Bool.false_ne_true }

theorem Inv.setFields (h : Inv c s) (role blocked : Bool) (lsn scn : ℕ) :
    Inv c { s with
      isFollower := role
      isSubmitBlocked := blocked
      nextToSubmitLsn := lsn
      nextToSubmitScn := scn } :=
  { h with iter := fun hen => { h.iter hen with } }

open Follower

theorem Inv.iterateNextLog (h : Inv c s) (hen : s.isEnabled = true) (hf : s.isFetching = false)
    (lsn : ℕ) (e : LogEntry) (ioOk : Bool) : Inv c (s.iterateNextLog c lsn e ioOk) := by
  unfold Follower.iterateNextLog
  split_ifs
  · exact h
  · exact h.setFields _ _ _ _
  exact (h.setFields s.isFollower s.isSubmitBlocked (lsn + e.size) (scnInc e.scn)).nextLog
    hen hf ioOk

theorem Inv.push {e} (h : Inv c s)
    (hr : s.Replayable ⟨s.replayablePoint, lsn, e⟩) : Inv c (s.push lsn e) := by
  refine { h with iter := fun hen => { h.iter hen with }, pushed := fun p hp => ?_ }
  rcases mem_append.mp hp with hp | hp
  · exact h.pushed p hp
  rw [mem_singleton.mp hp]
  exact hr

theorem Inv.endFetch (h : Inv c s) : Inv c { s with isFetching := false } :=
  { h with iter := fun hen => { h.iter hen with }, fetching := nofun }

theorem Inv.fetchAndSubmitSingleLog (h : Inv c s) (hf : s.isFetching = true)
    (submitted ioOk : Bool) : Inv c (s.fetchAndSubmitSingleLog c isPaddingLog submitted ioOk) := by
  obtain ⟨hen, hsize⟩ := h.fetching hf
  obtain ⟨e, he, hr⟩ := (h.iter hen).current hsize
  unfold Follower.fetchAndSubmitSingleLog
  simp only [he]
  split_ifs
  · exact h.endFetch.iterateNextLog hen rfl _ _ _
  · exact (h.endFetch.push hr).iterateNextLog hen rfl _ _ _
  · exact h.endFetch

theorem Inv.hasRemainedSubmitLog (h : Inv c s) (hen : s.isEnabled = true)
    (hf : s.isFetching = false) (ioOk : Bool) : Inv c (s.hasRemainedSubmitLog c ioOk) := by
  have hstart : ∀ {s : Follower}, Inv c s → s.isEnabled = true →
      Inv c { s with isFetching := s.iterator.currEntrySize ≠ 0 } := fun {s} h hen =>
    { h with
      iter := fun hen => { h.iter hen with }, fetching := fun hf => ⟨hen, of_decide_eq_true hf⟩ }
  unfold Follower.hasRemainedSubmitLog
  split_ifs
  · exact hstart (h.nextLog hen hf ioOk) hen
  · exact hstart h hen

/-! ### Seeks -/

theorem Inv.seek (h : Inv c s) (hok : s.SeekOk c lsn) (ioOk : Bool) :
    (s.seek c lsn ioOk).IterOk c := by
  obtain ⟨rest, hcursor⟩ := hok.cursor
  apply h.iterOk_next ioOk (ready_init h.mode h.mode_valid hcursor) h.mode
  intro x xs hrest hend _
  refine hok.replayable x ?_ hend
  rw [← hcursor.rest_eq, hrest]
  rfl

theorem Inv.enable (h : Inv c s) {baseLsn baseScn} (hf : s.isFetching = false)
    (hok : s.SeekOk c baseLsn) (ioOk : Bool) : Inv c (s.enable c baseLsn baseScn ioOk) := by
  have hiter := h.seek hok ioOk
  exact { h with
    iter := fun _ => { hiter with }
    fetching := fun hf' => absurd (hf.symm.trans hf') Bool.false_ne_true }

theorem Inv.switchToFollower (h : Inv c s) {beginLsn} (hf : s.isFetching = false)
    (hok : s.isEnabled = true → s.SeekOk c (max s.nextToSubmitLsn beginLsn)) (ioOk : Bool) :
    Inv c (s.switchToFollower c beginLsn ioOk) := by
  unfold Follower.switchToFollower
  split_ifs with hen
  · have hiter := h.seek (hok hen) ioOk
    exact { h with
      iter := fun _ => { hiter with }
      fetching := fun hf' => absurd (hf.symm.trans hf') Bool.false_ne_true }
  · exact { h with iter := fun hen' => absurd hen' hen }

/-! ### The log -/

theorem Replayable.append {p} (h : s.Replayable p) (g : LogGroup) : (s.append g).Replayable p := by
  obtain ⟨x, hx, hp⟩ := h
  refine ⟨x, ?_, hp⟩
  rw [PalfLog.entries, Follower.append, placeGroups_append]
  exact List.mem_append_left _ hx

theorem Inv.append {g : LogGroup} (h : Inv c s) (hwf : g.Wf c s.log.tail)
    (hasc : Ascending (entriesOf s.log.groups ++ g.entries)) : Inv c (s.append g) := by
  obtain ⟨done, todo, hgroups, hfile⟩ := h.fileEnd
  refine ⟨⟨groupsTile_append.mpr ⟨h.wf.tile, hwf, trivial⟩, ?_⟩, ⟨done, todo ++ [g], ?_, hfile⟩,
    h.mode, h.mode_valid, fun hen => ?_, h.fetching, fun p hp => (h.pushed p hp).append g⟩
  · simpa [Follower.append] using hasc
  · rw [← List.append_assoc, ← hgroups]
    rfl
  obtain ⟨rest, hready⟩ := (h.iter hen).ready
  refine ⟨hready.append [g], (h.iter hen).mode, fun hsize => ?_⟩
  obtain ⟨e, he, hr⟩ := (h.iter hen).current hsize
  exact ⟨e, he, hr.append g⟩

theorem Inv.advanceReplayablePoint {scn} (h : Inv c s) (hle : s.replayablePoint ≤ scn) :
    Inv c { s with replayablePoint := scn } := by
  refine { h with iter := fun hen => { h.iter hen with current := fun hsize => ?_ } }
  obtain ⟨e, he, x, hx, hlsn, hentry, hheld⟩ := (h.iter hen).current hsize
  exact ⟨e, he, x, hx, hlsn, hentry, fun hc => hheld ⟨hc.1, lt_of_le_of_lt hle hc.2⟩⟩

theorem Inv.step (h : Inv c s) (hstep : s.Step c isPaddingLog (SeekOk c) s') : Inv c s' := by
  cases hstep with
  | append g hwf hasc => exact h.append hwf hasc
  | growFileEnd n _ =>
    exact { h with
      fileEnd := ⟨_, _, (take_append_drop n _).symm, rfl⟩, iter := fun hen => { h.iter hen with } }
  | advanceReplayablePoint scn hle => exact h.advanceReplayablePoint hle
  | enable baseLsn baseScn ioOk _ hlock _ hok => exact h.enable hlock hok ioOk
  | disable hlock =>
    exact { h with
      iter := nofun, fetching := fun hf => absurd (hlock.symm.trans hf) Bool.false_ne_true }
  | switchToLeader | setSubmitBlocked blocked => exact h.setFields _ _ _ _
  | switchToFollower beginLsn ioOk hlock hok => exact h.switchToFollower hlock hok ioOk
  | hasRemainedSubmitLog ioOk hen _ _ hlock => exact h.hasRemainedSubmitLog hen hlock ioOk
  | fetchAndSubmitSingleLog submitted ioOk hfetch =>
    exact h.fetchAndSubmitSingleLog hfetch submitted ioOk

end Follower

/-- **No log is pushed above the replayable point**, if iterators are only set to LSNs outside of
groups written raw, where the entry that can be read is replayable. -/
theorem pushed_replayable {c : Checksums} {isPaddingLog : LogEntry → Bool} {s : Follower}
    (h : (submission c isPaddingLog (Follower.SeekOk c)).Reachable s) :
    ∀ p ∈ s.pushed, s.Replayable p := by
  have hinv : Follower.Inv c s :=
    Machine.Reachable.of_keeps (fun s hs => Follower.Init.inv hs)
      (fun s s' hs hstep => Follower.Inv.step hs hstep) h
  exact hinv.pushed

/-! ### A run -/

/-- A follower with an entry that was appended and two that were written raw. -/
def mixedFollower (replayablePoint : ℕ) : Follower where
  log := mixedLog
  fileEnd := 256
  modeVersion := 0
  replayablePoint := replayablePoint
  isEnabled := false
  isFollower := true
  isSubmitBlocked := true
  iterator := .init 0
  nextToSubmitLsn := 0
  nextToSubmitScn := 0
  baseScn := 0
  isFetching := false
  pushed := []

theorem mixedFollower_init (replayablePoint : ℕ) :
    (mixedFollower replayablePoint).Init sumChecksums :=
  ⟨mixedLog_wf, ⟨2, rfl⟩, le_rfl, show (0 : ℤ) ≠ invalidProposalId by decide, rfl, rfl, rfl⟩

/-- A round of the submit task. -/
def Follower.round (s : Follower) : Follower :=
  (s.hasRemainedSubmitLog sumChecksums true).fetchAndSubmitSingleLog sumChecksums (fun _ => false)
    true true

/-- Two logs are pushed, the third one waits for the replayable point. -/
def waitingFollower : Follower :=
  ((((mixedFollower 12).enable sumChecksums 0 0 true).round).round).hasRemainedSubmitLog
    sumChecksums true

/-- The replayable point has moved on. -/
def resumedFollower : Follower := { waitingFollower with replayablePoint := 25 }.round

theorem round_reachable {ok : Follower → ℕ → Prop} {s}
    (h : (submission sumChecksums (fun _ => false) ok).Reachable s) (hen : s.isEnabled = true)
    (hrole : s.isFollower = true) (hblock : s.isSubmitBlocked = false)
    (hlock : s.isFetching = false)
    (hf : (s.hasRemainedSubmitLog sumChecksums true).isFetching = true) :
    (submission sumChecksums (fun _ => false) ok).Reachable s.round :=
  .step (.step h (.hasRemainedSubmitLog true hen hrole hblock hlock))
    (.fetchAndSubmitSingleLog true true hf)

theorem mixedFollower_seekOk : (mixedFollower 12).SeekOk sumChecksums 0 := by
  refine ⟨⟨_, Cursor.boundary (nil_append _).symm (.inl rfl)⟩, ?_⟩
  intro x hx _ hheld
  have hhead : (((mixedFollower 12).log.entries.filter (0 ≤ ·.lsn)).head?).map
      PlacedEntry.isRawWrite = some false := by decide +kernel
  rw [hx, Option.map_some, hheld.1] at hhead
  cases hhead

theorem resumedFollower_reachable :
    (submission sumChecksums (fun _ => false) (Follower.SeekOk sumChecksums)).Reachable
      resumedFollower := by
  have h₁ : (submission sumChecksums (fun _ => false) (Follower.SeekOk sumChecksums)).Reachable
      ((mixedFollower 12).enable sumChecksums 0 0 true) :=
    .step (.init (mixedFollower_init 12))
      (.enable 0 0 true rfl rfl (Nat.zero_le _) mixedFollower_seekOk)
  have h₂ := round_reachable h₁ rfl rfl rfl rfl (by decide +kernel)
  have h₃ := round_reachable h₂ (by decide +kernel) (by decide +kernel) (by decide +kernel)
    (by decide +kernel) (by decide +kernel)
  have h₄ : (submission sumChecksums (fun _ => false) (Follower.SeekOk sumChecksums)).Reachable
      waitingFollower :=
    .step h₃ (.hasRemainedSubmitLog true (by decide +kernel) (by decide +kernel)
      (by decide +kernel) (by decide +kernel))
  have h₅ : (submission sumChecksums (fun _ => false) (Follower.SeekOk sumChecksums)).Reachable
      { waitingFollower with replayablePoint := 25 } :=
    .step h₄ (.advanceReplayablePoint 25 (by decide +kernel))
  exact round_reachable h₅ (by decide +kernel) (by decide +kernel) (by decide +kernel)
    (by decide +kernel) (by decide +kernel)

theorem pushed_replayable_resumedFollower :
    resumedFollower.pushed = [⟨12, 56, ⟨5, 16, 3⟩⟩, ⟨12, 160, ⟨10, 16, 4⟩⟩,
      ⟨25, 208, ⟨20, 16, 5⟩⟩] ∧ ∀ p ∈ resumedFollower.pushed, resumedFollower.Replayable p :=
  ⟨by decide +kernel, pushed_replayable resumedFollower_reachable⟩

/-- **Enabling replay pushes a log above the replayable point.** The replayable point is 7, and the
first log behind the base LSN was written raw with the SCN 10. -/
theorem enable_pushes_unreplayable :
    ∃ s, (submission sumChecksums (fun _ => false) (Follower.SeekAt sumChecksums)).Reachable s ∧
      ¬ ∀ p ∈ s.pushed, s.Replayable p := by
  have hseek : (mixedFollower 7).SeekAt sumChecksums 104 := by
    have hgroups : mixedLog.groups = [⟨false, false, 1, 1, [⟨5, 16, 3⟩]⟩] ++
        [⟨true, false, 1, 2, [⟨10, 16, 4⟩, ⟨20, 16, 5⟩]⟩] := rfl
    exact ⟨false, _, Cursor.boundary hgroups (.inl rfl)⟩
  have h₁ : (submission sumChecksums (fun _ => false) (Follower.SeekAt sumChecksums)).Reachable
      ((mixedFollower 7).enable sumChecksums 104 0 true) :=
    .step (.init (mixedFollower_init 7)) (.enable 104 0 true rfl rfl (Nat.zero_le _) hseek)
  refine ⟨_, round_reachable h₁ rfl rfl rfl rfl (by decide +kernel), fun h => ?_⟩
  obtain ⟨x, hx, hlsn, -, hheld⟩ := h ⟨7, 160, ⟨10, 16, 4⟩⟩ (by decide +kernel)
  have hraw : ∀ x ∈ ((mixedFollower 7).enable sumChecksums 104 0 true).round.log.entries,
      x.lsn = 160 → x.isRawWrite = true ∧ 7 < x.entry.scn := by decide +kernel
  exact hheld (hraw x hx hlsn)

end OceanBase.Replay
