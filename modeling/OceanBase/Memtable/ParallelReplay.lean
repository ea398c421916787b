import OceanBase.Palf.Scn

/-!
# Serial and parallel replay into one list of callbacks

The serial logs of a transaction, up to `serial_final_scn_`, and its parallel logs, which come after
them, are replayed at the same time into one `ObTxCallbackList`. Callbacks of parallel logs go to
the tail, those of serial logs in front of `parallel_start_pos_`. A callback stands for its SCN, and
the list is kept cut at this position, which is `NULL` iff nothing follows it.

`replay_fail` walks backwards, and `callback_` moves `parallel_start_pos_` to the callback it visits
next. If the first parallel log fails, this is a serial one, and the serial log that comes next goes
in front of it. Nothing else can go wrong (`replayed_inOrder_iff`).
-/

namespace OceanBase.Memtable

open Palf List

/-- The callbacks before `parallel_start_pos_`, and those from there on. -/
structure CutCallbacks where
  before : List ℕ
  fromStart : List ℕ

namespace CutCallbacks

variable (c : CutCallbacks)

def callbacks : List ℕ := c.before ++ c.fromStart

/-- `callback_` does not remove what was replayed in parallel before the serial part is through. -/
def refuses (syncScn : ℕ) (skipChecksum serialFinal : Bool) (scn : ℕ) : Bool :=
  c.fromStart.head?.any (· ≤ scn) && !skipChecksum && !serialFinal && decide (scn ≤ syncScn)

/-- `callback_` removes `n` callbacks from the head; `parallel_start_pos_` moves on. -/
def removeFirst (n : ℕ) : CutCallbacks := ⟨c.before.drop n, c.fromStart.drop (n - c.before.length)⟩

/-- `callback_` with `ObRemoveCallbacksForFastCommitFunctor`: how many it removes, after `n`. -/
def fastCommitLoop (refuses : CutCallbacks → ℕ → Bool) (rightBound : ℕ) :
    List ℕ → ℕ → ℤ → ℕ → ℕ
  | [], n, _, _ => n
  | scn :: scns, n, needRemoveCount, lastScn =>
    if scn = minScn ∨ rightBound < scn ∨ needRemoveCount ≤ 0 ∧ scn ≠ lastScn ∨
        refuses (c.removeFirst n) scn then n
    else fastCommitLoop refuses rightBound scns (n + 1) (needRemoveCount - 1) scn

/-- `callback_` removes the last callback; `parallel_start_pos_` moves back if this is it. -/
def removeLast : CutCallbacks :=
  match c.fromStart with
  | [] => ⟨c.before.dropLast, []⟩
  | [_] => ⟨c.before.dropLast, c.before.getLast?.toList⟩
  | start => ⟨c.before, start.dropLast⟩

/-- `callback_` with the functor of `replay_fail`, which goes back over the callbacks of its log. -/
def revertLoop (refuses : CutCallbacks → Bool) (scn : ℕ) : ℕ → CutCallbacks → CutCallbacks
  | 0, c => c
  | n + 1, c =>
    if c.callbacks.getLast? = some scn ∧ scn ≠ minScn ∧ scn ≠ maxScn ∧ refuses c = false then
      revertLoop refuses scn n c.removeLast
    else c

end CutCallbacks

/-- `ObTxCallbackList`, and `serial_sync_scn_` and `serial_final_scn_` of its manager. -/
structure ReplayList extends CutCallbacks where
  length : ℤ
  appended : ℤ
  removed : ℤ
  syncScn : ℕ
  serialSyncScn : ℕ
  serialFinalScn : ℕ

namespace ReplayList

/-- One call in replay: a callback of a log, the end of a log, or a fast commit by the thread that
replays serial or parallel logs. -/
inductive Act
  | append (scn : ℕ)
  | replaySucc (scn : ℕ)
  | replayFail (scn : ℕ) (skipChecksum : Bool)
  | fastCommit (parallel : Bool) (stopScn fastCommitCallbackCount : ℕ) (skipChecksum : Bool)

variable (s : ReplayList)

def isSerialFinal : Bool := s.serialFinalScn = s.serialSyncScn

/-- The SCN of the callback a callback is appended to; the head has none. -/
def appendPos (parallelReplay serialFinal : Bool) : Option ℕ :=
  if parallelReplay || serialFinal || s.fromStart.isEmpty then s.callbacks.getLast?
  else s.before.getLast?

def appendCallback (scn : ℕ) (parallelReplay serialFinal : Bool) : ReplayList :=
  let s' := { s with length := s.length + 1, appended := s.appended + 1 }
  if (s.appendPos parallelReplay serialFinal).any (scn < ·) then s
  else if (parallelReplay || serialFinal) && !s.fromStart.isEmpty || parallelReplay &&
    !serialFinal then { s' with fromStart := s.fromStart ++ [scn] }
  else { s' with before := s.before ++ [scn] }

open CutCallbacks

/-- The walk of `replay_fail`, which for a serial log begins in front of `parallel_start_pos_`. -/
def revert (scn : ℕ) (serialReplay skipChecksum : Bool) : CutCallbacks :=
  let refuses c := CutCallbacks.refuses c s.syncScn skipChecksum s.isSerialFinal scn
  if serialReplay && !s.fromStart.isEmpty then
    ⟨(CutCallbacks.revertLoop (fun _ => refuses s.toCutCallbacks) scn s.before.length
      ⟨s.before, []⟩).before, s.fromStart⟩
  else s.revertLoop refuses scn s.callbacks.length

/-- `callback_` has left these callbacks. -/
def removeTo (c : CutCallbacks) : ReplayList :=
  let removeCount : ℤ := s.callbacks.length - c.callbacks.length
  { s with
    toCutCallbacks := c, length := s.length - removeCount, removed := s.removed + removeCount }

/-- `replay_fail` takes back what was counted. -/
def replayFail (c : CutCallbacks) : ReplayList :=
  let removeCount : ℤ := s.callbacks.length - c.callbacks.length
  { s.removeTo c with
    appended := s.appended - removeCount, removed := (s.removeTo c).removed - removeCount }

def removeCallbacksForFastCommit (stopScn fastCommitCallbackCount : ℕ) (skipChecksum : Bool) :
    ReplayList :=
  let rightBound := if s.syncScn ≠ minScn then min stopScn s.syncScn else stopScn
  s.removeTo (s.removeFirst (s.fastCommitLoop
    (fun c => c.refuses s.syncScn skipChecksum s.isSerialFinal) rightBound s.callbacks 0
    (s.length - (fastCommitCallbackCount + 1) / 2) minScn))

def step : Act → ReplayList
  | .append scn => s.appendCallback scn (s.serialFinalScn < scn) s.isSerialFinal
  | .replaySucc scn =>
    if s.serialFinalScn < scn then { s with syncScn := max s.syncScn scn }
    else
      { s with
        serialSyncScn := scn
        syncScn := if scn = s.serialFinalScn then max s.syncScn scn else s.syncScn }
  | .replayFail scn skipChecksum =>
    s.replayFail (s.revert scn (scn ≤ s.serialFinalScn) skipChecksum)
  | .fastCommit parallel stopScn count skipChecksum =>
    s.removeCallbacksForFastCommit
      (if parallel && !skipChecksum && !s.isSerialFinal then s.serialSyncScn else stopScn) count
      skipChecksum

def run (serialFinalScn : ℕ) (as : List Act) : ReplayList :=
  as.foldl step ⟨⟨[], []⟩, 0, 0, 0, minScn, minScn, serialFinalScn⟩

/-- A log comes after the logs of its kind that are replayed. -/
def admits : Act → Bool
  | .append scn | .replaySucc scn | .replayFail scn _ =>
    if s.serialFinalScn < scn then s.syncScn < scn && scn < maxScn else s.serialSyncScn < scn
  | .fastCommit .. => true

/-- If the log fails, not all callbacks from `parallel_start_pos_` on are its own, or none is before
them. -/
def keepsStart : Act → Bool
  | .replayFail scn _ => s.before.isEmpty || s.fromStart.isEmpty || s.fromStart.any (· ≠ scn)
  | _ => true

/-- The callbacks are in log order, `parallel_start_pos_` is the first parallel one or `NULL`, and
the counters agree. -/
structure InOrder : Prop where
  sorted : s.callbacks.Pairwise (· ≤ ·)
  start_first : ∀ scn ∈ s.fromStart.head?,
    s.serialFinalScn < scn ∧ ∀ scn ∈ s.before, scn ≤ s.serialFinalScn
  counted : s.length + s.removed = s.appended

/-- What is kept: while serial logs come, nothing before `parallel_start_pos_` is parallel even if
it is `NULL`. -/
structure Inv : Prop where
  sorted : s.callbacks.Pairwise (· ≤ ·)
  parallel : ∀ scn ∈ s.fromStart, s.serialFinalScn < scn
  serial : s.fromStart ≠ [] ∨ s.isSerialFinal = false → ∀ scn ∈ s.before, scn ≤ s.serialFinalScn
  counted : s.length + s.removed = s.appended

end ReplayList

/-! ## Walking backwards -/

namespace CutCallbacks

variable {refuses : CutCallbacks → Bool} {scn n : ℕ} {c : CutCallbacks}

/-- The log does not own all callbacks from the start on, or none is before them. -/
def StartStays (scn : ℕ) (c : CutCallbacks) : Prop :=
  c.before = [] ∨ c.fromStart = [] ∨ ∃ x ∈ c.fromStart, x ≠ scn

theorem StartStays.removeLast (h : c.StartStays scn) (hlast : c.callbacks.getLast? = some scn) :
    c.removeLast.before <+ c.before ∧ c.removeLast.fromStart <+ c.fromStart ∧
      c.removeLast.StartStays scn := by
  obtain ⟨before, - | ⟨x, - | ⟨y, start⟩⟩⟩ := c
  · exact ⟨dropLast_sublist _, .refl _, .inr (.inl rfl)⟩
  · -- the start itself is removed, so nothing is before it
    obtain rfl : x = scn := by simpa [callbacks] using hlast
    obtain rfl : before = [] := by simpa [StartStays] using h
    exact ⟨.refl _, nil_sublist _, .inl rfl⟩
  refine ⟨.refl _, dropLast_sublist _, h.imp_right fun h => .inr ?_⟩
  obtain ⟨z, hz, hne⟩ := h.resolve_left (cons_ne_nil _ _)
  refine ⟨z, mem_dropLast_of_mem_of_ne_getLast? hz fun heq => hne ?_, hne⟩
  rw [callbacks, getLast?_append_of_ne_nil _ (cons_ne_nil _ _), ← heq] at hlast
  exact Option.some.inj hlast

theorem StartStays.revertLoop (h : c.StartStays scn) :
    (c.revertLoop refuses scn n).before <+ c.before ∧
      (c.revertLoop refuses scn n).fromStart <+ c.fromStart := by
  induction n generalizing c with
  | zero => exact ⟨.refl _, .refl _⟩
  | succ n ih =>
  unfold revertLoop
  split
  · rename_i hif
    obtain ⟨hb, hs, h⟩ := h.removeLast hif.1
    exact ⟨(ih h).1.trans hb, (ih h).2.trans hs⟩
  · exact ⟨.refl _, .refl _⟩

theorem revertLoop_passes (hr : ∀ c, refuses c = false) (hscn : scn ≠ minScn ∧ scn ≠ maxScn)
    {b start y} (hy : y ≠ scn) (hne : start ≠ []) (hall : ∀ x ∈ start, x = scn)
    (hn : start.length ≤ n) : revertLoop refuses scn n ⟨b ++ [y], start⟩ = ⟨b, [y]⟩ := by
  induction n generalizing start with
  | zero => exact absurd (length_eq_zero_iff.mp (Nat.le_zero.mp hn)) hne
  | succ n ih =>
  have hlast : ((b ++ [y]) ++ start).getLast? = some scn := by
    rw [getLast?_append_of_ne_nil _ hne, getLast?_eq_some_getLast hne, hall _ (getLast_mem hne)]
  rw [revertLoop, if_pos ⟨hlast, hscn.1, hscn.2, hr _⟩]
  rcases start with - | ⟨x, - | ⟨z, start⟩⟩
  · exact absurd rfl hne
  · -- the walk stops at the callback that is the start now
    have hlast : removeLast ⟨b ++ [y], [x]⟩ = ⟨b, [y]⟩ := by simp [removeLast]
    rw [hlast]
    cases n with
    | zero => rfl
    | succ n => rw [revertLoop, if_neg (by simp [callbacks, hy])]
  · exact ih (by simp) (fun x hx => hall x (dropLast_subset _ hx)) (by simpa using hn)

end CutCallbacks

/-! ## The steps -/

namespace ReplayList

variable {s : ReplayList} {scn : ℕ} {as : List Act}

theorem Inv.inOrder (h : s.Inv) : s.InOrder where
  sorted := h.sorted
  start_first scn hscn := ⟨h.parallel scn (mem_of_mem_head? hscn),
    h.serial (.inl fun hnil => by simp [hnil] at hscn)⟩
  counted := h.counted

theorem Inv.removeTo (h : s.Inv) {c : CutCallbacks} (hb : c.before <+ s.before)
    (hs : c.fromStart <+ s.fromStart) : (s.removeTo c).Inv where
  sorted := h.sorted.sublist (hb.append hs)
  parallel scn hscn := h.parallel scn (hs.mem hscn)
  serial hor scn hscn := by
    refine h.serial (hor.imp_left fun hne hnil => hne ?_) scn (hb.mem hscn)
    rw [hnil] at hs
    exact sublist_nil.mp hs
  counted := by
    have := h.counted
    simp only [ReplayList.removeTo]
    omega

theorem pairwise_concat {l : List ℕ} (hl : l.Pairwise (· ≤ ·))
    (hlast : ¬ l.getLast?.any (scn < ·) = true) : (l ++ [scn]).Pairwise (· ≤ ·) := by
  refine pairwise_append.mpr ⟨hl, pairwise_singleton _ _, fun x hx y hy => ?_⟩
  have hne := ne_nil_of_mem hx
  rw [getLast?_eq_some_getLast hne] at hlast
  have hle : l.getLast hne ≤ scn := by simpa using hlast
  rw [mem_singleton.mp hy]
  exact (hl.rel_getLast hx).trans hle

theorem Inv.append (h : s.Inv) (ha : s.admits (.append scn) = true) :
    (s.step (.append scn)).Inv := by
  have hserial : scn ≤ s.serialFinalScn → s.isSerialFinal = false := fun hle => by
    simp only [admits, not_lt.mpr hle, if_false, decide_eq_true_eq] at ha
    exact decide_eq_false (by omega)
  have hcount : s.length + 1 + s.removed = s.appended + 1 := by
    have := h.counted
    omega
  unfold step appendCallback
  dsimp only
  split
  · exact h
  rename_i hlast
  split
  · -- parallel callbacks are at the tail, or begin there
    have hp : s.serialFinalScn < scn ∧ (s.fromStart ≠ [] ∨ s.isSerialFinal = false) := by grind
    rw [appendPos, if_pos (by simp [hp.1])] at hlast
    refine ⟨?_, fun x hx => ?_, fun _ => h.serial hp.2, hcount⟩
    · rw [CutCallbacks.callbacks, ← append_assoc]
      exact pairwise_concat h.sorted hlast
    · exact (mem_append.mp hx).elim (h.parallel x) fun hx => mem_singleton.mp hx ▸ hp.1
  -- in front of the start, or to the tail if there is none
  have hle : s.fromStart ≠ [] ∨ s.isSerialFinal = false → scn ≤ s.serialFinalScn := by grind
  have hlast : ¬ s.before.getLast?.any (scn < ·) = true := by
    by_cases hnil : s.fromStart = []
    · simpa [appendPos, hnil, CutCallbacks.callbacks] using hlast
    · rwa [appendPos, if_neg (by grind)] at hlast
  obtain ⟨hb, hs, hbs⟩ := pairwise_append.mp h.sorted
  refine ⟨pairwise_append.mpr ⟨pairwise_concat hb hlast, hs, fun x hx y hy => ?_⟩, h.parallel,
    fun hor x hx => ?_, hcount⟩
  · refine (mem_append.mp hx).elim (hbs x · y hy) fun hx => mem_singleton.mp hx ▸ ?_
    exact (hle (.inl (ne_nil_of_mem hy))).trans (h.parallel y hy).le
  · exact (mem_append.mp hx).elim (h.serial hor x) fun hx => mem_singleton.mp hx ▸ hle hor

/-- **Each call** keeps the invariant, unless it takes the start to a callback before it. -/
theorem Inv.step (h : s.Inv) {a} (ha : s.admits a = true) (hk : s.keepsStart a = true) :
    (s.step a).Inv := by
  rcases a with scn | scn | ⟨scn, skip⟩ | ⟨parallel, stopScn, count, skip⟩
  · exact h.append ha
  · rw [ReplayList.step]
    split
    · exact { h with }
    rename_i hp
    simp only [admits, hp, if_false, decide_eq_true_eq] at ha
    exact { h with serial := fun _ => h.serial (.inr (decide_eq_false (by omega))) }
  · have hstays : s.StartStays scn := by
      simpa [CutCallbacks.StartStays, ReplayList.keepsStart, or_assoc] using hk
    have hleft : ∀ serial, (s.removeTo (s.revert scn serial skip)).Inv := fun serial => by
      unfold revert
      dsimp only
      split
      · exact h.removeTo (CutCallbacks.StartStays.revertLoop (.inr (.inl rfl))).1 (.refl _)
      · exact h.removeTo hstays.revertLoop.1 hstays.revertLoop.2
    refine { hleft _ with counted := ?_ }
    have := h.counted
    simp only [ReplayList.step, replayFail, ReplayList.removeTo]
    omega
  · exact h.removeTo (drop_sublist _ _) (drop_sublist _ _)

theorem Inv.keepsStart (h : s.Inv) {a} (ha : s.admits a = true) (hok : (s.step a).InOrder) :
    s.keepsStart a = true := by
  rcases a with _ | _ | ⟨scn, skip⟩ | _
  case replayFail =>
    by_contra hk
    simp only [ReplayList.keepsStart, Bool.or_eq_true, List.isEmpty_iff, any_eq_true,
      decide_eq_true_eq, not_or, not_exists, not_and, not_not] at hk
    obtain ⟨⟨hb, hs⟩, hall⟩ := hk
    obtain ⟨x, hx⟩ := exists_mem_of_ne_nil _ hs
    have hp : s.serialFinalScn < scn := hall x hx ▸ h.parallel x hx
    simp only [admits, if_pos hp, Bool.and_eq_true, decide_eq_true_eq] at ha
    obtain ⟨b, y, hby⟩ := (eq_nil_or_concat' s.before).resolve_left hb
    have hy : y ≤ s.serialFinalScn := h.serial (.inl hs) y (hby ▸ mem_concat_self)
    have hstart := CutCallbacks.revertLoop_passes (n := s.callbacks.length) (b := b)
      (fun c => show c.refuses s.syncScn skip s.isSerialFinal scn = false by
        simp [CutCallbacks.refuses, ha.1]) ⟨(Nat.zero_lt_of_lt hp).ne', ha.2.ne⟩
      (hy.trans_lt hp).ne hs hall (by simp [CutCallbacks.callbacks])
    have hfirst : (s.step (.replayFail scn skip)).fromStart = [y] := by
      rw [← hby] at hstart
      simp only [ReplayList.step, replayFail, ReplayList.removeTo, revert, not_le.mpr hp,
        decide_false, Bool.false_and, Bool.false_eq_true, if_false, hstart]
    exact absurd (hok.start_first y (by rw [hfirst]; rfl)).1 (not_lt.mpr hy)
  all_goals rfl

theorem run_take_succ {n last} (hn : n < as.length) :
    run last (as.take (n + 1)) = (run last (as.take n)).step as[n] := by
  rw [run, take_succ_eq_append_getElem hn, foldl_append]
  rfl

theorem inv_run {last} (ha : ∀ n : Fin as.length, (run last (as.take n)).admits as[n] = true)
    (hk : ∀ n : Fin as.length,
      (run last (as.take n)).Inv → (run last (as.take n)).keepsStart as[n] = true) (n : ℕ) :
    (run last (as.take n)).Inv := by
  induction n with
  | zero => exact ⟨.nil, nofun, fun _ => nofun, rfl⟩
  | succ n ih =>
  by_cases hn : n < as.length
  · rw [run_take_succ hn]
    exact ih.step (ha ⟨n, hn⟩) (hk ⟨n, hn⟩ ih)
  · rwa [take_of_length_le (by omega), ← take_of_length_le (not_lt.mp hn)]

/-- **Replay in order.** If serial logs arrive in SCN order, and parallel logs too, then the list is
in order after every call iff no parallel log fails that owns all callbacks from
`parallel_start_pos_` on while callbacks are before them. -/
theorem replayed_inOrder_iff {serialFinalScn : ℕ} {as : List Act}
    (ha : ∀ n : Fin as.length, (run serialFinalScn (as.take n)).admits as[n] = true) :
    (∀ n, (run serialFinalScn (as.take n)).InOrder) ↔
      ∀ n : Fin as.length, (run serialFinalScn (as.take n)).keepsStart as[n] = true := by
  refine ⟨fun hok => ?_, fun hk n => (inv_run ha (fun n _ => hk n) n).inOrder⟩
  have hkeeps := fun (n : Fin as.length) (hinv : (run serialFinalScn (as.take n)).Inv) =>
    hinv.keepsStart (ha n) (run_take_succ n.2 ▸ hok (n + 1))
  exact fun n => hkeeps n (inv_run ha hkeeps n)

/-- Two serial logs, of which the second one comes late, and a parallel log that fails once. -/
def failedParallel : List Act :=
  [.append 1, .replaySucc 1, .append 5, .replayFail 5 false, .append 5, .append 2]

/-- The second serial log goes in front of the first one. -/
theorem failedParallel_disorder :
    (∀ n : Fin failedParallel.length, (run 3 (failedParallel.take n)).admits failedParallel[n] =
      true) ∧ (run 3 failedParallel).callbacks = [2, 1, 5] ∧ ¬ (run 3 failedParallel).InOrder :=
  ⟨by decide, by decide, fun h => absurd h.sorted (by decide)⟩

/-- The second of two parallel logs fails and is replayed again, a serial log comes late, and the
callbacks are cleaned. -/
theorem replayed_inOrder_failed_second :
    (run 3 ([.append 1, .replaySucc 1, .append 5, .replaySucc 5, .append 7, .replayFail 7 false,
      .append 7, .append 2, .fastCommit true 6 0 false].take 9)).InOrder :=
  (replayed_inOrder_iff (by decide)).mpr (by decide) 9

end ReplayList

end OceanBase.Memtable
