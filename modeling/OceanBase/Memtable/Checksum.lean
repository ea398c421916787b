import OceanBase.Memtable.CallbackList

/-!
# The transaction checksum

The running checksum holds the logged callbacks below `checksum_scn_`, in the order of the list, and
every callback that was logged at or above this SCN is still in the list. An operation that walks
over the list keeps this, whatever it removes, if it stops between two logs: it takes all callbacks
up to some SCN and moves `checksum_scn_` behind that. Each of the functors stops between two logs,
by its bound or, for a fast commit, by going on to the end of the log.

`tx_calc_checksum_all` takes what is left, and that includes the callbacks that are not logged yet:
they go out with the commit log. So the checksum is that of the logged callbacks if all are logged,
and of the logged and the remaining ones otherwise.

## Main results

* `txCalcChecksumAll_eq`
-/

namespace OceanBase.Memtable

open Palf List TxCallbackList Option TransCallback

variable {crcByte : UInt64 → UInt8 → UInt64}

/-! ## The checksum of a list -/

namespace BatchChecksum

theorem value_fillByte (x : BatchChecksum) (b : UInt8) :
    (x.fillByte crcByte b).value crcByte = crcByte (x.value crcByte) b := by
  unfold fillByte
  split
  · simp [value, obCrc64]
  · simp [value, obCrc64]

theorem value_fill (x : BatchChecksum) (bytes : List UInt8) :
    (x.fill crcByte bytes).value crcByte = obCrc64 crcByte (x.value crcByte) bytes := by
  induction bytes generalizing x with
  | nil => rfl
  | cons b bytes ih =>
  have hstep := ih (x.fillByte crcByte b)
  rw [value_fillByte] at hstep
  exact hstep

end BatchChecksum

def bytesOf (cbs : List TransCallback) : List UInt8 := cbs.flatMap TransCallback.bytes

@[simp] theorem bytesOf_append (a b : List TransCallback) :
    bytesOf (a ++ b) = bytesOf a ++ bytesOf b :=
  flatMap_append

/-- The checksum of a list of callbacks, as it is stored. -/
def checksumOf (crcByte : UInt64 → UInt8 → UInt64) (cbs : List TransCallback) : UInt64 :=
  TxCallbackList.nonzero (obCrc64 crcByte 0 (bytesOf cbs))

theorem obCrc64_append (base : UInt64) (a b : List UInt8) :
    obCrc64 crcByte base (a ++ b) = obCrc64 crcByte (obCrc64 crcByte base a) b :=
  foldl_append

/-! ## Walks -/

namespace Functor

variable {F : Functor} {C : ℕ} {w : Walk} {cbs pre suf : List TransCallback}

theorem value_visit (cb : TransCallback) : (F.visit crcByte C w cb).checksumer.value crcByte =
      obCrc64 crcByte (w.checksumer.value crcByte) (if F.counts C cb then cb.bytes else []) := by
  unfold visit
  split <;> split
  all_goals first
    | exact BatchChecksum.value_fill _ _
    | rfl

theorem value_foldl : (pre.foldl (F.visit crcByte C) w).checksumer.value crcByte =
      obCrc64 crcByte (w.checksumer.value crcByte) (bytesOf (pre.filter (F.counts C))) := by
  induction pre generalizing w with
  | nil => rfl
  | cons cb pre ih =>
  rw [foldl_cons, ih, value_visit, ← obCrc64_append, filter_cons]
  split <;> rfl

variable (crcByte) in
/-- **What a walk does**: it takes a first part of the list, up to its end or to a callback that
ends the walk. -/
theorem callbackLoop_eq (hfails : ∀ cb ∈ cbs, F.fails cb = false)
    (hscn : ∀ cb ∈ cbs, cb.scn ≠ minScn) :
    ∃ pre suf, cbs = pre ++ suf ∧ F.callbackLoop crcByte C w cbs =
        (true, pre.foldl (F.visit crcByte C) w, (pre.filter fun cb => !F.removes cb) ++ suf) ∧
      (∀ cb ∈ pre, ∃ w', F.isIterEnd w' cb = false) ∧
      ∀ cb ∈ suf.head?, F.isIterEnd (pre.foldl (F.visit crcByte C) w) cb = true := by
  induction cbs generalizing w with
  | nil => exact ⟨[], [], rfl, rfl, nofun, nofun⟩
  | cons cb cbs ih =>
  unfold callbackLoop
  rw [if_neg (hscn cb mem_cons_self)]
  split
  case isTrue hend =>
    refine ⟨[], cb :: cbs, rfl, rfl, nofun, ?_⟩
    rintro _ ⟨⟩
    exact hend
  case isFalse hend =>
  rw [if_neg (by simp [hfails cb mem_cons_self])]
  obtain ⟨pre, suf, rfl, heq, hpre, hsuf⟩ := ih (w := F.visit crcByte C w cb)
    (fun a ha => hfails a (mem_cons_of_mem _ ha)) fun a ha => hscn a (mem_cons_of_mem _ ha)
  refine ⟨cb :: pre, suf, rfl, ?_, ?_, hsuf⟩
  · rw [heq, filter_cons, foldl_cons]
    cases F.removes cb <;> rfl
  · exact forall_mem_cons.mpr ⟨⟨w, by simpa using hend⟩, hpre⟩

variable (crcByte) in
theorem lastScn_foldl (hsorted : pre.Pairwise fun a b => a.scn ≤ b.scn) :
    (∀ cb ∈ pre, F.marks cb = true → cb.scn ≤ (pre.foldl (F.visit crcByte C) w).lastScn) ∧
    ((pre.foldl (F.visit crcByte C) w).lastScn = w.lastScn ∨
      ∃ cb ∈ pre, F.marks cb = true ∧ (pre.foldl (F.visit crcByte C) w).lastScn = cb.scn) := by
  induction pre using reverseRecOn with
  | nil => exact ⟨nofun, .inl rfl⟩
  | append_singleton pre cb ih =>
  obtain ⟨hpre, -, hlast⟩ := pairwise_append.mp hsorted
  obtain ⟨hle, hex⟩ := ih hpre
  rw [foldl_append, foldl_cons, foldl_nil]
  have hvisit : ∀ w', (F.visit crcByte C w' cb).lastScn = if F.marks cb then cb.scn
    else w'.lastScn :=
    fun _ => rfl
  rw [hvisit]
  by_cases hm : F.marks cb = true
  · rw [if_pos hm]
    refine ⟨fun a ha _ => ?_, .inr ⟨cb, by simp, hm, rfl⟩⟩
    rcases mem_append.mp ha with ha | ha
    · exact hlast a ha cb (mem_singleton_self _)
    · rw [mem_singleton.mp ha]
  rw [if_neg hm]
  refine ⟨fun a ha hma => ?_, hex.imp_right fun ⟨a, ha, h⟩ => ⟨a, mem_append_left _ ha, h⟩⟩
  rcases mem_append.mp ha with ha | ha
  · exact hle a ha hma
  rw [mem_singleton.mp ha] at hma
  exact absurd hma hm

end Functor

/-- A functor that stops between two logs: it takes the logged callbacks up to a bound, and where it
stops the next log begins. -/
structure Functor.Ok (F : Functor) (C bound : ℕ) : Prop where
  takes : ∀ w cb, F.isIterEnd w cb = false → cb.scn ≤ maxScn → (F.takes cb = true ↔ cb.scn < maxScn)
  marks : ∀ w cb, F.isIterEnd w cb = false → cb.scn ≤ maxScn → F.marks cb = true → cb.scn < maxScn
  marked : ∀ w cb, F.isIterEnd w cb = false → cb.scn < maxScn → F.marks cb = true ∨ cb.scn < C
  le_bound : ∀ w cb, F.isIterEnd w cb = false → cb.scn < maxScn → cb.scn ≤ bound
  stops : ∀ w cb, F.isIterEnd w cb = true → w.lastScn < maxScn → w.lastScn ≤ bound →
    w.lastScn ≤ cb.scn → w.lastScn < cb.scn

theorem fastCommitFunctor_ok (C syncScn : ℕ) : (fastCommitFunctor syncScn).Ok C syncScn := by
  constructor
  all_goals
    intro w cb hend
    simp only [fastCommitFunctor, needSubmitLog, Bool.or_eq_false_iff,
      decide_eq_false_iff_not, Bool.or_eq_true, decide_eq_true_eq, Bool.and_eq_true] at hend ⊢
    grind

theorem removeMemtableFunctor_ok (memtableSet : ℕ → Bool) (bound C : ℕ) :
    (removeMemtableFunctor memtableSet bound C).Ok C bound := by
  constructor
  all_goals
    intro w cb hend
    simp only [removeMemtableFunctor, needSubmitLog, Bool.or_eq_false_iff,
      decide_eq_false_iff_not, Bool.or_eq_true, decide_eq_true_eq] at hend ⊢
    grind

theorem rollbackFunctor_ok (toBranch toSeq fromSeq bound C : ℕ) :
    (rollbackFunctor toBranch toSeq fromSeq bound).Ok C bound := by
  constructor
  all_goals
    intro w cb hend
    simp only [rollbackFunctor, needSubmitLog, decide_eq_false_iff_not,
      decide_eq_true_eq, Bool.not_eq_true', not_lt] at hend ⊢
    grind

theorem calcChecksumFunctor_ok {bound} (C : ℕ) (hbound : bound < maxScn) :
    (calcChecksumFunctor bound).Ok C bound := by
  constructor
  all_goals
    intro w cb hend
    simp only [calcChecksumFunctor, decide_eq_false_iff_not, decide_eq_true_eq] at hend ⊢
    grind

/-! ## The invariant -/

theorem filter_lt_eq {l : List TransCallback} (hsorted : l.Pairwise fun a b => a.scn ≤ b.scn) {C T}
    (hCT : C ≤ T) : l.filter (fun cb => cb.scn < T) =
      l.filter (fun cb => cb.scn < C) ++ (l.filter fun cb => C ≤ cb.scn).filter fun cb =>
        cb.scn < T := by
  induction l with
  | nil => rfl
  | cons a l ih =>
  obtain ⟨hle, hsorted⟩ := pairwise_cons.mp hsorted
  by_cases ha : a.scn < C
  · simp [ha, ha.trans_le hCT, ih hsorted]
  -- nothing behind the first callback is below the lower bound
  have hnone : l.filter (fun cb => cb.scn < C) = [] := by
    refine filter_eq_nil_iff.mpr fun cb hcb => ?_
    have := hle cb hcb
    simp only [decide_eq_true_eq]
    omega
  rw [hnone, nil_append] at ih
  simp only [filter_cons, ha, decide_false, Bool.false_eq_true, if_false, hnone,
    not_lt.mp ha, decide_true, if_true, nil_append]
  rw [ih hsorted]

namespace TxCallbackList

variable {s : TxCallbackList} {F : Functor} {bound : ℕ}

/-- A callback that is logged at or above the SCN. -/
def fromScn (C : ℕ) (cb : TransCallback) : Bool := decide (C ≤ cb.scn) && decide (cb.scn < maxScn)

/-- **The invariant, while the checksum is not stored.** -/
structure Open (crcByte : UInt64 → UInt8 → UInt64) (s : TxCallbackList) : Prop where
  sorted : s.callbacks.Pairwise fun a b => a.scn ≤ b.scn
  scn : ∀ cb ∈ s.callbacks, 0 < cb.scn ∧ (cb.scn ≤ s.lastLogScn ∨ cb.scn = maxScn)
  logged_sorted : s.everLogged.Pairwise fun a b => a.scn ≤ b.scn
  logged : ∀ cb ∈ s.everLogged, cb.scn ≤ s.lastLogScn
  last_lt : s.lastLogScn < maxScn
  /-- the checksum holds what is below `checksum_scn_` -/
  value : s.batchChecksum.value crcByte =
    obCrc64 crcByte 0 (bytesOf (s.everLogged.filter fun cb => cb.scn < s.checksumScn))
  /-- the list holds what is not -/
  rest : s.callbacks.filter (fromScn s.checksumScn) =
    s.everLogged.filter fun cb => s.checksumScn ≤ cb.scn
  checksum_le : s.checksumScn ≤ s.lastLogScn + 1
  sync_le : s.syncScn ≤ s.lastLogScn
  sync : s.Complete s.syncScn
  replaying : ∀ scn ∈ s.replaying, scn = s.lastLogScn ∧ s.checksumScn ≤ scn

namespace Open

theorem scn_le (h : s.Open crcByte) {cb} (hcb : cb ∈ s.callbacks) : cb.scn ≤ maxScn := by
  have hlast := h.last_lt
  rcases (h.scn cb hcb).2 with hle | heq
  · omega
  · exact heq.le

/-- **The checksum advances** to a bound that is between two logs. -/
theorem advance (h : s.Open crcByte) {pre suf rest} {w : Walk} {T}
    (hsplit : s.callbacks = pre ++ suf)
    (hvalue : w.checksumer.value crcByte = obCrc64 crcByte (s.batchChecksum.value crcByte)
      (bytesOf (pre.filter (fromScn s.checksumScn))))
    (hrest : ∃ keep, rest = pre.filter keep ++ suf) (hCT : s.checksumScn ≤ T)
    (hpre : ∀ cb ∈ pre, cb.scn < maxScn → cb.scn < T)
    (hsuf : ∀ cb ∈ suf, s.checksumScn ≤ cb.scn → T ≤ cb.scn) (hT : T ≤ s.lastLogScn + 1)
    (hreplay : ∀ scn ∈ s.replaying, T ≤ scn) :
    { s.afterWalk w rest with checksumScn := T }.Open crcByte := by
  obtain ⟨keep, rfl⟩ := hrest
  have hsub : (pre.filter keep ++ suf).Sublist s.callbacks := by
    rw [hsplit]
    exact filter_sublist.append_right _
  have hbelow : ∀ keep, (pre.filter keep).filter (fromScn T) = [] := by
    intro keep
    refine filter_eq_nil_iff.mpr fun cb hcb => ?_
    have hlt := hpre cb (mem_filter.mp hcb).1
    simp only [fromScn, Bool.and_eq_true, decide_eq_true_eq, not_and, not_lt]
    intro hle
    by_contra hmax
    have := hlt (not_le.mp hmax)
    omega
  have hall : s.callbacks.filter (fromScn T) = s.everLogged.filter fun cb => T ≤ cb.scn := by
    have hfilter := congrArg (List.filter fun cb => decide (T ≤ cb.scn)) h.rest
    rw [List.filter_filter, List.filter_filter] at hfilter
    refine Eq.trans (List.filter_congr fun cb _ => ?_)
      (hfilter.trans (List.filter_congr fun cb _ => ?_))
    · simp only [fromScn]
      grind
    · grind
  refine ⟨h.sorted.sublist hsub, fun cb hcb => h.scn cb (hsub.subset hcb), h.logged_sorted,
    h.logged,
    h.last_lt, ?_, ?_, hT, h.sync_le, h.sync,
      fun scn hscn => ⟨(h.replaying scn hscn).1, hreplay scn hscn⟩⟩
  · -- what was taken is what lies between the two bounds
    have htaken : (s.everLogged.filter fun cb => s.checksumScn ≤ cb.scn).filter (fun cb => cb.scn <
        T) = pre.filter (fromScn s.checksumScn) := by
      rw [← h.rest, hsplit, filter_append, filter_append]
      have hnone : (suf.filter (fromScn s.checksumScn)).filter (fun cb => cb.scn < T) = [] := by
        refine filter_eq_nil_iff.mpr fun cb hcb => ?_
        obtain ⟨hmem, hfrom⟩ := mem_filter.mp hcb
        simp only [fromScn, Bool.and_eq_true, decide_eq_true_eq] at hfrom
        have := hsuf cb hmem hfrom.1
        simp only [decide_eq_true_eq]
        omega
      rw [hnone, append_nil]
      refine filter_eq_self.mpr fun cb hcb => ?_
      obtain ⟨hmem, hfrom⟩ := mem_filter.mp hcb
      simp only [fromScn, Bool.and_eq_true, decide_eq_true_eq] at hfrom
      simpa using hpre cb hmem hfrom.2
    dsimp only [afterWalk]
    rw [hvalue, h.value, ← obCrc64_append, ← bytesOf_append, ← htaken,
      ← filter_lt_eq h.logged_sorted hCT]
  · dsimp only [afterWalk]
    rw [← hall, hsplit, filter_append, filter_append, hbelow keep]
    have hpre' := hbelow fun _ => true
    rw [filter_eq_self.mpr fun _ _ => rfl] at hpre'
    rw [hpre']

theorem ensureChecksum {scn T} (hscn : scn < maxScn)
    (hT : T = if scn = 0 ∨ scn < s.checksumScn then s.checksumScn else scn + 1)
    (hopen : { s with checksumScn := T }.Open crcByte) :
    (s.ensureChecksum crcByte scn).Open crcByte := by
  unfold TxCallbackList.ensureChecksum
  subst hT
  split
  case isTrue hzero =>
    rw [if_pos (.inl hzero)] at hopen
    exact hopen
  case isFalse hzero =>
  split
  case isTrue hlt =>
    rw [if_pos (.inr hlt)] at hopen
    exact hopen
  case isFalse hge =>
  rw [if_neg (by simp only [not_or]; exact ⟨hzero, hge⟩)] at hopen
  rw [if_neg hscn.ne]
  rw [scnPlus_one hscn]
  exact { hopen with }

theorem walk (h : s.Open crcByte) (xs ys : List TransCallback) (hF : F.Ok s.checksumScn bound)
    (hsplit : s.callbacks = xs ++ ys) (hys : ∀ cb ∈ ys, cb.scn = maxScn)
    (hfails : ∀ cb ∈ xs, F.fails cb = false) (hcomplete : s.Complete bound) (n : ℤ) :
    let res := F.callbackLoop crcByte s.checksumScn (s.walk n) xs
    res.1 = true ∧
      ((s.afterWalk res.2.1 (res.2.2 ++ ys)).ensureChecksum crcByte res.2.1.lastScn).Open
        crcByte := by
  have hsub : ∀ cb ∈ xs, cb ∈ s.callbacks := fun cb hcb => hsplit ▸ mem_append_left _ hcb
  obtain ⟨pre, suf, rfl, heq, hvisited, hstop⟩ := F.callbackLoop_eq crcByte
    (C := s.checksumScn) (w := s.walk n) hfails fun cb hcb => (h.scn cb (hsub cb hcb)).1.ne'
  have hsorted := h.sorted
  rw [hsplit] at hsorted
  obtain ⟨hsorted', -, -⟩ := pairwise_append.mp hsorted
  obtain ⟨hpresorted, hsufsorted, hcross⟩ := pairwise_append.mp hsorted'
  have hprescn : ∀ cb ∈ pre, 0 < cb.scn ∧ (cb.scn ≤ s.lastLogScn ∨ cb.scn = maxScn) ∧
    cb.scn ≤ maxScn :=
    fun cb hcb => ⟨(h.scn cb (hsub cb (mem_append_left _ hcb))).1,
      (h.scn cb (hsub cb (mem_append_left _ hcb))).2, h.scn_le (hsub cb (mem_append_left _ hcb))⟩
  obtain ⟨hmarked, hlast⟩ := F.lastScn_foldl crcByte (C := s.checksumScn) (w := s.walk n)
    hpresorted
  rw [heq]
  dsimp only
  generalize hw : pre.foldl (F.visit crcByte s.checksumScn) (s.walk n) = w at *
  -- the last SCN is that of a logged callback within the bound
  have hlast' : w.lastScn = 0 ∨ ∃ cb ∈ pre, cb.scn < maxScn ∧ cb.scn ≤ bound ∧
    w.lastScn = cb.scn := by
    refine hlast.imp id fun ⟨cb, hcb, hm, hcbscn⟩ => ?_
    obtain ⟨w', hw'⟩ := hvisited cb hcb
    have hlt := hF.marks w' cb hw' (hprescn cb hcb).2.2 hm
    exact ⟨cb, hcb, hlt, hF.le_bound w' cb hw' hlt, hcbscn⟩
  have hlastlt : w.lastScn < maxScn := by
    rcases hlast' with hz | ⟨cb, -, hlt, -, hcbscn⟩
    · have := h.last_lt
      omega
    · exact hcbscn ▸ hlt
  have hvalue : w.checksumer.value crcByte = obCrc64 crcByte (s.batchChecksum.value crcByte)
      (bytesOf (pre.filter (fromScn s.checksumScn))) := by
    rw [← hw, Functor.value_foldl]
    refine congrArg (fun l => obCrc64 crcByte (s.batchChecksum.value crcByte) (bytesOf l)) ?_
    refine filter_congr fun cb hcb => ?_
    obtain ⟨w', hw'⟩ := hvisited cb hcb
    have htakes := hF.takes w' cb hw' (hprescn cb hcb).2.2
    simp only [Functor.counts, fromScn]
    grind
  refine ⟨rfl, ?_⟩
  have hafter : ∀ C, { s.afterWalk w ((pre.filter fun cb => !F.removes cb) ++ suf ++ ys) with
      checksumScn := C } = { s.afterWalk w
        ((pre.filter fun cb => !F.removes cb) ++ (suf ++ ys)) with
      checksumScn := C } := fun C => by rw [append_assoc]
  have hadv : ∀ T, T = (if w.lastScn = 0 ∨ w.lastScn < s.checksumScn then s.checksumScn
      else w.lastScn + 1) → { s.afterWalk w ((pre.filter fun cb => !F.removes cb) ++ suf ++ ys) with
      checksumScn := T }.Open crcByte := by
    intro T hT
    rw [hafter]
    refine h.advance (by rw [hsplit, append_assoc]) hvalue ⟨_, rfl⟩ ?_ ?_ ?_ ?_ ?_
    · subst hT
      split <;> omega
    · intro cb hcb hlt
      obtain ⟨w', hw'⟩ := hvisited cb hcb
      have hpos := (hprescn cb hcb).1
      rcases hF.marked w' cb hw' hlt with hm | hlow
      · have hle := hmarked cb hcb hm
        subst hT
        split <;> omega
      · subst hT
        split <;> omega
    · intro cb hcb hle
      subst hT
      split
      · exact hle
      case isFalse hno =>
      obtain ⟨a, ha, halt, hab, heqa⟩ := hlast'.resolve_left fun hz => hno (.inl hz)
      rcases mem_append.mp hcb with hmem | hmem
      · -- the callback that ended the walk is of a later log
        cases suf with
        | nil => exact absurd hmem not_mem_nil
        | cons b suf =>
        have hend := hstop b rfl
        have hab' : w.lastScn ≤ b.scn := heqa ▸ hcross a ha b mem_cons_self
        have hlt := hF.stops w b hend hlastlt (heqa ▸ hab) hab'
        rcases mem_cons.mp hmem with rfl | hmem
        · omega
        have := (pairwise_cons.mp hsufsorted).1 cb hmem
        omega
      · rw [hys cb hmem]
        omega
    · subst hT
      split
      · exact h.checksum_le
      case isFalse hno =>
      obtain ⟨a, ha, halt, -, heqa⟩ := hlast'.resolve_left fun hz => hno (.inl hz)
      rcases (hprescn a ha).2.1 with hle | heq
      · omega
      · omega
    · intro scn hscn
      subst hT
      split
      · exact (h.replaying scn hscn).2
      case isFalse hno =>
      obtain ⟨a, ha, -, hab, heqa⟩ := hlast'.resolve_left fun hz => hno (.inl hz)
      have := hcomplete scn hscn
      omega
  exact ensureChecksum hlastlt rfl (hadv _ rfl)

theorem toLog_scn (h : s.Open crcByte) {cb}
    (hcb : cb ∈ s.callbacks.dropWhile fun cb => !cb.needSubmitLog) : cb.scn = maxScn := by
  have hsorted := h.sorted.sublist (dropWhile_sublist fun cb => !cb.needSubmitLog)
  have hmem := (dropWhile_sublist (l := s.callbacks) fun cb => !cb.needSubmitLog).subset hcb
  have hle := h.scn_le hmem
  have hhead := head?_dropWhile_not (fun cb : TransCallback => !cb.needSubmitLog) s.callbacks
  cases hdrop : s.callbacks.dropWhile fun cb => !cb.needSubmitLog with
  | nil =>
    rw [hdrop] at hcb
    exact absurd hcb not_mem_nil
  | cons a l =>
  rw [hdrop] at hcb hsorted hhead
  have ha : a.scn = maxScn := by simpa [needSubmitLog] using hhead
  rcases mem_cons.mp hcb with rfl | hcb
  · exact ha
  have := (pairwise_cons.mp hsorted).1 cb hcb
  omega

/-! ## Steps -/

section

variable (h : s.Open crcByte)
include h

theorem append (cb : TransCallback) :
    { s with callbacks := s.callbacks ++ [{ cb with scn := maxScn }] }.Open crcByte := by
  refine { h with sorted := ?_, scn := ?_, rest := ?_ }
  · refine pairwise_append.mpr ⟨h.sorted, pairwise_singleton _ _, fun a ha b hb => ?_⟩
    rw [mem_singleton.mp hb]
    exact h.scn_le ha
  · intro a ha
    rcases mem_append.mp ha with ha | ha
    · exact h.scn a ha
    rw [mem_singleton.mp ha]
    exact ⟨(Nat.zero_le _).trans_lt h.last_lt, .inr rfl⟩
  · rw [filter_append, h.rest]
    simp [fromScn]

theorem addLogged (new pre suf : List TransCallback) {scn}
    (hsplit : ∃ old, s.callbacks = pre ++ old ∧ ∀ cb ∈ old, cb.scn = maxScn)
    (hnew : ∀ cb ∈ new, cb.scn = scn) (hsuf : ∀ cb ∈ suf, cb.scn = maxScn)
    (hpre : ∀ cb ∈ pre, cb.scn ≤ s.lastLogScn) (hle : s.lastLogScn ≤ scn) (hpos : 0 < scn)
    (hmax : scn < maxScn) (hC : s.checksumScn ≤ scn) {p}
    (hp : ∀ scn' ∈ p, scn' = scn ∧ s.syncScn < scn') :
    { s with
      callbacks := pre ++ new ++ suf
      everLogged := s.everLogged ++ new
      lastLogScn := scn
      replaying := p }.Open crcByte := by
  obtain ⟨old, hold, holdmax⟩ := hsplit
  have hsorted := h.sorted
  rw [hold] at hsorted
  have hprepos : ∀ cb ∈ pre, 0 < cb.scn := fun cb hcb =>
    (h.scn cb (hold ▸ mem_append_left _ hcb)).1
  have hnewfilter : ∀ q : TransCallback → Bool, (∀ cb, cb.scn = scn → q cb = true) →
    new.filter q = new :=
    fun q hq => filter_eq_self.mpr fun cb hcb => hq cb (hnew cb hcb)
  have hmaxfilter : ∀ l : List TransCallback, (∀ cb ∈ l, cb.scn = maxScn) →
      l.filter (fromScn s.checksumScn) = [] := fun l hl =>
    filter_eq_nil_iff.mpr fun cb hcb => by simp [fromScn, hl cb hcb]
  refine ⟨?_, ?_, ?_, ?_, hmax, ?_, ?_, hC.trans (Nat.le_succ _), h.sync_le.trans hle, ?_, ?_⟩
  · refine pairwise_append.mpr ⟨pairwise_append.mpr ⟨(pairwise_append.mp hsorted).1, ?_,
      fun a ha b hb => ?_⟩, ?_, fun a ha b hb => ?_⟩
    · exact pairwise_of_forall_mem_list fun a ha b hb => (hnew a ha).trans (hnew b hb).symm |>.le
    · exact (hpre a ha).trans (hle.trans (hnew b hb).ge)
    · exact pairwise_of_forall_mem_list fun a ha b hb => (hsuf a ha).trans (hsuf b hb).symm |>.le
    rw [hsuf b hb]
    rcases mem_append.mp ha with ha | ha
    · exact (hpre a ha).trans (hle.trans hmax.le)
    rw [hnew a ha]
    exact hmax.le
  · intro cb hcb
    simp only [mem_append] at hcb
    rcases hcb with (hcb | hcb) | hcb
    · exact ⟨hprepos cb hcb, .inl ((hpre cb hcb).trans hle)⟩
    · exact ⟨hnew cb hcb ▸ hpos, .inl (hnew cb hcb).le⟩
    · exact ⟨hsuf cb hcb ▸ hpos.trans hmax, .inr (hsuf cb hcb)⟩
  · refine pairwise_append.mpr ⟨h.logged_sorted, ?_, fun a ha b hb => ?_⟩
    · exact pairwise_of_forall_mem_list fun a ha b hb => (hnew a ha).trans (hnew b hb).symm |>.le
    · exact (h.logged a ha).trans (hle.trans (hnew b hb).ge)
  · intro cb hcb
    rcases mem_append.mp hcb with hcb | hcb
    · exact (h.logged cb hcb).trans hle
    · exact (hnew cb hcb).le
  · dsimp only
    rw [h.value, filter_append]
    have hnone : new.filter (fun cb => decide (cb.scn < s.checksumScn)) = [] :=
      filter_eq_nil_iff.mpr fun cb hcb => by
        rw [hnew cb hcb]
        simpa using hC
    rw [hnone, append_nil]
  · dsimp only
    have hrest := h.rest
    rw [hold, filter_append, hmaxfilter old holdmax, append_nil] at hrest
    rw [filter_append, filter_append, filter_append, hmaxfilter suf hsuf, hrest,
      hnewfilter _ fun cb hcb => by simp [fromScn, hcb, hC, hmax],
      hnewfilter _ fun cb hcb => by simp [hcb, hC], append_nil]
  · exact fun scn' hscn => (hp scn' hscn).2
  · exact fun scn' hscn => ⟨(hp scn' hscn).1, hC.trans (hp scn' hscn).1.ge⟩

theorem submitLog {scn} (n : ℕ) (hrep : s.replaying = none)
    (hlt : s.lastLogScn < scn) (hmax : scn < maxScn) : (s.submitLog n scn).Open crcByte := by
  have hsplit := takeWhile_append_dropWhile (p := fun cb : TransCallback => !cb.needSubmitLog)
    (l := s.callbacks)
  have hC := h.checksum_le
  have hopen := h.addLogged (((s.callbacks.dropWhile fun cb => !cb.needSubmitLog).take n).map
      fun cb => { cb with scn := scn }) (s.callbacks.takeWhile fun cb => !cb.needSubmitLog)
    ((s.callbacks.dropWhile fun cb => !cb.needSubmitLog).drop n) (p := none)
    ⟨_, hsplit.symm, fun cb hcb => h.toLog_scn hcb⟩ ?_ ?_ ?_ hlt.le (by omega) hmax (by omega) nofun
  · unfold TxCallbackList.submitLog
    rw [hrep]
    exact hopen
  · intro cb hcb
    obtain ⟨a, -, rfl⟩ := mem_map.mp hcb
    rfl
  · exact fun cb hcb => h.toLog_scn (mem_of_mem_drop hcb)
  intro cb hcb
  have hlogged := mem_takeWhile_imp hcb
  simp only [TransCallback.needSubmitLog, Bool.not_eq_true', decide_eq_false_iff_not] at hlogged
  exact (h.scn cb ((takeWhile_sublist _).subset hcb)).2.resolve_right hlogged

theorem replayAppend {scn} (cb : TransCallback)
    (hno : ∀ cb ∈ s.callbacks, cb.scn ≠ maxScn) (hmax : scn < maxScn) (hpos : 0 < scn)
    (hscn : s.replaying = some scn ∨ s.replaying = none ∧ s.lastLogScn < scn) :
    (s.replayAppend cb scn).Open crcByte := by
  have hfacts : s.lastLogScn ≤ scn ∧ s.checksumScn ≤ scn ∧ s.syncScn < scn := by
    rcases hscn with hsome | ⟨-, hlt⟩
    · obtain ⟨heq, hC⟩ := h.replaying scn hsome
      exact ⟨heq.ge, hC, h.sync scn hsome⟩
    have hC := h.checksum_le
    have hsync := h.sync_le
    exact ⟨hlt.le, by omega, by omega⟩
  have hopen := h.addLogged [{ cb with scn := scn }] s.callbacks [] (p := some scn)
    ⟨[], (append_nil _).symm, nofun⟩ ?_ nofun ?_ hfacts.1 hpos hmax
    hfacts.2.1 ?_
  · rw [append_nil] at hopen
    exact hopen
  · intro a ha
    rw [mem_singleton.mp ha]
  · exact fun a ha => (h.scn a ha).2.resolve_right (hno a ha)
  · rintro scn' ⟨⟩
    exact ⟨rfl, hfacts.2.2⟩

theorem walkAll (hF : F.Ok s.checksumScn bound)
    (hfails : ∀ cb ∈ s.callbacks, F.fails cb = false) (hcomplete : s.Complete bound) :
    (s.walkAll crcByte F Walk.lastScn).Open crcByte := by
  obtain ⟨hok, hopen⟩ := h.walk _ [] hF (append_nil _).symm nofun hfails hcomplete 0
  unfold TxCallbackList.walkAll
  simp only [hok, if_true]
  simpa only [append_nil] using hopen

theorem syncBound_lt {stopScn} (hle : stopScn ≤ maxScn) : s.syncBound stopScn < maxScn := by
  unfold syncBound
  split
  · exact h.sync_le.trans_lt h.last_lt
  · omega

/-- **Every step but the last keeps the invariant.** -/
theorem step {a s'} (hstep : s.step crcByte a = some s')
    (hall : a ≠ .calcChecksumAll) : s'.Open crcByte := by
  cases a with
  | append cb =>
    obtain ⟨-, ⟨⟩⟩ := Option.ite_none_right_eq_some.mp hstep
    exact h.append cb
  | submitLog n scn =>
    obtain ⟨⟨hrep, hlt, hmax⟩, ⟨⟩⟩ := Option.ite_none_right_eq_some.mp hstep
    exact h.submitLog n hrep hlt hmax
  | syncLogSucc scn =>
    obtain ⟨⟨hrep, hle⟩, ⟨⟩⟩ := Option.ite_none_right_eq_some.mp hstep
    refine { h with sync_le := hle, sync := ?_ }
    unfold Complete
    simp [hrep]
  | replayAppend cb scn =>
    obtain ⟨⟨hno, hmax, hscn⟩, ⟨⟩⟩ := Option.ite_none_right_eq_some.mp hstep
    refine h.replayAppend cb hno hmax ?_ hscn
    rcases hscn with hsome | ⟨-, hlt⟩
    · exact (Nat.zero_le _).trans_lt (h.sync scn hsome)
    · omega
  | replaySucc serial =>
    simp only [TxCallbackList.step] at hstep
    split at hstep
    · exact nomatch hstep
    case h_2 scn hrep =>
    obtain rfl := Option.some.inj hstep
    refine { h with sync_le := ?_, sync := nofun, replaying := nofun }
    have hscn := (h.replaying scn hrep).1
    dsimp only
    split
    · exact h.sync_le
    · exact max_le h.sync_le hscn.le
  | fastCommit fastCommitCallbackCount stopScn =>
    obtain ⟨hcomplete, ⟨⟩⟩ := Option.ite_none_right_eq_some.mp hstep
    obtain ⟨hok, hopen⟩ := h.walk (s.callbacks.takeWhile fun cb => !cb.needSubmitLog) _
      (fastCommitFunctor_ok s.checksumScn _) takeWhile_append_dropWhile.symm
      (fun cb hcb => h.toLog_scn hcb) (fun _ _ => rfl) hcomplete
      (s.callbacks.length - (fastCommitCallbackCount + 1) / 2)
    unfold removeCallbacksForFastCommit
    simp only [hok, if_true]
    exact hopen
  | removeMemtable memtableSet stopScn =>
    obtain ⟨⟨-, hcomplete⟩, ⟨⟩⟩ := Option.ite_none_right_eq_some.mp hstep
    exact h.walkAll (removeMemtableFunctor_ok _ _ _) (fun _ _ => rfl) hcomplete
  | rollbackTo toBranch toSeq fromSeq replayScn =>
    obtain ⟨⟨hcomplete, hfrom⟩, ⟨⟩⟩ := Option.ite_none_right_eq_some.mp hstep
    refine h.walkAll (rollbackFunctor_ok _ _ _ _ _) (fun cb hcb => ?_) hcomplete
    have hlt := hfrom cb hcb
    simp only [rollbackFunctor, Bool.and_eq_false_imp, decide_eq_false_iff_not, not_le]
    exact hlt
  | calcChecksumBeforeScn scn =>
    obtain ⟨⟨hle, hcomplete⟩, ⟨⟩⟩ := Option.ite_none_right_eq_some.mp hstep
    exact h.walkAll (calcChecksumFunctor_ok _ (h.syncBound_lt hle)) (fun _ _ => rfl) hcomplete
  | calcChecksumAll => exact absurd rfl hall

end

theorem init : init.Open crcByte where
  sorted := .nil
  scn := nofun
  logged_sorted := .nil
  logged := nofun
  last_lt := by decide
  value := rfl
  rest := rfl
  checksum_le := Nat.zero_le _
  sync_le := le_rfl
  sync := nofun
  replaying := nofun

end Open

/-! ## The stored checksum -/

theorem nonzero_ne (c : UInt64) : nonzero c ≠ 0 := by
  unfold nonzero
  split
  · decide
  · assumption

theorem ensureChecksum_ne (h : s.checksum ≠ 0) (scn : ℕ) :
    (s.ensureChecksum crcByte scn).checksum ≠ 0 := by
  unfold ensureChecksum
  split_ifs
  · exact h
  · exact h
  · exact nonzero_ne _
  · exact h

theorem checksum_ensureChecksum (h : s.checksumScn ≤ maxScn) :
    (s.ensureChecksum crcByte maxScn).checksum = nonzero (s.batchChecksum.value crcByte) := by
  unfold ensureChecksum
  rw [if_neg (by decide), if_neg (not_lt.mpr h), if_pos rfl]

theorem walkAll_ne (h : s.checksum ≠ 0) (last : Walk → ℕ) :
    (s.walkAll crcByte F last).checksum ≠ 0 := by
  unfold walkAll
  dsimp only
  split
  · exact ensureChecksum_ne (s := s.afterWalk _ _) h _
  · exact h

theorem step_ne (h : s.checksum ≠ 0) {a s'}
    (hstep : s.step crcByte a = some s') : s'.checksum ≠ 0 := by
  cases a with
  | replaySucc serial =>
    simp only [step] at hstep
    split at hstep
    · exact nomatch hstep
    · exact some.inj hstep ▸ h
  | append | submitLog | syncLogSucc | replayAppend =>
    obtain ⟨-, ⟨⟩⟩ := ite_none_right_eq_some.mp hstep
    exact h
  | fastCommit =>
    obtain ⟨-, ⟨⟩⟩ := ite_none_right_eq_some.mp hstep
    unfold removeCallbacksForFastCommit
    dsimp only
    split
    · exact ensureChecksum_ne (s := s.afterWalk _ _) h _
    · exact h
  | removeMemtable | rollbackTo | calcChecksumBeforeScn =>
    obtain ⟨-, ⟨⟩⟩ := ite_none_right_eq_some.mp hstep
    exact walkAll_ne h _
  | calcChecksumAll =>
    obtain ⟨-, ⟨⟩⟩ := ite_none_right_eq_some.mp hstep
    unfold txCalcChecksumAll
    split
    · exact h
    · exact walkAll_ne h _

def toLog (s : TxCallbackList) : List TransCallback :=
  s.callbacks.filter TransCallback.needSubmitLog

theorem Open.filter_counts (h : s.Open crcByte) :
    s.callbacks.filter (fun cb => s.checksumScn ≤ cb.scn) =
      (s.everLogged.filter fun cb => s.checksumScn ≤ cb.scn) ++ s.toLog := by
  have hsplit := takeWhile_append_dropWhile (p := fun cb : TransCallback => !cb.needSubmitLog)
    (l := s.callbacks)
  have hlogged : ∀ cb ∈ s.callbacks.takeWhile fun cb => !cb.needSubmitLog, cb.scn < maxScn := by
    intro cb hcb
    have hno := mem_takeWhile_imp hcb
    simp only [needSubmitLog, Bool.not_eq_true', decide_eq_false_iff_not] at hno
    have hle := h.scn_le ((takeWhile_sublist _).subset hcb)
    omega
  have hC := h.checksum_le
  have hlast := h.last_lt
  have hrest := h.rest
  unfold toLog
  rw [← hsplit, filter_append] at hrest ⊢
  rw [filter_append, ← hrest, append_assoc]
  refine congrArg₂ (· ++ ·) (filter_congr fun cb hcb => ?_) ?_
  · simp [fromScn, hlogged cb hcb]
  have h₁ : (s.callbacks.dropWhile fun cb => !cb.needSubmitLog).filter
    (fromScn s.checksumScn) = [] :=
    filter_eq_nil_iff.mpr fun cb hcb => by simp [fromScn, h.toLog_scn hcb]
  have h₂ : (s.callbacks.takeWhile fun cb => !cb.needSubmitLog).filter
      needSubmitLog = [] :=
    filter_eq_nil_iff.mpr fun cb hcb => by
      have := hlogged cb hcb
      simp only [needSubmitLog, decide_eq_true_eq]
      omega
  rw [h₁, h₂, nil_append, nil_append]
  refine filter_congr fun cb hcb => ?_
  have := h.toLog_scn hcb
  simp only [needSubmitLog, this, decide_true, decide_eq_true_eq]
  omega

theorem Open.calcChecksumAll (h : s.Open crcByte) (hfirst : s.checksum = 0) :
    (s.txCalcChecksumAll crcByte).checksum = checksumOf crcByte (s.everLogged ++ s.toLog) := by
  obtain ⟨pre, suf, hsplit, heq, -, hstop⟩ := (calcChecksumFunctor maxScn).callbackLoop_eq crcByte
    (C := s.checksumScn) (w := s.walk 0) (fun cb (_ : cb ∈ s.callbacks) => rfl)
    fun cb hcb => (h.scn cb hcb).1.ne'
  -- no callback is behind the bound, so the walk takes all of them
  obtain rfl : suf = [] := by
    cases suf with
    | nil => rfl
    | cons b suf =>
    have hend := hstop b rfl
    have hle : b.scn ≤ maxScn := h.scn_le (hsplit ▸ by simp)
    simp only [calcChecksumFunctor, decide_eq_true_eq] at hend
    omega
  rw [append_nil] at hsplit
  have hC : s.checksumScn ≤ maxScn := h.checksum_le.trans h.last_lt
  have hvalue : (pre.foldl ((calcChecksumFunctor maxScn).visit crcByte s.checksumScn)
      (s.walk 0)).checksumer.value crcByte =
      obCrc64 crcByte 0 (bytesOf (s.everLogged ++ s.toLog)) := by
    have hall : s.everLogged.filter (fun cb => cb.scn < s.lastLogScn + 1) = s.everLogged :=
      filter_eq_self.mpr fun cb hcb => by simpa using Nat.lt_succ_of_le (h.logged cb hcb)
    have hcut := filter_lt_eq h.logged_sorted h.checksum_le
    have hge : (s.everLogged.filter fun cb => s.checksumScn ≤ cb.scn).filter
        (fun cb => cb.scn < s.lastLogScn + 1) = s.everLogged.filter fun cb => s.checksumScn ≤
          cb.scn :=
      filter_eq_self.mpr fun cb hcb => by
        simpa using Nat.lt_succ_of_le (h.logged cb (mem_filter.mp hcb).1)
    rw [hall, hge] at hcut
    have hcounts : pre.filter ((calcChecksumFunctor maxScn).counts s.checksumScn) =
        s.callbacks.filter fun cb => s.checksumScn ≤ cb.scn := by
      rw [hsplit]
      rfl
    rw [Functor.value_foldl, hcounts, h.filter_counts]
    change obCrc64 crcByte (s.batchChecksum.value crcByte) _ = _
    rw [h.value, ← obCrc64_append, ← bytesOf_append, ← append_assoc, ← hcut]
  unfold txCalcChecksumAll
  rw [if_neg fun hne => hne.2 hfirst]
  unfold TxCallbackList.walkAll
  simp only [heq, if_true]
  exact (checksum_ensureChecksum (s := s.afterWalk _ _) hC).trans (congrArg nonzero hvalue)

end TxCallbackList

/-- **The stored checksum is that of all callbacks that were ever logged, and of those that are
still to be logged**, in the order of the list and each once, whatever was cleaned before. So two
replicas whose callbacks have the same bytes store the same checksum. -/
theorem txCalcChecksumAll_eq {s s' : TxCallbackList} (hs : (txCallbacks crcByte).Reachable s)
    (hfirst : s.checksum = 0) (hstep : s.step crcByte .calcChecksumAll = some s') :
    s'.checksum = checksumOf crcByte (s.everLogged ++ s.toLog) ∧
    ∀ t t', (txCallbacks crcByte).Reachable t → t.checksum = 0 →
      t.step crcByte .calcChecksumAll = some t' →
      bytesOf (t.everLogged ++ t.toLog) = bytesOf (s.everLogged ++ s.toLog) →
      t'.checksum = s'.checksum := by
  have hopen : ∀ t, (txCallbacks crcByte).Reachable t → t.checksum = 0 → t.Open crcByte := by
    intro t ht
    refine Machine.Reachable.of_keeps (I := fun t => t.checksum = 0 → t.Open crcByte) ?_ ?_ ht
    · rintro t rfl -
      exact .init
    rintro t t' hI ⟨a, hstep⟩ hzero
    have ht : t.checksum = 0 := by
      by_contra hne
      exact step_ne hne hstep hzero
    apply (hI ht).step hstep
    rintro rfl
    obtain ⟨-, ⟨⟩⟩ := ite_none_right_eq_some.mp hstep
    rw [(hI ht).calcChecksumAll ht] at hzero
    exact nonzero_ne _ hzero
  have hvalue : ∀ t t', (txCallbacks crcByte).Reachable t → t.checksum = 0 →
      t.step crcByte .calcChecksumAll = some t' →
      t'.checksum = checksumOf crcByte (t.everLogged ++ t.toLog) := by
    intro t t' ht hzero hstep
    obtain ⟨-, ⟨⟩⟩ := ite_none_right_eq_some.mp hstep
    exact (hopen t ht hzero).calcChecksumAll hzero
  refine ⟨hvalue s s' hs hfirst hstep, fun t t' ht hzero hstep' hbytes => ?_⟩
  rw [hvalue s s' hs hfirst hstep, hvalue t t' ht hzero hstep']
  unfold checksumOf
  rw [hbytes]

/-! ## Two runs -/

/-- One byte of the CRC with `OB_DEFAULT_CRC64_POLYNOM`. -/
def crc64Byte (crc : UInt64) (b : UInt8) : UInt64 :=
  (range 8).foldl
    (fun c _ => if c &&& 1 = 1 then (c >>> 1) ^^^ 0xD800000000000000 else c >>> 1)
    (crc ^^^ b.toUInt64)

/-- Three callbacks; two are logged, one of them is cleaned by a fast commit, and the third is
rolled back and never logged. -/
def cleanedRun : List TxCallbackList.Act :=
  [.append ⟨0, 0, 1, 7, [1, 2]⟩, .append ⟨0, 0, 2, 8, [3]⟩, .submitLog 1 5, .submitLog 1 6,
    .syncLogSucc 5, .append ⟨0, 0, 3, 8, [4]⟩, .fastCommit 0 none, .rollbackTo 0 2 4 none,
    .removeMemtable (· = 8) maxScn]

theorem txCalcChecksumAll_eq_cleanedRun :
    ∃ s s', TxCallbackList.init.run crc64Byte cleanedRun = some s ∧
      s.step crc64Byte .calcChecksumAll = some s' ∧
      s'.checksum = checksumOf crc64Byte [⟨5, 0, 1, 7, [1, 2]⟩, ⟨6, 0, 2, 8, [3]⟩] := by
  have hrun : (init.run crc64Byte cleanedRun).map
      (fun s => (s.checksum, s.replaying, s.everLogged, s.toLog)) =
      some (0, none, [⟨5, 0, 1, 7, [1, 2]⟩, ⟨6, 0, 2, 8, [3]⟩], []) := by decide +kernel
  obtain ⟨s, hs, hfacts⟩ := map_eq_some_iff.mp hrun
  simp only [Prod.mk.injEq] at hfacts
  obtain ⟨hzero, hrep, hlogged, htoLog⟩ := hfacts
  have hstep : s.step crc64Byte .calcChecksumAll = some (s.txCalcChecksumAll crc64Byte) :=
    if_pos hrep
  refine ⟨s, _, hs, hstep, ?_⟩
  have heq := (txCalcChecksumAll_eq (run_reachable (.init rfl) hs) hzero hstep).1
  rw [heq, hlogged, htoLog]
  rfl

/-- **A callback that is not logged counts.** Nothing was logged, and the checksum is not that of no
callback. -/
theorem txCalcChecksumAll_unlogged : ∃ s s', (txCallbacks crc64Byte).Reachable s ∧ s.checksum = 0 ∧
      s.step crc64Byte .calcChecksumAll = some s' ∧ s.everLogged = [] ∧
      s'.checksum ≠ checksumOf crc64Byte s.everLogged := by
  have hrun : ((init.run crc64Byte [.append ⟨0, 0, 1, 7, [1]⟩]).map fun s =>
      (s.checksum, s.everLogged, (s.step crc64Byte .calcChecksumAll).map checksum)) =
      some (0, [], some (checksumOf crc64Byte [⟨0, 0, 1, 7, [1]⟩])) := by decide +kernel
  obtain ⟨s, hs, hfacts⟩ := map_eq_some_iff.mp hrun
  simp only [Prod.mk.injEq] at hfacts
  obtain ⟨hzero, hlogged, hstep⟩ := hfacts
  obtain ⟨s', hs', hsum⟩ := map_eq_some_iff.mp hstep
  refine ⟨s, s', run_reachable (.init rfl) hs, hzero, hs', hlogged, ?_⟩
  rw [hsum, hlogged]
  decide +kernel

end OceanBase.Memtable
