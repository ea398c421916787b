import OceanBase.Compaction.MinorMerge

/-!
# The rounds of the minor merge

In each round but the first the loop of `merge_same_rowkey_iters` takes the rows at the newest
version off the tables, which are the current rows of the first few iterators, and appends their
fusion. The first round appends the fusion of the current rows of all iterators.

## Main results

* `mergeLoop_spec`
-/

universe u v

namespace OceanBase.Compaction

open ObDatumRow List MergeIter

open RecordVersion (fuse)

variable {ι : Type u} {α : Type v}

/-! ## Well-formed lists of versions -/

/-- What a row shows. A row that deletes has no columns. -/
def ObDatumRow.content (row : ObDatumRow ι α) : RecordVersion ι α :=
  if row.rowFlag.flag = .delete then .deleted else .live row.datums

def MergeIter.rows (it : MergeIter ι α) : List (ObDatumRow ι α) := it.curr :: it.rest

def nonShadow (rows : List (ObDatumRow ι α)) : List (ObDatumRow ι α) :=
  rows.filter fun row => !row.mvccRowFlag.shadow

def LastFlag : List (ObDatumRow ι α) → Prop
  | [] => True
  | row :: rows => row.mvccRowFlag.last = rows.isEmpty ∧ LastFlag rows

structure IsVersion (row : ObDatumRow ι α) : Prop where
  uncommitted : row.mvccRowFlag.uncommitted = false
  ghost : row.mvccRowFlag.ghost = false
  shadow : row.mvccRowFlag.shadow = false
  exist : row.rowFlag.flag ≠ .notExist

/-- Committed versions with decreasing transaction versions. -/
structure IsVersions (rows : List (ObDatumRow ι α)) : Prop where
  version : ∀ row ∈ rows, IsVersion row
  sorted : rows.Pairwise fun a b => b.transVersion < a.transVersion
  last : LastFlag rows

/-- The row is a shadow row for the given versions and holds their fusion. -/
structure IsShadow (row : ObDatumRow ι α) (rows : List (ObDatumRow ι α)) : Prop where
  uncommitted : row.mvccRowFlag.uncommitted = false
  ghost : row.mvccRowFlag.ghost = false
  shadow : row.mvccRowFlag.shadow = true
  last : row.mvccRowFlag.last = false
  exist : row.rowFlag.flag ≠ .notExist
  version : rows.head?.map ObDatumRow.transVersion = some row.transVersion
  content : fuse (rows.map ObDatumRow.content) = some row.content

/-- The rows of one rowkey in a table: one version, or several after their shadow row. -/
def WellFormed (rows : List (ObDatumRow ι α)) : Prop :=
  IsVersions (nonShadow rows) ∧
    ((nonShadow rows = rows ∧ rows.length = 1) ∨
      ∃ row, rows = row :: nonShadow rows ∧ 2 ≤ (nonShadow rows).length ∧
        IsShadow row (nonShadow rows))

def FirstFlag (rows : List (ObDatumRow ι α)) : Prop :=
  ∃ row rest, rows = row :: rest ∧ row.mvccRowFlag.first = true ∧
    ∀ r ∈ rest, r.mvccRowFlag.first = false

theorem nonShadow_of_isVersion {rows : List (ObDatumRow ι α)} (h : ∀ row ∈ rows, IsVersion row) :
    nonShadow rows = rows :=
  filter_eq_self.mpr fun row hrow => by simp [(h row hrow).shadow]

/-! ## The fuser -/

section Fuser

variable [Fintype ι]

theorem full_of_allSet {f : ι → Option α} (h : allSet f = true) : (RecordVersion.live f).Full := by
  simpa [allSet, RecordVersion.Full] using h

theorem fuseFlag_eq_delete {f input : ObDmlRowFlag} :
    (f.fuseFlag input).flag = .delete ↔ f.flag = .delete := by
  unfold ObDmlRowFlag.fuseFlag
  cases hi : input.flag with
  | insert =>
    by_cases hf : f.flag = .delete
    · simp [hf]
    · simp [hf]
  | delete => dsimp only; split <;> rfl
  | notExist | update => exact Iff.rfl

theorem fuseFlag_eq_notExist {f input : ObDmlRowFlag} (h : f.flag ≠ .notExist) :
    (f.fuseFlag input).flag ≠ .notExist := by
  unfold ObDmlRowFlag.fuseFlag
  cases hi : input.flag with
  | insert => dsimp only; split <;> simp [h]
  | delete => dsimp only; split <;> exact h
  | notExist | update => exact h

theorem addFuseRows_live {rows} (result : ObDatumRow ι α)
    (hrows : ∀ row ∈ rows, row.rowFlag.flag ≠ .notExist) (hdel : result.rowFlag.flag ≠ .delete)
    (hexist : result.rowFlag.flag ≠ .notExist) :
    fuse (result.content :: rows.map ObDatumRow.content) = some (addFuseRows rows result).content ∧
      (addFuseRows rows result).transVersion = result.transVersion ∧
      (addFuseRows rows result).rowFlag.flag ≠ .notExist := by
  -- the induction carries the row fused so far
  induction rows generalizing result with
  | nil => exact ⟨rfl, rfl, hexist⟩
  | cons row rows ih =>
  rw [forall_mem_cons] at hrows
  have hcontent : result.content = .live result.datums := if_neg hdel
  have hflag : ∀ f : ObDmlRowFlag, f.flag ≠ .delete → (f.fuseFlag row.rowFlag).flag ≠ .delete :=
    fun f hf h => hf (fuseFlag_eq_delete.mp h)
  rw [map_cons, addFuseRows]
  unfold ObRowFuse.fuseRow
  rw [if_neg (by simp [hdel, hrows.1])]
  by_cases hd : row.rowFlag.flag = .delete
  · -- nothing below a deletion shows
    simp only [if_pos hd, if_neg hexist, if_true]
    refine ⟨?_, by trivial, fuseFlag_eq_notExist hexist⟩
    have hrow : row.content = .deleted := if_pos hd
    rw [hcontent, hrow, content, if_neg (hflag _ hdel)]
    cases hf : fuse (rows.map content) <;> simp [fuse, hf, RecordVersion.over]
  have hrow : row.content = .live row.datums := if_neg hd
  simp only [if_neg hd, if_neg hexist]
  set fused : ObDatumRow ι α :=
    { result with datums := fun i => (result.datums i).or (row.datums i) } with hfused
  have hover : fuse (result.content :: row.content :: rows.map content) =
      fuse ((RecordVersion.live fused.datums) :: rows.map content) := by
    rw [hcontent, hrow]
    cases hf : fuse (rows.map content) with
    | none => simp [fuse, hf, RecordVersion.over, hfused]
    | some b =>
    have hassoc := RecordVersion.over_assoc (a := .live result.datums)
      (b := .live row.datums) (c := b) fun h => by cases h
    rw [RecordVersion.fuse_cons (RecordVersion.fuse_cons hf), RecordVersion.fuse_cons hf,
      ← hassoc]
    rfl
  by_cases hall : allSet fused.datums = true
  · rw [if_pos hall]
    refine ⟨?_, by trivial, fuseFlag_eq_notExist hexist⟩
    rw [hover, content, if_neg (hflag _ hdel), RecordVersion.fuse_of_full (full_of_allSet hall)]
  rw [if_neg hall]
  obtain ⟨h1, h2, h3⟩ := ih
    { fused with rowFlag := fused.rowFlag.fuseFlag row.rowFlag } hrows.2
    (hflag _ hdel) (fuseFlag_eq_notExist hexist)
  refine ⟨?_, h2, h3⟩
  rw [hover, ← h1, content, if_neg (hflag _ hdel)]

/-- **The fuser computes the fusion** of its rows, with the version of the first one. -/
theorem fuseRows_content (row : ObDatumRow ι α) (rows : List (ObDatumRow ι α))
    (hrows : ∀ r ∈ row :: rows, r.rowFlag.flag ≠ .notExist) :
    ∃ result, fuseRows (row :: rows) = .ok result ∧ result.transVersion = row.transVersion ∧
      result.rowFlag.flag ≠ .notExist ∧
      fuse ((row :: rows).map ObDatumRow.content) = some result.content := by
  rw [fuseRows]
  by_cases hd : row.rowFlag.flag = .delete
  · have hfold : ∀ (l : List ObDmlRowFlag) (f : ObDmlRowFlag), f.flag = .delete →
        (l.foldl ObDmlRowFlag.fuseFlag f).flag = .delete := by
      intro l
      induction l with
      | nil => exact fun _ h => h
      | cons x l ih => exact fun f h => ih _ (fuseFlag_eq_delete.mpr h)
    have hflag := hfold (rows.map rowFlag) row.rowFlag hd
    refine ⟨_, if_pos hd, rfl, by simp [hflag], ?_⟩
    have hrow : row.content = .deleted := if_pos hd
    rw [map_cons, hrow, content, if_pos hflag, RecordVersion.fuse_of_full (a := .deleted) trivial]
  rw [if_neg hd]
  rw [forall_mem_cons] at hrows
  refine ⟨_, rfl, ?_⟩
  have hend : ∀ r : ObDatumRow ι α, (endFuseRow r).transVersion = r.transVersion ∧
      (endFuseRow r).rowFlag = r.rowFlag ∧ (endFuseRow r).content = r.content := by
    intro r
    unfold endFuseRow
    split <;> exact ⟨rfl, rfl, rfl⟩
  obtain ⟨h1, h2, h3⟩ := hend (addFuseRows (row :: rows) cleanResultRow)
  rw [h1, h2, h3]
  have hfirst : addFuseRows (row :: rows) cleanResultRow =
      let result : ObDatumRow ι α :=
        { row with rowFlag := row.rowFlag.fuseFlag row.rowFlag, mvccRowFlag := {} }
      if allSet row.datums = true then result else addFuseRows rows result := by
    rw [addFuseRows]
    unfold ObRowFuse.fuseRow
    rw [if_neg (by simp [cleanResultRow, hrows.1])]
    simp only [if_neg hd, cleanResultRow, if_true]
  have hcontent : row.content = .live row.datums := if_neg hd
  have hdel : (row.rowFlag.fuseFlag row.rowFlag).flag ≠ .delete := fun h =>
    hd (fuseFlag_eq_delete.mp h)
  have hexist : (row.rowFlag.fuseFlag row.rowFlag).flag ≠ .notExist :=
    fuseFlag_eq_notExist hrows.1
  rw [hfirst]
  by_cases hall : allSet row.datums = true
  · rw [if_pos hall]
    refine ⟨rfl, hexist, ?_⟩
    rw [map_cons, hcontent, RecordVersion.fuse_of_full (full_of_allSet hall),
      content, if_neg hdel]
  rw [if_neg hall]
  obtain ⟨h4, h5, h6⟩ := addFuseRows_live
    { row with rowFlag := row.rowFlag.fuseFlag row.rowFlag, mvccRowFlag := {} } hrows.2 hdel
    hexist
  refine ⟨h5, h6, ?_⟩
  rw [← h4, map_cons, hcontent, content, if_neg hdel]

end Fuser

/-! ## The rows at the newest version -/

/-- The iterator after its current row, if it has more. -/
def MergeIter.advance (it : MergeIter ι α) : Option (MergeIter ι α) :=
  match it.rest with
  | [] => none
  | row :: rows => some ⟨row, rows⟩

/-- How many of the first iterators stand at the version `v`. -/
def topCount (v : ℕ) : List (MergeIter ι α) → ℕ
  | [] => 0
  | it :: its => if it.curr.transVersion = v then topCount v its + 1 else 0

/-- The iterators after the first `k` ones have moved on. -/
def afterTop (k : ℕ) (its : List (MergeIter ι α)) : List (MergeIter ι α) :=
  (its.take k).filterMap advance ++ its.drop k

def allRows (its : List (MergeIter ι α)) : List (ObDatumRow ι α) := its.flatMap rows

variable {its : List (MergeIter ι α)} {base : MergeIter ι α}

theorem topCount_le {v} : topCount v its ≤ its.length := by
  induction its with
  | nil => exact le_rfl
  | cons it its ih =>
  rw [topCount]
  split
  · exact Nat.succ_le_succ ih
  · exact Nat.zero_le _

theorem topCount_eq_zero {v} (h : ∀ it ∈ its, it.curr.transVersion < v) : topCount v its = 0 := by
  cases its with
  | nil => rfl
  | cons it its => exact if_neg (h it mem_cons_self).ne

theorem transVersion_of_mem_top {v it}
    (h : it ∈ its.take (topCount v its)) : it.curr.transVersion = v := by
  induction its with
  | nil => simp at h
  | cons x its ih =>
  rw [topCount] at h
  split at h
  · rw [take_succ_cons] at h
    rcases mem_cons.mp h with rfl | h
    · assumption
    · exact ih h
  · simp at h

/-- The current rows are committed, and newer tables have newer ones. -/
structure HeadsOk (its : List (MergeIter ι α)) : Prop where
  committed : ∀ it ∈ its, it.curr.mvccRowFlag.uncommitted = false
  ghost : ∀ it ∈ its, it.curr.mvccRowFlag.ghost = false
  order : its.Pairwise fun a b => b.curr.transVersion ≤ a.curr.transVersion

theorem HeadsOk.sublist {its its' : List (MergeIter ι α)} (h : HeadsOk its)
    (hs : its'.Sublist its) : HeadsOk its' :=
  ⟨fun it hit => h.committed it (hs.subset hit), fun it hit => h.ghost it (hs.subset hit),
    h.order.sublist hs⟩

theorem multiVersionCompare_eq {a b : MergeIter ι α} (ha : a.curr.mvccRowFlag.uncommitted = false) :
    a.multiVersionCompare b = compare b.curr.transVersion a.curr.transVersion := by
  unfold multiVersionCompare
  cases h : compare b.curr.transVersion a.curr.transVersion <;> simp [ha]

theorem findMinimumLoop_eq {idxs i} (h : HeadsOk (base :: its)) :
    findMinimumLoop base idxs i its = idxs ++ range' i (topCount base.curr.transVersion its) := by
  induction its generalizing idxs i with
  | nil => simp [findMinimumLoop, topCount]
  | cons it its ih =>
  obtain ⟨hbase, hits⟩ := pairwise_cons.mp h.order
  obtain ⟨hit, -⟩ := pairwise_cons.mp hits
  have hsub : HeadsOk (base :: its) := h.sublist ((sublist_cons_self it its).cons_cons base)
  have hle := hbase it mem_cons_self
  rw [findMinimumLoop, multiVersionCompare_eq (h.committed it (by simp)), topCount]
  rcases eq_or_lt_of_le hle with heq | hlt
  · rw [heq, Nat.compare_eq_eq.mpr rfl, if_pos rfl]
    dsimp only
    rw [ih hsub, range'_succ, append_assoc]
    rfl
  · rw [Nat.compare_eq_gt.mpr hlt, if_neg hlt.ne]
    dsimp only
    rw [ih hsub, topCount_eq_zero fun x hx => (hit x hx).trans_lt hlt]
    rfl

theorem findMinimum_eq (h : HeadsOk (base :: its)) : findMinimumItersWithSameRowkey (base :: its) =
      .ok (List.range (topCount base.curr.transVersion (base :: its))) := by
  rw [findMinimumItersWithSameRowkey, findMinimumLoop_eq h, topCount, if_pos rfl,
    range_eq_range', range'_succ]
  rfl

theorem filterMap_range_getElem? {β : Type*} (l : List β) {k} (hk : k ≤ l.length) :
    (List.range k).filterMap (l[·]?) = l.take k := by
  induction k with
  | zero => rfl
  | succ k ih =>
  rw [range_succ, filterMap_append, ih (Nat.le_of_succ_le hk), take_add_one]
  cases h : l[k]? <;> simp [h]

/-- The last flag tells whether an iterator has more rows. -/
def FlagOk (it : MergeIter ι α) : Prop := it.curr.mvccRowFlag.last = it.rest.isEmpty

theorem moveAndRemove_append (pre suf : List (MergeIter ι α)) (h : ∀ it ∈ pre, FlagOk it) :
    moveAndRemoveUnusedIters (pre ++ suf) (List.range pre.length) =
      .ok (pre.filterMap advance ++ suf) := by
  induction pre using List.reverseRecOn generalizing suf with
  | nil => rfl
  | append_singleton pre it ih =>
  rw [forall_mem_append] at h
  have hmove : moveIter (pre ++ it :: suf) pre.length =
      .ok (pre ++ (it.advance.toList ++ suf)) := by
    have hflag : it.curr.mvccRowFlag.last = it.rest.isEmpty := h.2 it (by simp)
    unfold moveIter
    simp only [List.getElem?_append_right le_rfl, Nat.sub_self, List.getElem?_cons_zero, hflag]
    cases hrest : it.rest with
    | nil => simp [MergeIter.advance, hrest, eraseIdx_append_of_length_le]
    | cons x xs =>
      simp [MergeIter.advance, MergeIter.next, hrest, Except.map, set_append_right]
  rw [length_append, length_singleton, moveAndRemoveUnusedIters, range_succ,
    foldr_append, append_assoc, singleton_append]
  simp only [foldr_cons, foldr_nil, Except.bind, hmove]
  have hrest := ih (it.advance.toList ++ suf) h.1
  unfold moveAndRemoveUnusedIters at hrest
  simp only [Except.bind] at hrest
  rw [hrest, filterMap_append, append_assoc]
  cases hadv : it.advance <;> simp [hadv]

theorem moveAndRemove_top {k} (hk : k ≤ its.length) (h : ∀ it ∈ its, FlagOk it) :
    moveAndRemoveUnusedIters its (List.range k) = .ok (afterTop k its) := by
  have hmove := moveAndRemove_append (its.take k) (its.drop k) fun it hit =>
    h it (mem_of_mem_take hit)
  rwa [take_append_drop, length_take, Nat.min_eq_left hk] at hmove

/-! ## Iterators at versions -/

/-- Iterators that give versions, the newer tables newer ones. -/
structure Ordered (its : List (MergeIter ι α)) : Prop where
  versions : ∀ it ∈ its, IsVersions it.rows
  order : its.Pairwise fun a b => ∀ x ∈ a.rows, ∀ y ∈ b.rows, y.transVersion ≤ x.transVersion

namespace Ordered

variable {its : List (MergeIter ι α)} {it : MergeIter ι α}

theorem headsOk (h : Ordered its) : HeadsOk its :=
  ⟨fun it hit => ((h.versions it hit).version _ mem_cons_self).uncommitted,
    fun it hit => ((h.versions it hit).version _ mem_cons_self).ghost,
    h.order.imp fun hab => hab _ mem_cons_self _ mem_cons_self⟩

theorem flagOk (h : Ordered its) (hit : it ∈ its) : FlagOk it := (h.versions it hit).last.1

theorem tail (h : Ordered (it :: its)) : Ordered its :=
  ⟨fun x hx => h.versions x (mem_cons_of_mem _ hx), (pairwise_cons.mp h.order).2⟩

theorem advance {it'} (h : Ordered (it :: its)) (ha : it.advance = some it') :
    Ordered (it' :: its) ∧ it.rest = it'.rows := by
  have hrest : it.rest = it'.rows := by
    unfold MergeIter.advance at ha
    split at ha
    · exact nomatch ha
    rename_i heq
    obtain ⟨⟩ := ha
    exact heq
  obtain ⟨hfirst, hothers⟩ := pairwise_cons.mp h.order
  have hv := h.versions it mem_cons_self
  have hsub : ∀ x ∈ it'.rows, x ∈ it.rows := fun x hx => mem_cons_of_mem _ (hrest ▸ hx)
  refine ⟨⟨forall_mem_cons.mpr ⟨⟨fun x hx => hv.version x (hsub x hx), ?_, ?_⟩, fun x hx =>
    h.versions x (mem_cons_of_mem _ hx)⟩, pairwise_cons.mpr ⟨fun b hb x hx =>
    hfirst b hb x (hsub x hx), hothers⟩⟩, hrest⟩
  · exact hrest ▸ (pairwise_cons.mp hv.sorted).2
  · exact hrest ▸ hv.last.2

theorem lt_of_mem_rest (h : Ordered (it :: its)) {x} (hx : x ∈ it.rest) :
    x.transVersion < it.curr.transVersion :=
  (pairwise_cons.mp (h.versions it mem_cons_self).sorted).1 x hx

/-- **The rows at the newest version** stand at the front, and what is left is older. -/
theorem split {v} (h : Ordered its) (hv : ∀ it ∈ its, it.curr.transVersion ≤ v) :
    allRows its = (its.take (topCount v its)).map curr ++
        allRows (afterTop (topCount v its) its) ∧ Ordered (afterTop (topCount v its) its) ∧
      ∀ x ∈ allRows (afterTop (topCount v its) its), x.transVersion < v := by
  induction its with
  | nil => exact ⟨rfl, h, forall_mem_nil _⟩
  | cons it its ih =>
  rw [forall_mem_cons] at hv
  obtain ⟨hfirst, -⟩ := pairwise_cons.mp h.order
  by_cases heq : it.curr.transVersion = v
  · rw [topCount, if_pos heq]
    cases hadv : it.advance with
    | none =>
      have hrest : it.rest = [] := by
        unfold MergeIter.advance at hadv
        split at hadv
        · assumption
        · exact nomatch hadv
      obtain ⟨h1, h2, h3⟩ := ih h.tail hv.2
      have hafter : afterTop (topCount v its + 1) (it :: its) = afterTop (topCount v its) its := by
        simp [afterTop, hadv]
      rw [hafter]
      refine ⟨?_, h2, h3⟩
      rw [take_succ_cons, map_cons, cons_append, ← h1]
      simp [allRows, rows, hrest]
    | some it' =>
    -- an iterator with more rows is the last one at this version
    obtain ⟨hord, hrows⟩ := h.advance hadv
    have hlt : it'.curr.transVersion < v := heq ▸ h.lt_of_mem_rest (by
      rw [hrows]
      exact mem_cons_self)
    have hbelow : ∀ x ∈ its, x.curr.transVersion < v := fun x hx =>
      (((pairwise_cons.mp hord.order).1 x hx) _ mem_cons_self _ mem_cons_self).trans_lt hlt
    have hafter : afterTop (topCount v its + 1) (it :: its) = it' :: its := by
      simp [afterTop, hadv, topCount_eq_zero hbelow]
    rw [hafter, topCount_eq_zero hbelow]
    refine ⟨?_, hord, fun x hx => ?_⟩
    · simp [allRows, rows, hrows]
    obtain ⟨y, hy, hxy⟩ := mem_flatMap.mp hx
    rcases mem_cons.mp hy with rfl | hy
    · exact heq ▸ h.lt_of_mem_rest (hrows ▸ hxy)
    · exact ((pairwise_cons.mp hord.order).1 y hy _ mem_cons_self x hxy).trans_lt hlt
  · have hlt : it.curr.transVersion < v := lt_of_le_of_ne hv.1 heq
    rw [topCount, if_neg heq]
    refine ⟨rfl, h, fun x hx => ?_⟩
    obtain ⟨y, hy, hxy⟩ := mem_flatMap.mp hx
    rcases mem_cons.mp hy with rfl | hy
    · rcases mem_cons.mp hxy with rfl | hxy
      · exact hlt
      · exact (h.lt_of_mem_rest hxy).trans hlt
    · exact (hfirst y hy _ mem_cons_self x hxy).trans_lt hlt

end Ordered

/-! ## One round -/

theorem setResultFlag_spec (others : List (MergeIter ι α))
    (result : ObDatumRow ι α) (first addShadow needCheckLast : Bool)
    (hcommitted : base.curr.mvccRowFlag.uncommitted = false)
    (hghost : base.curr.mvccRowFlag.ghost = false) :
    ∃ row, setResultFlag (base :: others) first addShadow needCheckLast result = .ok row ∧
      row.transVersion = result.transVersion ∧ row.rowFlag = result.rowFlag ∧
      row.datums = result.datums ∧ row.mvccRowFlag.uncommitted = false ∧
      row.mvccRowFlag.ghost = false ∧ row.mvccRowFlag.first = first ∧
      row.mvccRowFlag.last = (base.curr.mvccRowFlag.last && (needCheckLast &&
        others.all fun it => it.curr.mvccRowFlag.last)) ∧
      row.mvccRowFlag.shadow = (addShadow || base.curr.mvccRowFlag.shadow) := by
  have hlast : (if (base.curr.mvccRowFlag.ghost || !base.curr.mvccRowFlag.last) = true then
      base.curr.mvccRowFlag.last else needCheckLast && others.all fun it =>
        it.curr.mvccRowFlag.last) = (base.curr.mvccRowFlag.last && (needCheckLast &&
        others.all fun it => it.curr.mvccRowFlag.last)) := by
    cases base.curr.mvccRowFlag.last <;> simp [hghost]
  unfold setResultFlag
  cases addShadow with
  | true =>
    dsimp only
    rw [if_pos rfl, if_neg (by simp [hcommitted])]
    exact ⟨_, rfl, rfl, rfl, rfl, hcommitted, hghost, rfl, hlast, rfl⟩
  | false =>
    dsimp only
    rw [if_neg Bool.false_ne_true]
    exact ⟨_, rfl, rfl, rfl, rfl, hcommitted, hghost, rfl, hlast, by simp⟩

section Round

variable [Fintype ι]

/-- **The row that a round appends** holds the fusion of the current rows. -/
theorem fusedRow_spec (base : MergeIter ι α) (others : List (MergeIter ι α))
    (first addShadow needCheckLast : Bool) (hcommitted : base.curr.mvccRowFlag.uncommitted = false)
    (hghost : base.curr.mvccRowFlag.ghost = false)
    (hexist : ∀ it ∈ base :: others, it.curr.rowFlag.flag ≠ .notExist) :
    ∃ row, fusedRow (base :: others) first addShadow needCheckLast = .ok row ∧
      row.transVersion = base.curr.transVersion ∧ row.rowFlag.flag ≠ .notExist ∧
      fuse ((base :: others).map fun it => it.curr.content) = some row.content ∧
      row.mvccRowFlag.uncommitted = false ∧ row.mvccRowFlag.ghost = false ∧
      row.mvccRowFlag.first = first ∧
      row.mvccRowFlag.last = (base.curr.mvccRowFlag.last && (needCheckLast &&
        others.all fun it => it.curr.mvccRowFlag.last)) ∧
      row.mvccRowFlag.shadow = (addShadow || base.curr.mvccRowFlag.shadow) := by
  obtain ⟨result, hresult, hversion, hflag, hcontent⟩ :=
    fuseRows_content base.curr (others.map curr) fun r hr => by
      rw [← map_cons (f := curr)] at hr
      obtain ⟨it, hit, rfl⟩ := mem_map.mp hr
      exact hexist it hit
  obtain ⟨row, hrow, h1, h2, h3, h4, h5, h6, h7, h8⟩ :=
    setResultFlag_spec others result first addShadow needCheckLast hcommitted hghost
  refine ⟨row, ?_, h1.trans hversion, h2 ▸ hflag, ?_, h4, h5, h6, h7, h8⟩
  · unfold fusedRow
    rw [map_cons, hresult]
    exact hrow
  · rw [content, h2, h3]
    rw [← map_cons (f := curr), map_map] at hcontent
    exact hcontent

/-- An appended row stands for the rows `g` of its version. -/
structure Fuses (g : List (ObDatumRow ι α)) (row : ObDatumRow ι α) : Prop where
  version : ∀ x ∈ g, x.transVersion = row.transVersion
  ne_nil : g ≠ []
  content : fuse (g.map ObDatumRow.content) = some row.content

variable {gs : List (List (ObDatumRow ι α))} {rows : List (ObDatumRow ι α)}
  {its : List (MergeIter ι α)}

omit [Fintype ι] in
theorem exists_mem_flatten (h : List.Forall₂ Fuses gs rows) {row} (hrow : row ∈ rows) :
    ∃ x ∈ gs.flatten, x.transVersion = row.transVersion := by
  induction h with
  | nil => exact nomatch hrow
  | @cons g r gs rows hg _ ih =>
  rw [flatten_cons]
  rcases mem_cons.mp hrow with rfl | hrow
  · obtain ⟨x, hx⟩ := exists_mem_of_ne_nil g hg.ne_nil
    exact ⟨x, mem_append_left _ hx, hg.version x hx⟩
  · obtain ⟨x, hx, hversion⟩ := ih hrow
    exact ⟨x, mem_append_right _ hx, hversion⟩

omit [Fintype ι] in
theorem isEmpty_of_forall₂_fuses
    (h : List.Forall₂ Fuses gs rows) : rows.isEmpty = gs.flatten.isEmpty := by
  cases h with
  | nil => rfl
  | @cons g r gs rows hg _ =>
  obtain ⟨x, xs, rfl⟩ := exists_cons_of_ne_nil hg.ne_nil
  rfl

omit [Fintype ι] in
theorem allRows_isEmpty (its : List (MergeIter ι α)) : (allRows its).isEmpty = its.isEmpty := by
  cases its with
  | nil => rfl
  | cons it its => simp [allRows, rows]

omit [Fintype ι] in
theorem advance_eq_none {it : MergeIter ι α} (h : FlagOk it) :
    it.advance = none ↔ it.curr.mvccRowFlag.last = true := by
  unfold FlagOk at h
  unfold advance
  rw [h]
  cases it.rest <;> simp

omit [Fintype ι] in
theorem afterTop_isEmpty {k : ℕ} (hk : k ≤ its.length) (h : ∀ it ∈ its, FlagOk it) :
    (afterTop k its).isEmpty = (decide (k = its.length) &&
      (its.take k).all fun it => it.curr.mvccRowFlag.last) := by
  have hempty : ((afterTop k its).isEmpty = true) ↔
      (∀ it ∈ its.take k, it.advance = none) ∧ its.length ≤ k := by
    rw [List.isEmpty_iff, afterTop, append_eq_nil_iff, filterMap_eq_nil_iff, drop_eq_nil_iff]
  rw [Bool.eq_iff_iff, hempty, Bool.and_eq_true, decide_eq_true_eq, all_eq_true]
  refine ⟨fun ⟨hnone, hlen⟩ => ⟨le_antisymm hk hlen, fun it hit => ?_⟩,
    fun ⟨hlen, hlast⟩ => ⟨fun it hit => ?_, hlen.ge⟩⟩
  · exact (advance_eq_none (h it (mem_of_mem_take hit))).mp (hnone it hit)
  · exact (advance_eq_none (h it (mem_of_mem_take hit))).mpr (hlast it hit)

omit [Fintype ι] in
theorem tryRemoveGhostIters_eq {first} (h : ∀ it ∈ its, it.curr.mvccRowFlag.ghost = false) :
    tryRemoveGhostIters its first = .ok its := by
  unfold tryRemoveGhostIters
  split
  · rfl
  have hnone : ((List.range its.length).filter fun i =>
      (its[i]?).any fun it => it.curr.mvccRowFlag.ghost) = [] := by
    refine filter_eq_nil_iff.mpr fun i _ => ?_
    cases hi : its[i]? with
    | none => simp
    | some it => simp [h it (mem_of_getElem? hi)]
  rw [hnone, if_pos (.inl rfl)]

section Unfold

variable {base : MergeIter ι α} {others : List (MergeIter ι α)} {k : ℕ}

omit [Fintype ι] in
theorem take_topCount : (base :: others).take (topCount base.curr.transVersion (base :: others)) =
    base :: others.take (topCount base.curr.transVersion others) := by
  rw [topCount, if_pos rfl, take_succ_cons]

omit [Fintype ι] in
theorem length_take_topCount :
    (base :: others.take (topCount base.curr.transVersion others)).length =
    topCount base.curr.transVersion (base :: others) := by
  rw [← take_topCount, length_take, Nat.min_eq_left topCount_le]

theorem mergeLoop_round (h : HeadsOk (base :: others)) {first}
    (hshadow : base.curr.mvccRowFlag.shadow = false) :
    mergeLoop (k + 1) (base :: others) first true =
      (fusedRow (base :: others.take (topCount base.curr.transVersion others)) first false
        (!decide (topCount base.curr.transVersion (base :: others) ≠ (base :: others).length))).bind
          fun row => ((moveAndRemoveUnusedIters (base :: others)
            (List.range (topCount base.curr.transVersion (base :: others)))).bind
              fun iters => mergeLoop k iters false true).map (row :: ·) := by
  rw [mergeLoop, isEmpty_cons, if_neg Bool.false_ne_true, tryRemoveGhostIters_eq h.ghost]
  simp only [Except.bind, findMinimum_eq h, filterMap_range_getElem? _ topCount_le, take_topCount,
    length_take_topCount, hshadow, Bool.not_true, Bool.false_and, Bool.and_false,
      Bool.false_eq_true, if_false]

theorem mergeLoop_first (h : HeadsOk (base :: others)) {first}
    (hcompact : base.isCompactCompletedRow = true) :
    mergeLoop (k + 1) (base :: others) first false = (checkAddShadowRow (base :: others) (decide
        (topCount base.curr.transVersion (base :: others) ≠ (base :: others).length))).bind
          fun addShadowRow => (fusedRow (base :: others) first addShadowRow (!decide
            (topCount base.curr.transVersion (base :: others) ≠ (base :: others).length))).bind
              fun row => ((if addShadowRow then skipShadowRow (base :: others)
                else moveAndRemoveUnusedIters (base :: others)
                  (List.range (topCount base.curr.transVersion (base :: others)))).bind
                fun iters => mergeLoop k iters false true).map (row :: ·) := by
  rw [mergeLoop, isEmpty_cons, if_neg Bool.false_ne_true, tryRemoveGhostIters_eq h.ghost]
  simp only [Except.bind, findMinimum_eq h, filterMap_range_getElem? _ topCount_le, take_topCount,
    length_take_topCount, hcompact, Bool.not_false, Bool.true_and, if_true]

end Unfold

/-- **The loop once the shadow row is out**: it appends one row for each version. -/
theorem mergeLoop_spec : ∀ (k : ℕ) {its : List (MergeIter ι α)}, Ordered its →
    (allRows its).length < k →
    ∃ rows gs, mergeLoop k its false true = .ok rows ∧ gs.flatten = allRows its ∧
      List.Forall₂ Fuses gs rows ∧ IsVersions rows ∧
      ∀ row ∈ rows, row.mvccRowFlag.first = false := by
  intro k
  induction k with
  | zero => exact fun _ hk => absurd hk (Nat.not_lt_zero _)
  | succ k ih =>
    intro its h hk
    cases its with
    | nil => exact ⟨[], [], rfl, rfl, .nil, ⟨forall_mem_nil _, .nil, trivial⟩, forall_mem_nil _⟩
    | cons base others =>
    set v := base.curr.transVersion with hv
    set n := topCount v (base :: others) with hn
    have htake : (base :: others).take n = base :: others.take (topCount v others) := take_topCount
    have hbase : IsVersion base.curr :=
      (h.versions base mem_cons_self).version _ mem_cons_self
    have hheads : ∀ it ∈ base :: others, it.curr.transVersion ≤ v := by
      refine forall_mem_cons.mpr ⟨le_rfl, fun it hit => ?_⟩
      exact (pairwise_cons.mp h.order).1 it hit _ mem_cons_self _ mem_cons_self
    obtain ⟨hsplit, hafter, hless⟩ := h.split hheads
    rw [← hn, htake] at hsplit
    rw [← hn] at hafter hless
    obtain ⟨row, hrow, hversion, hflag, hcontent, hunc, hghost, hfirst, hlast, hshadow⟩ :=
      fusedRow_spec base (others.take (topCount v others)) false false
        (!decide (n ≠ (base :: others).length)) hbase.uncommitted hbase.ghost fun it hit =>
          ((h.versions it (mem_of_mem_take (htake ▸ hit))).version _ mem_cons_self).exist
    have hempty : row.mvccRowFlag.last = (afterTop n (base :: others)).isEmpty := by
      rw [hlast, afterTop_isEmpty topCount_le fun it hit => h.flagOk hit, htake, all_cons,
        decide_not, Bool.not_not, Bool.and_left_comm]
    have hlen : (allRows (afterTop n (base :: others))).length < k := by
      rw [hsplit, length_append, map_cons, length_cons] at hk
      omega
    obtain ⟨rows, gs, hloop, hflat, hfuses, hrows, hfirsts⟩ := ih hafter hlen
    refine ⟨row :: rows, (base :: others.take (topCount v others)).map curr :: gs, ?_, ?_,
      .cons ⟨?_, by simp, ?_⟩ hfuses, ⟨forall_mem_cons.mpr ⟨⟨hunc, hghost, ?_, hflag⟩,
        hrows.version⟩, pairwise_cons.mpr ⟨fun r hr => ?_, hrows.sorted⟩, ?_, hrows.last⟩,
      forall_mem_cons.mpr ⟨hfirst, hfirsts⟩⟩
    · rw [mergeLoop_round h.headsOk hbase.shadow, hrow,
        moveAndRemove_top topCount_le fun it hit => h.flagOk hit]
      simp only [Except.bind, Except.map, hloop, ← hv, ← hn]
    · rw [flatten_cons, hflat, hsplit]
    · intro x hx
      obtain ⟨it, hit, rfl⟩ := mem_map.mp hx
      rw [← htake] at hit
      exact (transVersion_of_mem_top hit).trans hversion.symm
    · rw [map_map]
      exact hcontent
    · rw [hshadow, hbase.shadow, Bool.or_self]
    · obtain ⟨x, hx, hxr⟩ := exists_mem_flatten hfuses hr
      rw [hversion, ← hxr]
      exact hless x (hflat ▸ hx)
    · rw [hempty, isEmpty_of_forall₂_fuses hfuses, hflat, allRows_isEmpty]

end Round

end OceanBase.Compaction
