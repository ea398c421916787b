import OceanBase.Compaction.MinorMergeLoop

/-!
# Minor compaction preserves snapshot reads

The rows that `merge_same_rowkey_iters` appends are a well-formed list of versions again, and at
every snapshot they show what the rows of the input tables showed: each appended version is the
fusion of the input rows of its version, so that a snapshot cuts the input between two of these
groups.

## Main results

* `mergeSameRowkeyIters_preserves_reads`
-/

universe u v

namespace OceanBase.Compaction

open MergeIter List ObDatumRow

open RecordVersion (Covers fuse)

variable {ι : Type u} {α : Type v}

/-! ## Appended rows -/

/-- The appended rows stand for the rows of the input. -/
structure Merged (out input : List (ObDatumRow ι α)) : Prop where
  wellFormed : WellFormed out
  first : FirstFlag out
  fuses : ∃ gs : List (List (ObDatumRow ι α)), gs.flatten = input ∧
    List.Forall₂ Fuses gs (nonShadow out)

variable {rows : List (ObDatumRow ι α)} {gs : List (List (ObDatumRow ι α))} {row : ObDatumRow ι α}

theorem Merged.single {input} (hrow : IsVersion row)
    (hlast : row.mvccRowFlag.last = true) (hfirst : row.mvccRowFlag.first = true)
    (h : Fuses input row) : Merged [row] input := by
  have hself : nonShadow [row] = [row] :=
    nonShadow_of_isVersion (forall_mem_singleton.mpr hrow)
  refine ⟨⟨hself.symm ▸ ⟨forall_mem_singleton.mpr hrow, pairwise_singleton _ _, hlast,
    trivial⟩, .inl ⟨hself, rfl⟩⟩, ⟨row, [], rfl, hfirst, nofun⟩, [input], append_nil input, ?_⟩
  rw [hself]
  exact .cons h .nil

theorem Merged.of_shadow (hrows : IsVersions rows) (hshadow : IsShadow row rows)
    (hlen : 2 ≤ rows.length) (hfirst : row.mvccRowFlag.first = true)
    (hfirsts : ∀ r ∈ rows, r.mvccRowFlag.first = false) (h : List.Forall₂ Fuses gs rows) :
    Merged (row :: rows) gs.flatten := by
  have hself : nonShadow (row :: rows) = rows := by
    rw [nonShadow, filter_cons_of_neg (by simp [hshadow.shadow])]
    exact nonShadow_of_isVersion hrows.version
  refine ⟨⟨hself.symm ▸ hrows, .inr ⟨row, ?_⟩⟩, ⟨row, rows, rfl, hfirst, hfirsts⟩, gs, rfl, ?_⟩
  · rw [hself]
    exact ⟨rfl, hlen, hshadow⟩
  · rw [hself]
    exact h

/-! ## Reads at a snapshot -/

theorem exists_fuses_filter (h : List.Forall₂ Fuses gs rows) (S : ℕ) :
    ∃ gs' : List (List (ObDatumRow ι α)),
      gs'.flatten = gs.flatten.filter (fun r => decide (r.transVersion ≤ S)) ∧
      List.Forall₂ Fuses gs' (rows.filter fun r => decide (r.transVersion ≤ S)) := by
  induction h with
  | nil => exact ⟨[], rfl, .nil⟩
  | @cons g row gs rows hg _ ih =>
  obtain ⟨gs', hflat, hfuses⟩ := ih
  rw [flatten_cons, filter_append, ← hflat]
  by_cases hS : row.transVersion ≤ S
  · have hkeep : g.filter (fun r => decide (r.transVersion ≤ S)) = g :=
      filter_eq_self.mpr fun r hr => decide_eq_true (hg.version r hr ▸ hS)
    rw [hkeep, filter_cons_of_pos (by simpa using hS)]
    exact ⟨g :: gs', rfl, .cons hg hfuses⟩
  · have hdrop : g.filter (fun r => decide (r.transVersion ≤ S)) = [] :=
      filter_eq_nil_iff.mpr fun r hr => by simpa [hg.version r hr] using hS
    rw [hdrop, filter_cons_of_neg (by simpa using hS)]
    exact ⟨gs', rfl, hfuses⟩

theorem fuse_of_forall₂ (h : List.Forall₂ Fuses gs rows)
    (hcovers : (gs.flatten.map content).IsChain Covers) :
    fuse (rows.map content) = fuse (gs.flatten.map content) := by
  rw [map_flatten] at hcovers ⊢
  apply RecordVersion.fuse_flatten hcovers
  clear hcovers
  induction h with
  | nil => rfl
  | cons hg _ ih =>
  simp only [map_cons, hg.content] at ih ⊢
  rw [ih]

theorem filter_suffix {l : List (ObDatumRow ι α)}
    (h : l.Pairwise fun a b => b.transVersion ≤ a.transVersion) (S : ℕ) :
    l.filter (fun r => decide (r.transVersion ≤ S)) <:+ l := by
  induction l with
  | nil => exact suffix_rfl
  | cons row l ih =>
  obtain ⟨hrow, hl⟩ := pairwise_cons.mp h
  by_cases hS : row.transVersion ≤ S
  · have hall : ∀ r ∈ row :: l, decide (r.transVersion ≤ S) = true := fun r hr =>
      decide_eq_true ((mem_cons.mp hr).elim (fun heq => heq ▸ hS) fun hr =>
        (hrow r hr).trans hS)
    rw [filter_eq_self.mpr hall]
  · rw [filter_cons_of_neg (by simpa using hS)]
    exact (ih hl).trans (suffix_cons row l)

section Reads

variable {out input : List (ObDatumRow ι α)}

section

variable (h : Merged out input)
  (hsorted : input.Pairwise fun a b => b.transVersion ≤ a.transVersion)
  (hcovers : (input.map content).IsChain Covers)
include h hsorted hcovers

/-- **Appended rows show what the input showed**, at every snapshot. -/
theorem Merged.reads (S : ℕ) :
    fuse (((nonShadow out).filter fun r => decide (r.transVersion ≤ S)).map content) =
      fuse ((input.filter fun r => decide (r.transVersion ≤ S)).map content) := by
  obtain ⟨gs, rfl, hfuses⟩ := h.fuses
  obtain ⟨gs', hflat, hfuses'⟩ := exists_fuses_filter hfuses S
  have hsuffix := (filter_suffix hsorted S).map content
  rw [← hflat] at hsuffix ⊢
  exact fuse_of_forall₂ hfuses' (hcovers.suffix hsuffix)

/-- **The shadow row shows what the input showed** at the snapshots that see every version. -/
theorem Merged.shadow {row} (hrow : row ∈ out) (hshadow : row.mvccRowFlag.shadow = true) {S}
    (hS : row.transVersion ≤ S) :
    fuse ((input.filter fun r => decide (r.transVersion ≤ S)).map content) =
      some row.content := by
  rw [← h.reads hsorted hcovers S]
  obtain ⟨hversions, ⟨hself, -⟩ | ⟨sh, heq, -, hsh⟩⟩ := h.wellFormed
  · -- without a shadow row in the list there is none
    have := (hversions.version row (hself.symm ▸ hrow)).shadow
    exact absurd (hshadow.symm.trans this) (by simp)
  have hout : row = sh := by
    rw [heq] at hrow
    refine (mem_cons.mp hrow).resolve_right fun hmem => ?_
    exact absurd (hshadow.symm.trans (hversions.version row hmem).shadow) (by simp)
  subst hout
  obtain ⟨r, rs, hrs⟩ : ∃ r rs, nonShadow out = r :: rs :=
    exists_cons_of_ne_nil fun hnil => absurd hsh.version (by rw [hnil]; exact nofun)
  have hhead : r.transVersion = row.transVersion := by
    have := hsh.version
    rw [hrs] at this
    exact Option.some.inj this
  have hall : (nonShadow out).filter (fun r => decide (r.transVersion ≤ S)) = nonShadow out := by
    refine filter_eq_self.mpr fun x hx => decide_eq_true ?_
    rw [hrs] at hx
    have hbelow := (pairwise_cons.mp (hrs ▸ hversions.sorted)).1
    rcases mem_cons.mp hx with rfl | hx
    · exact hhead.trans_le hS
    · exact (hbelow x hx).le.trans (hhead.trans_le hS)
  rw [hall, hsh.content]

end

end Reads

/-! ## The first round -/

/-- The iterator `it` stands at the first row of a well-formed list and `it'` at its first
version. -/
structure AtTop (it it' : MergeIter ι α) : Prop where
  rows : nonShadow it.rows = it'.rows
  versions : IsVersions it'.rows
  version : it'.curr.transVersion = it.curr.transVersion
  next : (if it.curr.mvccRowFlag.shadow then it.next else .ok it) = .ok it'
  content : fuse (it'.rows.map content) = some it.curr.content
  uncommitted : it.curr.mvccRowFlag.uncommitted = false
  ghost : it.curr.mvccRowFlag.ghost = false
  exist : it.curr.rowFlag.flag ≠ .notExist
  last : it.curr.mvccRowFlag.last = !it.curr.mvccRowFlag.shadow
  rest : it.curr.mvccRowFlag.shadow = !it'.rest.isEmpty

theorem WellFormed.atTop {it : MergeIter ι α} (h : WellFormed it.rows) : ∃ it', AtTop it it' := by
  obtain ⟨hversions, ⟨hself, hlen⟩ | ⟨sh, heq, hlen, hsh⟩⟩ := h
  · -- one version
    have hrest : it.rest = [] := length_eq_zero_iff.mp (by simpa [rows] using hlen)
    rw [hself] at hversions
    have hv := hversions.version _ mem_cons_self
    refine ⟨it, hself, hversions, rfl, by rw [if_neg (by simp [hv.shadow])], ?_, hv.uncommitted,
      hv.ghost, hv.exist, ?_, ?_⟩
    · rw [rows, hrest]
      exact RecordVersion.fuse_singleton
    · rw [hversions.last.1, hv.shadow, hrest]
      rfl
    · rw [hv.shadow, hrest]
      rfl
  -- the shadow row and what follows it
  obtain ⟨hcurr, hrest⟩ : it.curr = sh ∧ it.rest = nonShadow it.rows := List.cons.inj heq
  obtain ⟨r, rs, hrs⟩ : ∃ r rs, nonShadow it.rows = r :: rs :=
    exists_cons_of_ne_nil fun hnil => absurd hlen (by simp [hnil])
  rw [hrs] at hversions hlen hsh hrest
  have hversion := hsh.version
  refine ⟨⟨r, rs⟩, hrs, hversions, ?_, ?_, ?_, hcurr ▸ hsh.uncommitted, hcurr ▸ hsh.ghost,
    hcurr ▸ hsh.exist, ?_, ?_⟩
  · rw [hcurr]
    exact Option.some.inj hversion
  · rw [hcurr, hsh.shadow, if_pos rfl, MergeIter.next, hrest]
  · rw [hcurr]
    exact hsh.content
  · rw [hcurr, hsh.last, hsh.shadow]
    rfl
  · rw [hcurr, hsh.shadow]
    cases rs with
    | nil => exact absurd hlen (by simp)
    | cons _ _ => rfl

section First

variable {its its' : List (MergeIter ι α)}

theorem exists_forall₂_atTop (h : ∀ it ∈ its, WellFormed it.rows) :
    ∃ its', List.Forall₂ AtTop its its' := by
  induction its with
  | nil => exact ⟨[], .nil⟩
  | cons it its ih =>
  rw [forall_mem_cons] at h
  obtain ⟨it', hit⟩ := h.1.atTop
  obtain ⟨its', hits⟩ := ih h.2
  exact ⟨it' :: its', .cons hit hits⟩

section

variable (h : List.Forall₂ AtTop its its')
include h

theorem skipShadowRow_eq : skipShadowRow its = .ok its' := by
  unfold skipShadowRow
  induction h with
  | nil => rfl
  | cons hit _ ih =>
  rw [mapM_cons, hit.next, ih]
  rfl

theorem allRows_eq : (its.flatMap fun it => nonShadow it.rows) = allRows its' := by
  induction h with
  | nil => rfl
  | cons hit _ ih => rw [flatMap_cons, ih, hit.rows, allRows, allRows, flatMap_cons]

theorem fuse_heads (hcovers : ((allRows its').map content).IsChain Covers) :
    fuse (its.map fun it => it.curr.content) = fuse ((allRows its').map content) := by
  have hflat : (allRows its').map content =
      (its'.map fun it => it.rows.map content).flatten := by
    rw [allRows, map_flatMap, flatMap_def]
  rw [hflat] at hcovers ⊢
  apply RecordVersion.fuse_flatten hcovers
  clear hcovers hflat
  induction h with
  | nil => rfl
  | cons hit _ ih =>
  simp only [map_cons, hit.content] at ih ⊢
  rw [ih]

theorem map_transVersion :
    its.map (fun it => it.curr.transVersion) = its'.map fun it => it.curr.transVersion := by
  induction h with
  | nil => rfl
  | cons hit _ ih => rw [map_cons, map_cons, hit.version, ih]

theorem forall_of_atTop {p : MergeIter ι α → Prop}
    (hp : ∀ it it', AtTop it it' → p it) : ∀ it ∈ its, p it := by
  induction h with
  | nil => exact forall_mem_nil _
  | cons hit _ ih => exact forall_mem_cons.mpr ⟨hp _ _ hit, ih⟩

theorem headsOk_of_atTop (hord : Ordered its') : HeadsOk its := by
  refine ⟨forall_of_atTop h fun _ _ hit => hit.uncommitted,
    forall_of_atTop h fun _ _ hit => hit.ghost, ?_⟩
  have horder := hord.headsOk.order
  rw [← pairwise_map (f := fun it : MergeIter ι α => it.curr.transVersion)
    (R := fun a b => b ≤ a)] at horder ⊢
  rwa [map_transVersion h]

end

theorem isCompactCompletedRow_of_atTop {it it' : MergeIter ι α} (h : AtTop it it') :
    it.isCompactCompletedRow = true := by
  rw [isCompactCompletedRow, h.last, h.uncommitted]
  cases it.curr.mvccRowFlag.shadow <;> rfl

section

variable (h : List.Forall₂ AtTop its its')
include h

theorem all_last_eq :
    (its.all fun it => it.curr.mvccRowFlag.last) =
    !its.any fun it => it.curr.mvccRowFlag.shadow := by
  induction h with
  | nil => rfl
  | cons hit _ ih => rw [all_cons, any_cons, ih, hit.last, Bool.not_or]

theorem checkAddShadowRow_eq (isMulti : Bool) : checkAddShadowRow its isMulti =
      .ok (isMulti || its.any fun it => it.curr.mvccRowFlag.shadow) := by
  have hall : (its.all fun it => it.isCompactCompletedRow || it.curr.mvccRowFlag.ghost) = true :=
    all_eq_true.mpr <| forall_of_atTop h fun _ _ hit => by
      rw [isCompactCompletedRow_of_atTop hit, Bool.true_or]
  unfold checkAddShadowRow checkFirstCommittedRow
  rw [if_pos hall]
  rfl

theorem eq_of_no_shadow (hnone : (its.any fun it => it.curr.mvccRowFlag.shadow) = false) :
    its = its' ∧ allRows its' = its.map MergeIter.curr := by
  induction h with
  | nil => exact ⟨rfl, rfl⟩
  | @cons it it' its its' hit _ ih =>
  rw [any_cons, Bool.or_eq_false_iff] at hnone
  obtain ⟨heq, hrows⟩ := ih hnone.2
  have hnext := hit.next
  rw [hnone.1, if_neg Bool.false_ne_true] at hnext
  have hsame : it = it' := Except.ok.inj hnext
  have hrest : it'.rest = [] := by
    have := hit.rest
    rw [hnone.1] at this
    simpa using this
  refine ⟨by rw [hsame, heq], ?_⟩
  rw [allRows, flatMap_cons, ← allRows, hrows, rows, hrest, hsame]
  rfl

end

theorem topCount_eq_length {v} (h : ∀ it ∈ its, it.curr.transVersion = v) :
    topCount v its = its.length := by
  induction its with
  | nil => rfl
  | cons it its ih =>
  rw [forall_mem_cons] at h
  rw [topCount, if_pos h.1, ih h.2, length_cons]

theorem no_shadow_of_same {v} (h : List.Forall₂ AtTop its its')
    (hsame : ∀ x ∈ allRows its', x.transVersion = v) :
    (its.any fun it => it.curr.mvccRowFlag.shadow) = false ∧
      ∀ it ∈ its, it.curr.transVersion = v := by
  induction h with
  | nil => exact ⟨rfl, forall_mem_nil _⟩
  | @cons it it' its its' hit _ ih =>
  rw [allRows, flatMap_cons, ← allRows, rows, cons_append] at hsame
  obtain ⟨hcurr, hrows⟩ := forall_mem_cons.mp hsame
  obtain ⟨hnone, hversions⟩ := ih fun x hx => hrows x (mem_append_right _ hx)
  have hrest : it'.rest = [] := by
    refine eq_nil_iff_forall_not_mem.mpr fun x hx => ?_
    have hlt := (pairwise_cons.mp hit.versions.sorted).1 x hx
    have := hrows x (mem_append_left _ hx)
    omega
  refine ⟨?_, forall_mem_cons.mpr ⟨hit.version.symm.trans hcurr, hversions⟩⟩
  rw [any_cons, hnone, hit.rest, hrest]
  rfl

end First

theorem head_of_fuses (h : List.Forall₂ Fuses gs rows) :
    rows.head?.map transVersion = gs.flatten.head?.map transVersion := by
  cases h with
  | nil => rfl
  | @cons g row gs rows hg _ =>
  obtain ⟨x, xs, rfl⟩ := exists_cons_of_ne_nil hg.ne_nil
  exact congrArg some (hg.version x mem_cons_self).symm

theorem exists_mem_rows (h : List.Forall₂ Fuses gs rows) {x} (hx : x ∈ gs.flatten) :
    ∃ row ∈ rows, x.transVersion = row.transVersion := by
  induction h with
  | nil => exact nomatch hx
  | @cons g row gs rows hg _ ih =>
  rw [flatten_cons] at hx
  rcases mem_append.mp hx with hx | hx
  · exact ⟨row, mem_cons_self, hg.version x hx⟩
  obtain ⟨r, hr, heq⟩ := ih hx
  exact ⟨r, mem_cons_of_mem _ hr, heq⟩

section Loop

variable [Fintype ι] {its its' : List (MergeIter ι α)} {k : ℕ}

/-- **The loop appends rows that stand for the input.** -/
theorem mergeLoop_merged (h : List.Forall₂ AtTop its its') (hne : its ≠ []) (hord : Ordered its')
    (hcovers : ((allRows its').map content).IsChain Covers)
    (hk : (allRows its').length < k) :
    ∃ out, mergeLoop (k + 1) its true false = .ok out ∧ Merged out (allRows its') := by
  have hheads := headsOk_of_atTop h hord
  have hcheck := checkAddShadowRow_eq h
  have hfuse := fuse_heads h hcovers
  have hlasts := all_last_eq h
  cases h with
  | nil => exact absurd rfl hne
  | @cons base base' others others' hbase hothers =>
    have hat : List.Forall₂ AtTop (base :: others) (base' :: others') := .cons hbase hothers
    set isMulti := decide (topCount base.curr.transVersion (base :: others) ≠
      (base :: others).length) with hmulti
    set addShadow := isMulti || (base :: others).any fun it => it.curr.mvccRowFlag.shadow with hadd
    obtain ⟨row, hrow, hversion, hflag, hcontent, hunc, hghost, hfirst, hlast, hshadow⟩ :=
      fusedRow_spec base others true addShadow (!isMulti) hbase.uncommitted hbase.ghost
        (forall_of_atTop hat fun _ _ hit => hit.exist)
    have hlast' : row.mvccRowFlag.last = !addShadow := by
      rw [hlast, hadd, Bool.not_or, ← hlasts, all_cons, Bool.and_left_comm]
    rw [mergeLoop_first hheads (isCompactCompletedRow_of_atTop hbase), ← hmulti, hcheck isMulti,
      ← hadd]
    simp only [Except.bind, hrow]
    cases haddShadow : addShadow with
    | false =>
      -- one version in all tables: the fusion is the only row
      obtain ⟨hone, hnone⟩ := Bool.or_eq_false_iff.mp (hadd.symm.trans haddShadow)
      have hlen : topCount base.curr.transVersion (base :: others) = (base :: others).length := by
        simpa [hmulti] using hone
      obtain ⟨heq, hrows⟩ := eq_of_no_shadow hat hnone
      have hflags : ∀ it ∈ base :: others, FlagOk it := fun it hit => hord.flagOk (heq ▸ hit)
      have hafter : afterTop (topCount base.curr.transVersion (base :: others)) (base :: others) =
          [] := by
        rw [← List.isEmpty_iff, afterTop_isEmpty topCount_le hflags, hlen, take_length, hlasts,
          hnone, decide_eq_true rfl]
        rfl
      refine ⟨[row], ?_, .single ⟨hunc, hghost, ?_, hflag⟩ (by rw [hlast', haddShadow]; rfl) hfirst
        ⟨fun x hx => ?_, ?_, ?_⟩⟩
      · rw [if_neg Bool.false_ne_true, moveAndRemove_top topCount_le hflags, hafter]
        obtain ⟨k, rfl⟩ := Nat.exists_eq_succ_of_ne_zero (Nat.ne_zero_of_lt hk)
        rfl
      · rw [hshadow, haddShadow, Bool.false_or]
        exact (any_eq_false.mp hnone base mem_cons_self) |> Bool.eq_false_of_not_eq_true
      · rw [hrows] at hx
        obtain ⟨it, hit, rfl⟩ := mem_map.mp hx
        rw [hversion]
        exact transVersion_of_mem_top (by rwa [hlen, take_length])
      · rw [hrows]
        exact cons_ne_nil _ _
      · rw [← hfuse]
        exact hcontent
    | true =>
    obtain ⟨rows, gs, hloop, hflat, hfuses, hrows, hfirsts⟩ := mergeLoop_spec k hord hk
    refine ⟨row :: rows, ?_, hflat ▸ .of_shadow hrows ⟨hunc, hghost, ?_, ?_, hflag, ?_, ?_⟩ ?_
      hfirst hfirsts hfuses⟩
    · rw [if_pos rfl, skipShadowRow_eq hat]
      simp only [Except.map, hloop]
    · rw [hshadow, haddShadow, Bool.true_or]
    · rw [hlast', haddShadow]
      rfl
    · rw [head_of_fuses hfuses, hflat, hversion, ← hbase.version]
      rfl
    · rw [fuse_of_forall₂ hfuses (hflat.symm ▸ hcovers), hflat, ← hfuse]
      exact hcontent
    · -- with one row all versions would be equal
      by_contra hlt
      have hsame : ∀ x ∈ allRows (base' :: others'), x.transVersion = base.curr.transVersion := by
        intro x hx
        obtain ⟨r, hr, hxr⟩ := exists_mem_rows hfuses (hflat.symm ▸ hx)
        obtain ⟨r', hr', hbr⟩ := exists_mem_rows hfuses (x := base'.curr)
          (hflat.symm ▸ mem_cons_self)
        have hrr : r = r' := by
          obtain ⟨y, rfl⟩ := length_eq_one_iff.mp
            (le_antisymm (by omega) (length_pos_of_mem hr))
          rw [mem_singleton.mp hr, mem_singleton.mp hr']
        rw [hxr, hrr, ← hbr, hbase.version]
      obtain ⟨hnone, hversions⟩ := no_shadow_of_same hat hsame
      have : addShadow = false := by
        rw [hadd, hnone, hmulti, topCount_eq_length hversions]
        simp
      exact absurd (haddShadow.symm.trans this) (by simp)

end Loop

/-! ## One iterator -/

def ObDatumRow.withFirst (first : Bool) (row : ObDatumRow ι α) : ObDatumRow ι α :=
  { row with mvccRowFlag := { row.mvccRowFlag with first := first } }

theorem Fuses.withFirst (first : Bool) (row : ObDatumRow ι α) : Fuses [row] (row.withFirst first) :=
  ⟨forall_mem_singleton.mpr rfl, cons_ne_nil _ _, RecordVersion.fuse_singleton⟩

theorem IsVersions.withFirst (h : IsVersions rows) (first : Bool) :
    IsVersions (rows.map (withFirst first)) := by
  obtain ⟨hversion, hsorted, hlast⟩ := h
  refine ⟨fun row hrow => ?_, pairwise_map.mpr hsorted, ?_⟩
  · obtain ⟨r, hr, rfl⟩ := mem_map.mp hrow
    exact ⟨(hversion r hr).uncommitted, (hversion r hr).ghost, (hversion r hr).shadow,
      (hversion r hr).exist⟩
  clear hversion hsorted
  induction rows with
  | nil => trivial
  | cons row rows ih => exact ⟨hlast.1.trans isEmpty_map.symm, ih hlast.2⟩

theorem mergeSingleLoop_cons {first out} (hghost : row.mvccRowFlag.ghost = false) :
    mergeSingleLoop (row :: rows) first out =
      if (out && row.mvccRowFlag.shadow) = true then mergeSingleLoop rows false out
      else if row.mvccRowFlag.last = true then .ok [row.withFirst first]
      else (mergeSingleLoop rows false (out || row.mvccRowFlag.shadow)).map
        (row.withFirst first :: ·) := by
  rw [mergeSingleLoop, if_neg (by simp [hghost])]
  rfl

theorem mergeSingleLoop_versions (h : IsVersions rows) (hne : rows ≠ []) :
    mergeSingleLoop rows false true = .ok (rows.map (withFirst false)) := by
  induction rows with
  | nil => exact absurd rfl hne
  | cons row rows ih =>
    have hrow := h.version row mem_cons_self
    rw [mergeSingleLoop_cons hrow.ghost, hrow.shadow, h.last.1, if_neg (by simp)]
    cases rows with
    | nil => rfl
    | cons r rs =>
    rw [isEmpty_cons, if_neg Bool.false_ne_true, Bool.or_false, ih ⟨fun x hx =>
      h.version x (mem_cons_of_mem _ hx), (pairwise_cons.mp h.sorted).2, h.last.2⟩
      (cons_ne_nil _ _)]
    rfl

theorem mergeSingleLoop_merged {it it' : MergeIter ι α} (h : AtTop it it') :
    ∃ out, mergeSingleLoop it.rows true false = .ok out ∧ Merged out it'.rows := by
  have hnext := h.next
  rw [rows, mergeSingleLoop_cons h.ghost, h.last, Bool.false_and, if_neg Bool.false_ne_true]
  cases hshadow : it.curr.mvccRowFlag.shadow with
  | false =>
    rw [hshadow, if_neg Bool.false_ne_true] at hnext
    obtain ⟨rfl⟩ := Except.ok.inj hnext
    have hrest : it.rest = [] := by
      have := h.rest
      rw [hshadow] at this
      simpa using this
    have hlast : it.curr.mvccRowFlag.last = true := by
      rw [h.last, hshadow]
      rfl
    refine ⟨[it.curr.withFirst true], rfl, .single { h with shadow := hshadow } hlast rfl ?_⟩
    rw [rows, hrest]
    exact .withFirst true it.curr
  | true =>
  rw [hshadow, if_pos rfl] at hnext
  have hrest : it.rest = it'.rows := by
    unfold MergeIter.next at hnext
    split at hnext
    · cases hnext
    rename_i heq
    obtain ⟨⟩ := hnext
    exact heq
  have hmerged : Merged (it.curr.withFirst true :: it'.rows.map (withFirst false))
      (it'.rows.map fun row => [row]).flatten := by
    refine .of_shadow (h.versions.withFirst false)
      ⟨h.uncommitted, h.ghost, hshadow, ?_, h.exist, ?_, ?_⟩ ?_ rfl ?_ ?_
    · exact h.last.trans (by rw [hshadow]; rfl)
    · exact congrArg some h.version
    · rw [map_map]
      exact h.content
    · have := h.rest
      rw [hshadow] at this
      cases hcases : it'.rest with
      | nil => rw [hcases] at this; cases this
      | cons _ _ => simp [rows, hcases]
    · intro r hr
      obtain ⟨x, -, rfl⟩ := mem_map.mp hr
      rfl
    · refine forall₂_map_left_iff.mpr (forall₂_map_right_iff.mpr ?_)
      exact forall₂_same.mpr fun row _ => .withFirst false row
  rw [← flatMap_def, flatMap_singleton'] at hmerged
  refine ⟨_, ?_, hmerged⟩
  rw [hrest, Bool.false_or, mergeSingleLoop_versions h.versions (cons_ne_nil _ _)]
  rfl

/-! ## The merge of a rowkey -/

section Main

variable {its its' : List (MergeIter ι α)}

theorem ordered_of_atTop (h : List.Forall₂ AtTop its its')
    (horder : its.Pairwise fun newer older => ∀ a ∈ nonShadow newer.rows,
      ∀ b ∈ nonShadow older.rows, b.transVersion ≤ a.transVersion) : Ordered its' := by
  induction h with
  | nil => exact ⟨forall_mem_nil _, .nil⟩
  | @cons it it' its its' hit hits ih =>
  obtain ⟨hfirst, hothers⟩ := pairwise_cons.mp horder
  obtain ⟨hversions, hord⟩ := ih hothers
  refine ⟨forall_mem_cons.mpr ⟨hit.versions, hversions⟩, pairwise_cons.mpr ⟨fun b hb => ?_, hord⟩⟩
  obtain ⟨a, ha, hab⟩ : ∃ a ∈ its, AtTop a b := by
    clear ih hfirst hothers hversions hord horder
    induction hits with
    | nil => exact nomatch hb
    | @cons a b' _ _ hab _ ih =>
    rcases mem_cons.mp hb with rfl | hb
    · exact ⟨a, mem_cons_self, hab⟩
    obtain ⟨x, hx, hxb⟩ := ih hb
    exact ⟨x, mem_cons_of_mem _ hx, hxb⟩
  rw [← hit.rows, ← hab.rows]
  exact hfirst a ha

theorem Ordered.sorted (h : Ordered its) :
    (allRows its).Pairwise fun a b => b.transVersion ≤ a.transVersion := by
  refine pairwise_flatMap.mpr ⟨fun it hit => ?_, h.order⟩
  exact (h.versions it hit).sorted.imp le_of_lt

theorem length_allRows_le (h : List.Forall₂ AtTop its its') :
    (allRows its').length ≤ (its.map fun it => it.rest.length + 1).sum := by
  induction h with
  | nil => exact le_rfl
  | @cons it it' its its' hit _ ih =>
  have hle : it'.rows.length ≤ it.rest.length + 1 := by
    rw [← hit.rows]
    exact length_filter_le _ _
  rw [allRows, flatMap_cons, ← allRows, length_append, map_cons, sum_cons]
  omega

variable [Fintype ι]

theorem mergeSameRowkeyIters_merged (h : List.Forall₂ AtTop its its') (hne : its ≠ [])
    (hord : Ordered its') (hcovers : ((allRows its').map content).IsChain Covers) :
    ∃ out, mergeSameRowkeyIters its = .ok out ∧ Merged out (allRows its') := by
  have hlen := length_allRows_le h
  cases hat : h with
  | nil => exact absurd rfl hne
  | @cons it it' others others' hit hothers =>
    cases hothers with
    | nil =>
      obtain ⟨out, hout, hmerged⟩ := mergeSingleLoop_merged hit
      refine ⟨out, hout, ?_⟩
      rwa [allRows, flatMap_singleton]
    | cons _ _ =>
      exact mergeLoop_merged h hne hord hcovers (Nat.lt_succ_of_le hlen)

/-- **A minor merge preserves the reads at every snapshot.** For one rowkey and tables that hold
well-formed versions of it, newest table first, the merge appends a well-formed list of versions,
with the first flag on its first row only. At each snapshot its versions show what the versions of
the input showed, and so does its shadow row at the snapshots that see it. -/
theorem mergeSameRowkeyIters_preserves_reads (its : List (MergeIter ι α)) (hne : its ≠ [])
    (hwf : ∀ it ∈ its, WellFormed it.rows)
    (horder : its.Pairwise fun newer older => ∀ a ∈ nonShadow newer.rows,
      ∀ b ∈ nonShadow older.rows, b.transVersion ≤ a.transVersion)
    (hcovers : ((its.flatMap fun it => nonShadow it.rows).map content).IsChain Covers) :
    ∃ out, mergeSameRowkeyIters its = .ok out ∧ WellFormed out ∧ FirstFlag out ∧
      (∀ S, fuse (((nonShadow out).filter fun r => decide (r.transVersion ≤ S)).map
          content) = fuse (((its.flatMap fun it => nonShadow it.rows).filter fun r =>
          decide (r.transVersion ≤ S)).map content)) ∧
      ∀ row ∈ out, row.mvccRowFlag.shadow = true → ∀ S, row.transVersion ≤ S →
        fuse (((its.flatMap fun it => nonShadow it.rows).filter fun r =>
          decide (r.transVersion ≤ S)).map content) = some row.content := by
  obtain ⟨its', hat⟩ := exists_forall₂_atTop hwf
  have hord := ordered_of_atTop hat horder
  rw [allRows_eq hat] at hcovers ⊢
  obtain ⟨out, hout, hmerged⟩ := mergeSameRowkeyIters_merged hat hne hord hcovers
  exact ⟨out, hout, hmerged.wellFormed, hmerged.first, hmerged.reads hord.sorted hcovers,
    fun row hrow hshadow S hS => hmerged.shadow hord.sorted hcovers hrow hshadow hS⟩

end Main

/-- A table with an update of the first column by transaction `5`. -/
def updateTable : MergeIter (Fin 2) ℕ :=
  ⟨⟨5, 0, ⟨.update, false⟩, ![some 7, none], { last := true }⟩, []⟩

/-- An older table with a deletion by `2` and an insertion by `5`, below their shadow row. -/
def insertTable : MergeIter (Fin 2) ℕ :=
  ⟨⟨5, -(2 ^ 63 - 1), ⟨.insert, false⟩, ![some 1, some 2], { shadow := true }⟩,
    [⟨5, 0, ⟨.insert, false⟩, ![some 1, some 2], {}⟩,
      ⟨2, 0, ⟨.delete, false⟩, ![none, none], { last := true }⟩]⟩

theorem wellFormed_updateTable : WellFormed updateTable.rows :=
  ⟨⟨forall_mem_singleton.mpr ⟨rfl, rfl, rfl, by decide⟩, pairwise_singleton _ _, rfl,
    trivial⟩, .inl ⟨rfl, rfl⟩⟩

theorem wellFormed_insertTable : WellFormed insertTable.rows := by
  refine ⟨⟨fun row hrow => ?_, ?_, rfl, rfl, trivial⟩,
    .inr ⟨insertTable.curr, rfl, by decide, rfl, rfl, rfl, rfl, by decide, rfl, ?_⟩⟩
  · rcases mem_pair.mp hrow with rfl | rfl
    · exact ⟨rfl, rfl, rfl, by decide⟩
    · exact ⟨rfl, rfl, rfl, by decide⟩
  · exact pairwise_pair.mpr (by decide)
  · rfl

theorem mergeSameRowkeyIters_preserves_reads_spanning :
    ∃ out, mergeSameRowkeyIters [updateTable, insertTable] = .ok out ∧ WellFormed out ∧
      FirstFlag out ∧ fuse (((nonShadow out).filter fun r => decide (r.transVersion ≤ 4)).map
        content) = some .deleted := by
  obtain ⟨out, hout, hwf, hfirst, hreads, -⟩ := mergeSameRowkeyIters_preserves_reads
    [updateTable, insertTable] (by simp)
    (forall_mem_cons.mpr ⟨wellFormed_updateTable, forall_mem_singleton.mpr wellFormed_insertTable⟩)
    (pairwise_pair.mpr (by decide)) (by
      refine .cons_cons (fun h => nomatch h) (.cons_cons (fun _ => ?_) (.singleton _))
      exact full_of_allSet rfl)
  exact ⟨out, hout, hwf, hfirst, (hreads 4).trans rfl⟩

end OceanBase.Compaction
