import OceanBase.Lib.Machine
import OceanBase.Rootserver.LsBalance

/-!
# When the migration tasks form a matching

A redundant log stream should be sent to one unit group that lacks a log stream, and
`generate_migrate_task_` should go on until one side is used up. Its inner loop does not stop at
the first destination: it writes one task for every unit group that lacks a log stream. So the
tasks form a matching exactly when there is nothing to move or at most one place to move to.

One pass of the inner loop is a `Move`. What a move does is said once, in terms of three things:
the unit group ids, the redundant log streams and the numbers of lacking log streams.

## Main results

* `migrateTask_matching_iff`: when the tasks form a matching
-/

namespace OceanBase.Rootserver

open Relation List Except

variable {newLsGroupId : ℕ → ℕ} {ls : ObLSStatusInfo} {out out' : Output}
  {groups₀ groups groups' pre post : List ObUnitGroupBalanceInfo} {g g' : ObUnitGroupBalanceInfo}

/-! ## What a unit group lacks -/

namespace ObUnitGroupBalanceInfo

theorem lackLsCount_eq_zero (h : g.redundantLsArray ≠ []) : g.lackLsCount = 0 := by
  unfold lackLsCount isActive
  split
  · next hact => rw [g.redundant_full (by simpa using hact) h, Nat.sub_self]
  · rfl

theorem push_of_lack (ls : ObLSStatusInfo) (h : 0 < g.lackLsCount) :
    (g.push ls).normalLsArray = g.normalLsArray ++ [ls] ∧
      (g.push ls).redundantLsArray = g.redundantLsArray ∧ (g.push ls).unitGroupId = g.unitGroupId ∧
      (g.push ls).lackLsCount = g.lackLsCount - 1 := by
  unfold lackLsCount at h
  split at h
  case isFalse => exact absurd h (Nat.lt_irrefl 0)
  next hact =>
  have hroom : ¬ (g.primaryZoneCount ≤ g.normalLsArray.length ∨ g.isActive = false) := by
    rintro (hle | hin)
    · omega
    rw [hact] at hin
    exact Bool.noConfusion hin
  rw [push, dif_neg hroom]
  refine ⟨rfl, rfl, rfl, ?_⟩
  have hact' : g.unitGroup.status = .active := by simpa [isActive] using hact
  simp only [lackLsCount, isActive, hact', decide_true, if_true, length_append, length_singleton]
  omega

end ObUnitGroupBalanceInfo

open ObUnitGroupBalanceInfo

section

variable (groups : List ObUnitGroupBalanceInfo)

def lacking : List ObUnitGroupBalanceInfo :=
  groups.filter fun g => 0 < g.lackLsCount

def redundant : List ObLSStatusInfo :=
  groups.flatMap (·.redundantLsArray)

def totalLack : ℕ := (groups.map (·.lackLsCount)).sum

/-- How many log streams the unit group with id `u` lacks. -/
def lackAt (u : ℕ) : ℕ :=
  totalLack (groups.filter (·.unitGroupId = u))

end

/-- What the generation may assume: the unit groups differ from each other, and so do the
redundant log streams; the redundant log streams are valid, and the log-stream groups of those
that are kept are valid, which `generate_balance_job_` has checked before. -/
structure WellFormed (groups : List ObUnitGroupBalanceInfo) : Prop where
  ids : (groups.map (·.unitGroupId)).Nodup
  streams : ((redundant groups).map (·.lsId)).Nodup
  valid : ∀ ls ∈ redundant groups, ls.isValid = true
  lsGroups : ∀ g ∈ groups, ∀ ls ∈ g.normalLsArray, ls.lsGroupId ≠ invalidId

/-- The unit groups that `init` gathers differ from each other. -/
theorem WellFormed.of_init {pz units array groups} (h : initGroups pz units array = .ok groups)
    (hids : (units.map (·.unitGroupId)).Nodup) (hstreams : ((redundant groups).map (·.lsId)).Nodup)
    (hvalid : ∀ ls ∈ redundant groups, ls.isValid = true)
    (hgroups : ∀ g ∈ groups, ∀ ls ∈ g.normalLsArray, ls.lsGroupId ≠ invalidId) :
    WellFormed groups :=
  ⟨initGroups_ids_nodup h hids, hstreams, hvalid, hgroups⟩

/-- **The tasks form a matching** of redundant log streams with places that lack one. -/
structure Matching (groups : List ObUnitGroupBalanceInfo) (out : Output) : Prop where
  once : (out.taskArray.map (·.lsId)).Nodup
  fromRedundant : ∀ t ∈ out.taskArray, ∃ ls ∈ redundant groups, ls.lsId = t.lsId
  toLacking : ∀ t ∈ out.taskArray, ∃ g ∈ lacking groups, g.unitGroupId = t.destUnitGroup
  length : out.taskArray.length = min (redundant groups).length (totalLack groups)
  bounded : ∀ g ∈ groups,
    (out.taskArray.map (·.destUnitGroup)).count g.unitGroupId ≤ g.lackLsCount

/-! ## The inner loop -/

/-- What the inner loop does to one unit group. -/
def Filled (ls : ObLSStatusInfo) (g g' : ObUnitGroupBalanceInfo) : Prop :=
  (g.lackLsCount = 0 ∧ g' = g) ∨
    (0 < g.lackLsCount ∧ ∃ gid, gid ≠ invalidId ∧ g' = g.push (ls.inGroup gid))

theorem Filled.same (h : Filled ls g g') :
    g'.unitGroupId = g.unitGroupId ∧ g'.redundantLsArray = g.redundantLsArray ∧
      g'.lackLsCount = g.lackLsCount - 1 := by
  rcases h with ⟨hz, rfl⟩ | ⟨hpos, gid, -, rfl⟩
  · exact ⟨rfl, rfl, by omega⟩
  obtain ⟨-, hred, hid, hlack⟩ := push_of_lack (ls.inGroup gid) hpos
  exact ⟨hid, hred, hlack⟩

theorem Filled.lsGroups (h : Filled ls g g') (hg : ∀ l ∈ g.normalLsArray, l.lsGroupId ≠ invalidId) :
    ∀ l ∈ g'.normalLsArray, l.lsGroupId ≠ invalidId := by
  rcases h with ⟨-, rfl⟩ | ⟨hpos, gid, hgid, rfl⟩
  · exact hg
  intro l hl
  rw [(push_of_lack _ hpos).1, mem_append, mem_singleton] at hl
  rcases hl with hl | rfl
  · exact hg l hl
  · exact hgid

theorem generateLsAlterTask_ok (out : Output) (hnew : ∀ n, newLsGroupId n ≠ invalidId)
    (hv : ls.isValid = true) (hg : ∀ l ∈ g.normalLsArray, l.lsGroupId ≠ invalidId)
    (hlack : 0 < g.lackLsCount) :
    ∃ g' out', generateLsAlterTask newLsGroupId ls g out = .ok (g', out') ∧ Filled ls g g' ∧
      ∃ t, out'.taskArray = out.taskArray ++ [t] ∧ t.lsId = ls.lsId ∧
        t.destUnitGroup = g.unitGroupId := by
  obtain ⟨gid, fetched, hdest, hgid⟩ : ∃ gid fetched,
      destLsGroupId newLsGroupId g out = (gid, fetched) ∧ gid ≠ invalidId := by
    unfold destLsGroupId
    split
    · next l hl => exact ⟨_, _, rfl, hg l (mem_of_mem_head? hl)⟩
    · exact ⟨_, _, rfl, hnew _⟩
  have hid : ls.lsId ≠ -1 := by
    simp only [ObLSStatusInfo.isValid, Bool.and_eq_true, decide_eq_true_eq] at hv
    exact hv.1.1.1.1
  refine ⟨g.push (ls.inGroup gid), ⟨out.taskArray ++ [⟨ls.lsId, gid, g.unitGroupId⟩], fetched⟩,
    ?_, .inr ⟨hlack, gid, hgid, rfl⟩, _, rfl, rfl, rfl⟩
  rw [generateLsAlterTask, if_neg (by rw [hv]; simp; omega), hdest]
  simp only [constructLsAlterTask, if_neg (not_or.mpr ⟨hid, hgid⟩),
    ObLSStatusInfo.init_inGroup _ hv,
    addLsStatusInfo, bind, Except.bind, ObLSStatusInfo.isValid_inGroup hv hgid, if_true]
  rfl

/-- **The inner loop fills every unit group that lacks a log stream.** -/
theorem destLoop_spec (out : Output) (hnew : ∀ n, newLsGroupId n ≠ invalidId)
    (hv : ls.isValid = true) {src} (hsrc : ∀ g ∈ lacking groups, src ≠ g.unitGroupId)
    (hg : ∀ g ∈ groups, ∀ l ∈ g.normalLsArray, l.lsGroupId ≠ invalidId) :
    ∃ groups' out', destLoop newLsGroupId ls src groups out
        = .ok (!(lacking groups).isEmpty, groups', out') ∧ List.Forall₂ (Filled ls) groups groups' ∧
      ∃ ts, out'.taskArray = out.taskArray ++ ts ∧ (∀ t ∈ ts, t.lsId = ls.lsId) ∧
        ts.map (·.destUnitGroup) = (lacking groups).map (·.unitGroupId) := by
  induction groups generalizing out with
  | nil => exact ⟨[], out, rfl, .nil, [], by simp, by simp, rfl⟩
  | cons g rest ih =>
  have hg' := fun x hx => hg x (mem_cons_of_mem g hx)
  by_cases hlack : 0 < g.lackLsCount
  · have hcons : lacking (g :: rest) = g :: lacking rest := filter_cons_of_pos (by simpa)
    rw [hcons] at hsrc ⊢
    obtain ⟨g₁, out₁, hgen, hfill, t, ht, hid, hdest⟩ :=
      generateLsAlterTask_ok out hnew hv (hg g mem_cons_self) hlack
    obtain ⟨rest', out', hloop, hall, ts, hts, hids, hdests⟩ :=
      ih out₁ (fun x hx => hsrc x (mem_cons_of_mem g hx)) hg'
    refine ⟨g₁ :: rest', out', ?_, .cons hfill hall, t :: ts, ?_, ?_, ?_⟩
    · rw [destLoop, if_pos hlack, if_neg (hsrc g mem_cons_self), hgen]
      simp only [Except.bind, bind, hloop]
      rfl
    · rw [hts, ht, append_assoc]
      rfl
    · rw [forall_mem_cons]
      exact ⟨hid, hids⟩
    · rw [map_cons, map_cons, hdest, hdests]
  · have hskip : lacking (g :: rest) = lacking rest := filter_cons_of_neg (by simpa using hlack)
    rw [hskip] at hsrc ⊢
    obtain ⟨rest', out', hloop, hall, hts⟩ := ih out hsrc hg'
    refine ⟨g :: rest', out', ?_, .cons (.inl ⟨by omega, rfl⟩) hall, hts⟩
    rw [destLoop, if_neg hlack, hloop]
    rfl

theorem Filled.all_lsGroups (h : List.Forall₂ (Filled ls) groups groups')
    (hg : ∀ g ∈ groups, ∀ l ∈ g.normalLsArray, l.lsGroupId ≠ invalidId) :
    ∀ g ∈ groups', ∀ l ∈ g.normalLsArray, l.lsGroupId ≠ invalidId := by
  induction h with
  | nil => simp
  | cons hfill _ ih =>
  rw [forall_mem_cons] at hg ⊢
  exact ⟨hfill.lsGroups hg.1, ih hg.2⟩

theorem Filled.eq_of_redundant (h : Filled ls g g') (hred : g.redundantLsArray ≠ []) : g' = g := by
  rcases h with ⟨-, rfl⟩ | ⟨hpos, -⟩
  · rfl
  rw [lackLsCount_eq_zero hred] at hpos
  exact absurd hpos (Nat.lt_irrefl 0)

theorem Filled.redundant_eq
    (h : List.Forall₂ (Filled ls) groups groups') : redundant groups' = redundant groups := by
  induction h with
  | nil => rfl
  | cons hfill _ ih => simp only [redundant, flatMap_cons] at ih ⊢; rw [ih, hfill.same.2.1]

open Filled

theorem Filled.split {pre post mid}
    (h : List.Forall₂ (Filled ls) (pre ++ g :: post) mid) (hred : g.redundantLsArray ≠ []) :
    ∃ pre' post', List.Forall₂ (Filled ls) pre pre' ∧ List.Forall₂ (Filled ls) post post' ∧
      mid = pre' ++ g :: post' := by
  have hpre := (forall₂_take_append _ _ _ h.flip).flip
  have htail := (forall₂_drop_append _ _ _ h.flip).flip
  obtain ⟨g', post', hg, hpost, hdrop⟩ := forall₂_cons_left_iff.mp htail
  rw [eq_of_redundant hg hred] at hdrop
  exact ⟨_, post', hpre, hpost, by rw [← hdrop, take_append_drop]⟩

theorem destLoop_of_lacking_nil {src}
    (h : lacking groups = []) :
    destLoop newLsGroupId ls src groups out = .ok (false, groups, out) := by
  induction groups with
  | nil => rfl
  | cons g rest ih =>
  obtain ⟨hg, hrest⟩ : ¬ 0 < g.lackLsCount ∧ lacking rest = [] := by
    simpa [lacking, filter_eq_nil_iff] using h
  rw [destLoop, if_neg hg, ih hrest]
  rfl

theorem removeRedundantLs_last {rs} (h : g.redundantLsArray = rs ++ [ls]) :
    ∃ g', g.removeRedundantLs rs.length = .ok g' ∧ g'.redundantLsArray = rs ∧
      g'.unitGroupId = g.unitGroupId ∧ g'.lackLsCount = g.lackLsCount ∧
      g'.normalLsArray = g.normalLsArray := by
  refine ⟨_, if_neg (by simp [h]), ?_, rfl, rfl, rfl⟩
  simp [h, eraseIdx_append_of_length_le]

/-! ## The moves -/

/-- Every unit group that lacks log streams lacks one less. -/
def Lowered : List ObUnitGroupBalanceInfo → List ObUnitGroupBalanceInfo → Prop :=
  List.Forall₂ fun g g' => g'.unitGroupId = g.unitGroupId ∧ g'.lackLsCount = g.lackLsCount - 1

theorem Lowered.ids (h : Lowered groups groups') :
    groups'.map (·.unitGroupId) = groups.map (·.unitGroupId) := by
  induction h with
  | nil => rfl
  | cons hg _ ih => rw [map_cons, map_cons, hg.1, ih]

theorem lacking_cons (g : ObUnitGroupBalanceInfo) (groups : List ObUnitGroupBalanceInfo) :
    lacking (g :: groups) = if 0 < g.lackLsCount then g :: lacking groups else lacking groups := by
  simp [lacking, filter_cons]

theorem lackAt_cons (g : ObUnitGroupBalanceInfo) (groups : List ObUnitGroupBalanceInfo) (u : ℕ) :
    lackAt (g :: groups) u = (if g.unitGroupId = u then g.lackLsCount
      else 0) + lackAt groups u := by
  simp only [lackAt, filter_cons, decide_eq_true_eq]
  split <;> simp [totalLack]

theorem Lowered.lacking_le
    (h : Lowered groups groups') : (lacking groups').length ≤ (lacking groups).length := by
  induction h with
  | nil => exact Nat.le_refl _
  | cons hg _ ih =>
  rw [lacking_cons, lacking_cons, hg.2]
  split_ifs <;> grind

theorem Lowered.totalLack_eq
    (h : Lowered groups groups') :
    totalLack groups = totalLack groups' + (lacking groups).length := by
  induction h with
  | nil => rfl
  | cons hg _ ih =>
  simp only [totalLack, map_cons, sum_cons, hg.2, lacking_cons] at ih ⊢
  split_ifs <;> grind

theorem Lowered.lackAt_eq (h : Lowered groups groups') (u : ℕ) :
    lackAt groups u = lackAt groups' u + ((lacking groups).map (·.unitGroupId)).count u := by
  induction h with
  | nil => rfl
  | cons hg _ ih =>
  rw [lackAt_cons, lackAt_cons, hg.1, hg.2, ih, lacking_cons]
  split_ifs <;> grind

/-- **One redundant log stream is handed out**: it leaves the redundant ones, and every unit
group that lacks a log stream gets a task for it. -/
structure Move (groups groups' : List ObUnitGroupBalanceInfo) (out out' : Output) : Prop where
  lacks : Lowered groups groups'
  lsGroups : ∀ g ∈ groups', ∀ l ∈ g.normalLsArray, l.lsGroupId ≠ invalidId
  some_lacking : lacking groups ≠ []
  handed : ∃ ls, (redundant groups).Perm (ls :: redundant groups') ∧ ∃ ts : List AlterTask,
    out'.taskArray = out.taskArray ++ ts ∧ (∀ t ∈ ts, t.lsId = ls.lsId) ∧
      ts.map (·.destUnitGroup) = (lacking groups).map (·.unitGroupId)

/-- Moves, on the unit groups with the output. -/
def Moves : List ObUnitGroupBalanceInfo × Output → List ObUnitGroupBalanceInfo × Output → Prop :=
  ReflTransGen fun s s' => Move s.1 s'.1 s.2 s'.2

/-- What the loops need of the unit groups, and keep. -/
structure Usable (groups : List ObUnitGroupBalanceInfo) : Prop where
  ids : (groups.map (·.unitGroupId)).Nodup
  valid : ∀ ls ∈ redundant groups, ls.isValid = true
  lsGroups : ∀ g ∈ groups, ∀ ls ∈ g.normalLsArray, ls.lsGroupId ≠ invalidId

theorem Usable.move (h : Usable groups) (hm : Move groups groups' out out') : Usable groups' := by
  obtain ⟨ls, hperm, -⟩ := hm.handed
  exact ⟨hm.lacks.ids ▸ h.ids, fun l hl => h.valid l (hperm.mem_iff.mpr (mem_cons_of_mem ls hl)),
    hm.lsGroups⟩

theorem Usable.src_ne (h : Usable (pre ++ g :: post)) (hred : g.redundantLsArray ≠ []) :
    ∀ d ∈ lacking (pre ++ g :: post), g.unitGroupId ≠ d.unitGroupId := by
  intro d hd heq
  obtain ⟨hmem, hlack⟩ := mem_filter.mp hd
  have hsame := inj_on_of_nodup_map h.ids (by simp) hmem heq
  rw [← hsame, lackLsCount_eq_zero hred] at hlack
  simp at hlack

/-- **The loop over `j`** succeeds, is a sequence of moves, and ends either with no redundant log
stream left in the unit group or with no unit group left that lacks one. -/
theorem redundantLoop_spec (out : Output) (hnew : ∀ n, newLsGroupId n ≠ invalidId) {j}
    (h : Usable (pre ++ g :: post)) (hj : g.redundantLsArray.length = j) :
    ∃ newTask pre' g' post' out', redundantLoop newLsGroupId pre.length j (pre ++ g :: post) out
        = .ok (newTask, pre' ++ g' :: post', out') ∧
      Moves (pre ++ g :: post, out) (pre' ++ g' :: post', out') ∧ pre'.length = pre.length ∧
      post'.length = post.length ∧ redundant pre' = redundant pre ∧
      ((newTask = true ∧ g'.redundantLsArray = []) ∨
        (newTask = false ∧ lacking (pre' ++ g' :: post') = [])) := by
  induction j generalizing pre g post out with
  | zero => exact ⟨true, pre, g, post, out, rfl, .refl, rfl, rfl, rfl,
      .inl ⟨rfl, length_eq_zero_iff.mp hj⟩⟩
  | succ j ih =>
  have hne : g.redundantLsArray ≠ [] := fun hnil => by simp [hnil] at hj
  obtain ⟨rs, ls, hrs⟩ := (eq_nil_or_concat g.redundantLsArray).resolve_left hne
  rw [concat_eq_append] at hrs
  have hrsj : rs.length = j := by simpa [hrs] using hj
  have hls : g.redundantLsArray[j]? = some ls := by simp [hrs, ← hrsj]
  have hget : (pre ++ g :: post)[pre.length]? = some g := by simp
  by_cases hlack : lacking (pre ++ g :: post) = []
  · refine ⟨false, pre, g, post, out, ?_, .refl, rfl, rfl, rfl, .inr ⟨rfl, hlack⟩⟩
    rw [redundantLoop, hget]
    simp only [hls, destLoop_of_lacking_nil hlack]
    rfl
  obtain ⟨mid, out₁, hloop, hall, ts, hts, hids, hdests⟩ := destLoop_spec out hnew
    (h.valid ls (by simp [redundant, hrs])) (h.src_ne hne) h.lsGroups
  -- the unit group itself lacks nothing, so the inner loop leaves it as it is
  obtain ⟨pre₁, post₁, hpre, hpost, rfl⟩ := split hall hne
  have hlen : pre₁.length = pre.length := hpre.length_eq.symm
  have hget₁ : (pre₁ ++ g :: post₁)[pre.length]? = some g := by simp [← hlen]
  obtain ⟨g', hrem, hred', hid', hlack', hnorm'⟩ := removeRedundantLs_last hrs
  rw [hrsj] at hrem
  have hmove : Move (pre ++ g :: post) (pre₁ ++ g' :: post₁) out out₁ :=
    { lacks := rel_append (hpre.imp fun _ _ hf => ⟨hf.same.1, hf.same.2.2⟩)
        (.cons ⟨hid', by rw [hlack', lackLsCount_eq_zero hne]⟩
          (hpost.imp fun _ _ hf => ⟨hf.same.1, hf.same.2.2⟩))
      lsGroups := by
        have hgs := h.lsGroups
        simp only [forall_mem_append, forall_mem_cons] at hgs ⊢
        exact ⟨all_lsGroups hpre hgs.1, hnorm' ▸ hgs.2.1,
          all_lsGroups hpost hgs.2.2⟩
      some_lacking := hlack
      handed := by
        refine ⟨ls, ?_, ts, hts, hids, hdests⟩
        have hp := redundant_eq hpre
        have hq := redundant_eq hpost
        simp only [redundant, flatMap_append, flatMap_cons, hrs, hred'] at hp hq ⊢
        rw [hp, hq, append_assoc rs, singleton_append, ← append_assoc,
          ← append_assoc]
        exact perm_middle }
  obtain ⟨newTask, pre', g'', post', out', hrec, hmoves, hlen', hpost', hredp, hend⟩ :=
    ih out₁ (h.move hmove) (by rw [hred', hrsj])
  refine ⟨newTask, pre', g'', post', out', ?_, .head hmove hmoves, hlen'.trans hlen,
    hpost'.trans hpost.length_eq.symm, hredp.trans (Filled.redundant_eq hpre), hend⟩
  rw [redundantLoop, hget]
  simp only [hls, hloop, bind, Except.bind, isEmpty_eq_false_iff.mpr hlack, Bool.not_false,
    if_true, hget₁, hrem]
  rw [← hlen, set_append_right _ _ (Nat.le_refl _), Nat.sub_self, set_cons_zero]
  exact hrec

theorem Usable.moves (h : Usable groups)
    (hm : Moves (groups, out) (groups', out')) : Usable groups' :=
  star_keeps (I := fun s : List ObUnitGroupBalanceInfo × Output => Usable s.1)
    (fun _ _ hmove hs => hs.move hmove) hm h

/-- **The generation succeeds, and is a sequence of moves to an end of one side.** -/
theorem migrateLoop_spec (out : Output) (pre rest : List ObUnitGroupBalanceInfo) {n}
    (hnew : ∀ n, newLsGroupId n ≠ invalidId) (h : Usable (pre ++ rest)) (hn : rest.length = n)
    (hpre : redundant pre = []) :
    ∃ groups' out', migrateLoop newLsGroupId n pre.length (pre ++ rest) out = .ok (groups', out') ∧
      Moves (pre ++ rest, out) (groups', out') ∧
      (redundant groups' = [] ∨ lacking groups' = []) := by
  induction n generalizing pre rest out with
  | zero =>
    obtain rfl := length_eq_zero_iff.mp hn
    exact ⟨pre ++ [], out, rfl, .refl, .inl (by rw [append_nil, hpre])⟩
  | succ n ih =>
  obtain ⟨g, post, rfl⟩ := exists_cons_of_length_eq_add_one hn
  obtain ⟨newTask, pre', g', post', out₁, hloop, hmoves, hlen, hpost, hredp, hend⟩ :=
    redundantLoop_spec out hnew h rfl
  have hcount : ((pre ++ g :: post)[pre.length]?.map (·.redundantLsArray.length)).getD 0
      = g.redundantLsArray.length := by simp
  rcases hend with ⟨rfl, hg'⟩ | ⟨rfl, hlack⟩
  · have hassoc : pre' ++ g' :: post' = (pre' ++ [g']) ++ post' := by simp
    have hdone : redundant (pre' ++ [g']) = [] := by
      rw [hpre] at hredp
      simpa [redundant, hg'] using hredp
    obtain ⟨groups', out', hrec, hmoves', hfin⟩ := ih out₁ (pre' ++ [g']) post'
      (hassoc ▸ h.moves hmoves) (by simpa [hpost] using hn) hdone
    refine ⟨groups', out', ?_, hmoves.trans (hassoc ▸ hmoves'), hfin⟩
    rw [migrateLoop]
    simp only [hcount, hloop, bind, Except.bind, if_true]
    rw [hassoc, ← hlen, ← hrec, length_append, length_singleton]
  · refine ⟨_, out₁, ?_, hmoves, .inr hlack⟩
    rw [migrateLoop]
    simp only [hcount, hloop, bind, bind]
    rfl

/-! ## At most one unit group lacks log streams -/

/-- What has been done so far, and what is left. -/
structure Progress (groups₀ groups : List ObUnitGroupBalanceInfo) (out : Output) : Prop where
  at_unit (u : ℕ) : (out.taskArray.map (·.destUnitGroup)).count u + lackAt groups u =
    lackAt groups₀ u
  total : out.taskArray.length + totalLack groups = totalLack groups₀
  streams : (out.taskArray.map (·.lsId) ++ (redundant groups).map (·.lsId)).Perm
    ((redundant groups₀).map (·.lsId))
  one : (lacking groups).length ≤ 1

theorem Progress.move (h : Progress groups₀ groups out) (hm : Move groups groups' out out') :
    Progress groups₀ groups' out' := by
  obtain ⟨ls, hperm, ts, hts, hids, hdests⟩ := hm.handed
  have hlen : ts.length = (lacking groups).length := by simpa using congrArg List.length hdests
  have hone : ts.length = 1 := by
    have := length_pos_iff.mpr hm.some_lacking
    have := h.one
    omega
  obtain ⟨t, rfl⟩ := length_eq_one_iff.mp hone
  refine ⟨fun u => ?_, ?_, ?_, Nat.le_trans hm.lacks.lacking_le h.one⟩
  · have := hm.lacks.lackAt_eq u
    have := h.at_unit u
    rw [hts, map_append, count_append, hdests]
    omega
  · have := hm.lacks.totalLack_eq
    have := h.total
    rw [hts, length_append]
    omega
  refine .trans ?_ h.streams
  rw [hts, map_append, append_assoc]
  apply List.Perm.append_left _
  rw [map_singleton, hids t (mem_singleton.mpr rfl), singleton_append]
  exact (hperm.map (·.lsId)).symm

theorem lackAt_of_mem (hids : (groups.map (·.unitGroupId)).Nodup) (hg : g ∈ groups) :
    lackAt groups g.unitGroupId = g.lackLsCount := by
  induction groups with
  | nil => exact absurd hg not_mem_nil
  | cons x rest ih =>
  obtain ⟨hx, hrest⟩ := nodup_cons.mp hids
  rw [lackAt_cons]
  rcases mem_cons.mp hg with rfl | hmem
  · have hnone : rest.filter (·.unitGroupId = g.unitGroupId) = [] := by
      simpa [filter_eq_nil_iff] using hx
    rw [if_pos rfl, lackAt, hnone]
    rfl
  · have hne : x.unitGroupId ≠ g.unitGroupId := fun heq =>
      hx (mem_map.mpr ⟨g, hmem, heq.symm⟩)
    rw [if_neg hne, ih hrest hmem, Nat.zero_add]

theorem exists_mem_lacking (h : 0 < totalLack groups) : ∃ g, g ∈ lacking groups := by
  induction groups with
  | nil => exact absurd h (Nat.lt_irrefl 0)
  | cons g rest ih =>
  rw [lacking_cons]
  split
  · exact ⟨g, mem_cons_self⟩
  next hg =>
  simp only [totalLack, map_cons, sum_cons] at h
  exact ih (by simp only [totalLack]; omega)

theorem exists_lacking_of_lackAt {u}
    (h : 0 < lackAt groups u) : ∃ g ∈ lacking groups, g.unitGroupId = u := by
  obtain ⟨g, hg⟩ := exists_mem_lacking h
  obtain ⟨hmem, hlack⟩ := mem_filter.mp hg
  obtain ⟨hmem, hid⟩ := mem_filter.mp hmem
  exact ⟨g, mem_filter.mpr ⟨hmem, hlack⟩, by simpa using hid⟩

theorem Progress.matching (hwf : WellFormed groups₀)
    (h : Progress groups₀ groups out) (hend : redundant groups = [] ∨ lacking groups = []) :
    Matching groups₀ out := by
  refine ⟨(h.streams.nodup_iff.mpr hwf.streams).of_append_left, fun t ht => ?_, fun t ht => ?_, ?_,
    fun g hg => ?_⟩
  · have hmem := h.streams.mem_iff.mp (mem_append_left _ (mem_map_of_mem ht))
    exact mem_map.mp hmem
  · apply exists_lacking_of_lackAt
    have := h.at_unit t.destUnitGroup
    have := count_pos_iff.mpr (mem_map_of_mem (f := (·.destUnitGroup)) ht)
    omega
  · have hstreams := h.streams.length_eq
    have htotal := h.total
    simp only [length_append, length_map] at hstreams
    rcases hend with hred | hlack
    · rw [hred, length_nil] at hstreams
      omega
    have hzero : ¬ 0 < totalLack groups := fun hpos => by
      obtain ⟨g, hg⟩ := exists_mem_lacking hpos
      exact absurd (hlack ▸ hg) not_mem_nil
    omega
  · have := h.at_unit g.unitGroupId
    rw [lackAt_of_mem hwf.ids hg] at this
    omega

/-! ## Several unit groups lack log streams -/

theorem taskArray_grows {s s'} (h : Moves s s') : s.2.taskArray <+: s'.2.taskArray := by
  induction h with
  | refl => exact prefix_rfl
  | tail _ hm ih =>
  obtain ⟨ls, -, ts, hts, -⟩ := hm.handed
  exact ih.trans ⟨ts, hts.symm⟩

/-- A move with two destinations writes two tasks for one log stream. -/
theorem Move.not_nodup (h : Move groups groups' out out')
    (htwo : 1 < (lacking groups).length) : ¬ (out'.taskArray.map (·.lsId)).Nodup := by
  obtain ⟨ls, -, ts, hts, hids, hdests⟩ := h.handed
  have hlen : ts.length = (lacking groups).length := by simpa using congrArg List.length hdests
  obtain ⟨t₁, t₂, ts, rfl⟩ : ∃ t₁ t₂ rest, ts = t₁ :: t₂ :: rest := by
    match ts, hlen with
    | [], hlen => simp at hlen; omega
    | [_], hlen => simp at hlen; omega
    | t₁ :: t₂ :: rest, _ => exact ⟨t₁, t₂, rest, rfl⟩
  intro hnodup
  rw [hts, map_append] at hnodup
  refine (nodup_cons.mp (map_cons .. ▸ hnodup.of_append_right)).1 ?_
  rw [hids t₁ (by simp), ← hids t₂ (by simp)]
  simp

/-- **When the migration tasks form a matching**: exactly when there is no redundant log stream,
or at most one unit group lacks log streams. -/
theorem migrateTask_matching_iff (newLsGroupId : ℕ → ℕ) (groups : List ObUnitGroupBalanceInfo)
    (hnew : ∀ n, newLsGroupId n ≠ invalidId) (hwf : WellFormed groups) :
    (∃ groups' out, generateMigrateTask newLsGroupId groups = .ok (groups', out) ∧
        Matching groups out) ↔ redundant groups = [] ∨ (lacking groups).length ≤ 1 := by
  have husable : Usable ([] ++ groups) := ⟨hwf.ids, hwf.valid, hwf.lsGroups⟩
  obtain ⟨groups', out, hgen, hmoves, hend⟩ :=
    migrateLoop_spec ⟨[], 0⟩ [] groups hnew husable rfl rfl
  have hgen' : generateMigrateTask newLsGroupId groups = .ok (groups', out) := hgen
  constructor
  · rintro ⟨groups'', out'', hgen'', hmatch⟩
    obtain ⟨rfl, rfl⟩ := Prod.mk.inj (Except.ok.inj (hgen'.symm.trans hgen''))
    by_contra hnot
    obtain ⟨hred, htwo⟩ := not_or.mp hnot
    -- with both sides present the generation has made a first move, with two destinations
    rcases hmoves.cases_head with heq | ⟨⟨groups₁, out₁⟩, hm, hrest⟩
    · obtain ⟨rfl, -⟩ := Prod.mk.inj heq
      rcases hend with h | h
      · exact hred h
      rw [nil_append] at h
      simp [h] at htwo
    · refine hm.not_nodup (by simpa using htwo) ?_
      exact hmatch.once.sublist ((taskArray_grows hrest).sublist.map _)
  · rintro (hred | hone)
    · rcases hmoves.cases_head with heq | ⟨s, hm, -⟩
      · obtain ⟨-, rfl⟩ := Prod.mk.inj heq
        exact ⟨groups', _, hgen', by simp, by simp, by simp, by simp [hred], by simp⟩
      · obtain ⟨ls, hperm, -⟩ := hm.handed
        simp [hred] at hperm
    · refine ⟨groups', out, hgen', ?_⟩
      have hstart : Progress groups groups ⟨[], 0⟩ := ⟨fun u => by simp, by simp, by simp, hone⟩
      exact (star_keeps (I := fun s : List ObUnitGroupBalanceInfo × Output => Progress groups s.1
        s.2) (fun _ _ hmove hs => hs.move hmove) hmoves hstart).matching hwf hend

/-! ## Two unit groups that lack a log stream, and one redundant log stream -/

/-- A log stream of tenant 1002. -/
def userLs (lsId : ℤ) (lsGroupId unitGroupId : ℕ) : ObLSStatusInfo :=
  ⟨1002, lsId, lsGroupId, .normal, unitGroupId, "zone1", 0⟩

/-- Two active unit groups without log streams, and a deleting one with the log stream 1003. -/
def twoLacking : List ObUnitGroupBalanceInfo :=
  [.new ⟨1, .active⟩ 1, .new ⟨2, .active⟩ 1,
    (ObUnitGroupBalanceInfo.new ⟨3, .deleting⟩ 1).push (userLs 1003 1001 3)]

def freshLsGroupId (n : ℕ) : ℕ := 1004 + n % 2 ^ 32

theorem wellFormed_twoLacking : WellFormed twoLacking :=
  .of_init (show initGroups 1 [⟨1, .active⟩, ⟨2, .active⟩] [userLs 1003 1001 3] = _ from rfl)
    (by decide) (by decide) (by decide) (by decide)

/-- The log stream 1003 gets two alter tasks. -/
theorem generateMigrateTask_twoLacking : WellFormed twoLacking ∧
      (generateMigrateTask freshLsGroupId twoLacking).map (·.2.taskArray)
        = .ok [⟨1003, 1004, 1⟩, ⟨1003, 1005, 2⟩] ∧
      ¬ ∃ groups' out, generateMigrateTask freshLsGroupId twoLacking = .ok (groups', out) ∧
        Matching twoLacking out := by
  have htasks : (generateMigrateTask freshLsGroupId twoLacking).map (·.2.taskArray)
      = .ok [⟨1003, 1004, 1⟩, ⟨1003, 1005, 2⟩] := by decide
  refine ⟨wellFormed_twoLacking, htasks, ?_⟩
  rintro ⟨groups', out, hgen, hmatch⟩
  rw [hgen] at htasks
  have hout : out.taskArray = _ := Except.ok.inj htasks
  have honce := hmatch.once
  rw [hout] at honce
  simp at honce

theorem migrateTask_oneLacking : WellFormed twoLacking.tail ∧ ∃ groups' out,
      generateMigrateTask freshLsGroupId twoLacking.tail = .ok (groups', out) ∧
        Matching twoLacking.tail out := by
  have hwf : WellFormed twoLacking.tail := ⟨by decide, by decide, by decide, by decide⟩
  refine ⟨hwf, (migrateTask_matching_iff _ _ (fun n => ?_) hwf).mpr (.inr (by decide))⟩
  unfold freshLsGroupId invalidId
  omega

end OceanBase.Rootserver
