import Mathlib.Data.List.FinRange
import OceanBase.Compaction.MinorMerge

/-!
# Fusing the versions of a row

`ObRowFuse::fuse_row`. A call lays one more version below the result so far; `nop_pos` has the
columns that are still without a value. The callers go from the newest version to the oldest one,
until `final_result` is set. All rows have the same `n` columns, which decides the tests of
`count_`.

## Main results

* `fuseRow_derived`: the step of the minor merge, which has no `nop_pos`, is this one.
* `fuseRows_newest`
-/

namespace OceanBase.RowFuse

open List

inductive ObDmlFlag
  | notExist
  | lock
  | update
  | insert
  | delete
  deriving DecidableEq

/-- A column without a value is a nop. -/
structure Row (α : Type) (n : ℕ) where
  rowFlag : ObDmlFlag
  datums : Fin n → Option α

/-- What a call changes. -/
structure Fusing (α : Type) (n : ℕ) where
  result : Row α n
  nopPos : List (Fin n)
  finalResult : Bool

variable {α : Type} {n : ℕ}

/-- The loop over the columns: those of the result, and the positions that are left, which are
written over positions that have been read. -/
def fuseLoop (former : Fin n → Option α) (firstVal : Bool) :
    List (Fin n) → (Fin n → Option α) → (Fin n → Option α) × List (Fin n)
  | [], result => (result, [])
  | idx :: l, result =>
    let r := fuseLoop former firstVal l
      (if (former idx).isNone ∧ firstVal = false then result
        else Function.update result idx (former idx))
    (r.1, if (former idx).isNone then idx :: r.2 else r.2)

/-- `fuse_row` for `ObDatumRow`, and `simple_fuse_row` for `ObStoreRow`. -/
def fuseRow (former : Row α n) (s : Fusing α n) : Fusing α n :=
  if s.result.rowFlag = .delete ∨ former.rowFlag = .notExist then s
  else
    let firstVal := decide (s.result.rowFlag = .notExist)
    let rowFlag := if firstVal then former.rowFlag else s.result.rowFlag
    if former.rowFlag = .delete then
      ⟨⟨rowFlag, if firstVal then former.datums else s.result.datums⟩,
        if firstVal then [] else s.nopPos, true⟩
    else
      let r := fuseLoop former.datums firstVal (if firstVal then finRange n else s.nopPos)
        s.result.datums
      ⟨⟨rowFlag, r.1⟩, r.2, r.2.isEmpty⟩

/-- The loop of the callers. -/
def fuseRows : List (Row α n) → Fusing α n → Fusing α n
  | [], s => s
  | row :: rows, s => if s.finalResult then s else fuseRows rows (fuseRow row s)

/-! ## What the versions show -/

/-- The versions that `fuse_row` does not skip. -/
def existing (rows : List (Row α n)) : List (Row α n) := rows.filter (·.rowFlag ≠ .notExist)

/-- The newest value of a column among the versions newer than the first delete. -/
def newest : List (Row α n) → Fin n → Option α
  | [], _ => none
  | row :: rows, i => if row.rowFlag = .delete then none else (row.datums i).or (newest rows i)

def hasDelete (rows : List (Row α n)) : Bool := rows.any (·.rowFlag = .delete)

/-- The result under the flag `f` has the values `c`; `d` says whether a delete was met. -/
def live (f : ObDmlFlag) (c : Fin n → Option α) (d : Bool) : Fusing α n :=
  let nopPos := (finRange n).filter fun i => (c i).isNone
  ⟨⟨f, c⟩, nopPos, nopPos.isEmpty || d⟩

/-- What the existing versions `vs` make of `s`. -/
def fused (s : Fusing α n) (vs : List (Row α n)) : Fusing α n :=
  match vs with
  | [] => s
  | v :: _ =>
    if v.rowFlag = .delete then ⟨v, [], true⟩ else live v.rowFlag (newest vs) (hasDelete vs)

/-- A delete below the newest version is reached, as a column is still without a value. -/
def PassesDelete (rows : List (Row α n)) : Prop :=
  (∃ v ∈ (existing rows).head?, v.rowFlag ≠ .delete) ∧ hasDelete (existing rows) = true ∧
    ∃ i, newest (existing rows) i = none

variable {row : Row α n} {rows : List (Row α n)} {s : Fusing α n} {c : Fin n → Option α}

theorem existing_skip (h : row.rowFlag = .notExist) : existing (row :: rows) = existing rows :=
  filter_cons_of_neg (by simpa using h)

theorem existing_cons (h : row.rowFlag ≠ .notExist) :
    existing (row :: rows) = row :: existing rows :=
  filter_cons_of_pos (by simpa using h)

theorem ne_of_mem_existing (h : row ∈ existing rows) : row.rowFlag ≠ .notExist := by
  simpa using (mem_filter.mp h).2

theorem fuseLoop_eq (f : Fin n → Option α) (b : Bool) (l : List (Fin n)) (d : Fin n → Option α) :
    fuseLoop f b l d = (fun i => if i ∈ l ∧ (b = true ∨ (f i).isSome) then f i else d i,
      l.filter fun i => (f i).isNone) := by
  induction l generalizing d with
  | nil => simp [fuseLoop]
  | cons idx l ih =>
    simp only [fuseLoop, ih, filter_cons]
    refine congrArg (·, _) (funext fun i => ?_)
    by_cases hi : i = idx
    · subst hi
      cases b <;> cases f i <;> simp
    · split_ifs <;> simp_all

/-- Below a live result a column is taken where the result has none. -/
theorem ite_eq_or (c d : Fin n → Option α) :
    (fun i => if c i = none ∧ (d i).isSome then d i else c i) = fun i => (c i).or (d i) := by
  funext i
  cases c i <;> cases d i <;> rfl

theorem fuseRow_first (hs : s.result.rowFlag = .notExist) (h₁ : row.rowFlag ≠ .notExist)
    (h₂ : row.rowFlag ≠ .delete) : fuseRow row s = live row.rowFlag row.datums false := by
  simp [fuseRow, hs, h₁, h₂, fuseLoop_eq, live]

theorem fuseRow_live {f} (hf : f ≠ .notExist ∧ f ≠ .delete) (h₁ : row.rowFlag ≠ .notExist)
    (h₂ : row.rowFlag ≠ .delete) :
    fuseRow row (live f c false) = live f (fun i => (c i).or (row.datums i)) false := by
  simp [fuseRow, live, hf.1, hf.2, h₁, h₂, fuseLoop_eq, ite_eq_or, Bool.and_comm]

theorem fuseRows_of_final (h : s.finalResult = true) : fuseRows rows s = s := by
  cases rows with
  | nil => rfl
  | cons => rw [fuseRows, if_pos h]

theorem fuseRows_existing : fuseRows rows s = fuseRows (existing rows) s := by
  induction rows generalizing s with
  | nil => rfl
  | cons row rows ih =>
  by_cases hfinal : s.finalResult = true
  · rw [fuseRows_of_final hfinal, fuseRows_of_final hfinal]
  by_cases hrow : row.rowFlag = .notExist
  · rw [fuseRows, if_neg hfinal, fuseRow, if_pos (.inr hrow), existing_skip hrow, ih]
  · rw [existing_cons hrow, fuseRows, fuseRows, if_neg hfinal, if_neg hfinal, ih]

theorem fuseRows_live {f} (hf : f ≠ .notExist ∧ f ≠ .delete)
    (hrows : ∀ row ∈ rows, row.rowFlag ≠ .notExist) :
    fuseRows rows (live f c false) =
      live f (fun i => (c i).or (newest rows i)) (hasDelete rows) := by
  -- the columns found so far are carried along
  induction rows generalizing c with
  | nil => simp [fuseRows, newest, hasDelete]
  | cons row rows ih =>
  obtain ⟨h₁, hrows⟩ := forall_mem_cons.mp hrows
  by_cases hfull : (live f c false).finalResult = true
  · -- no column is left, so that the run has stopped
    have hsome : ∀ i, c i ≠ none := by simpa [live] using hfull
    have hc : (fun i => (c i).or (newest (row :: rows) i)) = c := funext fun i => by
      obtain ⟨x, hx⟩ := Option.ne_none_iff_exists'.mp (hsome i)
      rw [hx, Option.some_or]
    rw [fuseRows_of_final hfull, hc]
    simpa [live] using fun _ => hsome
  rw [fuseRows, if_neg hfull]
  by_cases h₂ : row.rowFlag = .delete
  · have hrow : fuseRow row (live f c false) = live f c true := by
      simp [fuseRow, live, hf.1, hf.2, h₂]
    rw [hrow, fuseRows_of_final (by simp [live])]
    simp [newest, hasDelete, h₂]
  · rw [fuseRow_live hf h₁ h₂, ih hrows]
    simp [newest, hasDelete, h₂, Option.or_assoc]

theorem fuseRows_eq (hs : s.result.rowFlag = .notExist) (hfinal : s.finalResult = false) :
    fuseRows rows s = fused s (existing rows) := by
  rw [fuseRows_existing]
  have hrows : ∀ row ∈ existing rows, row.rowFlag ≠ .notExist := fun row => ne_of_mem_existing
  generalize existing rows = vs at hrows
  cases vs with
  | nil => rfl
  | cons v vs =>
  obtain ⟨h₁, hvs⟩ := forall_mem_cons.mp hrows
  rw [fuseRows, hfinal, if_neg Bool.false_ne_true, fused]
  split
  next h₂ =>
    have hv : fuseRow v s = ⟨v, [], true⟩ := by
      obtain ⟨f, d⟩ := v
      obtain rfl : f = .delete := h₂
      simp [fuseRow, hs]
    rw [hv, fuseRows_of_final rfl]
  next h₂ =>
    rw [fuseRow_first hs h₁ h₂, fuseRows_live ⟨h₁, h₂⟩ hvs]
    simp [newest, hasDelete, h₂]

/-! ## The fuser of minor merges -/

section MinorMerge

open Compaction

def flagOf : DmlFlag → ObDmlFlag
  | .notExist => .notExist
  | .insert => .insert
  | .update => .update
  | .delete => .delete

/-- What `fuse_row` sees of a row of a minor merge. -/
def rowOf (row : ObDatumRow (Fin n) α) : Row α n := ⟨flagOf row.rowFlag.flag, row.datums⟩

/-- The nop positions of `s` are those that a minor merge derives from the columns of `result`. -/
def Derived (result : ObDatumRow (Fin n) α) (s : Fusing α n) : Prop :=
  s.result = rowOf result ∧ (result.rowFlag.flag = .notExist ∨ result.rowFlag.flag = .delete ∨
    s.nopPos = (finRange n).filter fun i => (result.datums i).isNone)

theorem allSet_eq : allSet c = ((finRange n).filter fun i => (c i).isNone).isEmpty := by
  rw [Bool.eq_iff_iff]
  simp [allSet, Option.isSome_iff_ne_none]

/-- **A step of the minor fuser is a call of `fuse_row`**, as long as the result is not final. -/
theorem fuseRow_derived {former result : ObDatumRow (Fin n) α} (h : Derived result s)
    (hfinal : s.finalResult = false) :
    Derived (ObRowFuse.fuseRow former result).1 (fuseRow (rowOf former) s) ∧
      (fuseRow (rowOf former) s).finalResult = (ObRowFuse.fuseRow former result).2 := by
  obtain ⟨⟨f, d⟩, nopPos, b⟩ := s
  obtain ⟨hs, hnop⟩ := h
  obtain ⟨rfl, rfl⟩ := Row.mk.inj hs
  obtain rfl : b = false := hfinal
  cases hr : result.rowFlag.flag with
  | delete => simp [Derived, rowOf, fuseRow, flagOf, ObRowFuse.fuseRow, hr]
  | notExist =>
    -- the first version: whatever `nop_pos` had before, it is written anew
    cases hf : former.rowFlag.flag <;>
      simp [Derived, rowOf, fuseRow, flagOf, ObRowFuse.fuseRow, fuseLoop_eq, allSet_eq, hr, hf]
  | insert | update =>
    obtain rfl : nopPos = _ := by simpa [hr] using hnop
    cases hf : former.rowFlag.flag <;>
      simp [Derived, rowOf, fuseRow, flagOf, ObRowFuse.fuseRow, fuseLoop_eq, allSet_eq, hr, hf,
        ite_eq_or, Bool.and_comm]

/-- An update of some columns. -/
def updateRow (datums : Fin 3 → Option ℕ) : ObDatumRow (Fin 3) ℕ :=
  ⟨0, 0, ⟨.update, false⟩, datums, {}⟩

/-- The first column is filled from the older row, the second one is kept and the third one stays
without a value. -/
theorem fuseRow_derived_update :
    let former := updateRow ![some 1, some 2, none]
    let result := updateRow ![none, some 5, none]
    (ObRowFuse.fuseRow former result).1.datums = ![some 1, some 5, none] ∧
    Derived (ObRowFuse.fuseRow former result).1
      (fuseRow (rowOf former) ⟨rowOf result, [0, 2], false⟩) ∧
    (fuseRow (rowOf former) ⟨rowOf result, [0, 2], false⟩).finalResult = false := by
  intro former result
  have h : Derived result ⟨rowOf result, [0, 2], false⟩ := ⟨rfl, .inr (.inr rfl)⟩
  exact ⟨by decide, fuseRow_derived h rfl⟩

end MinorMerge

/-! ## Stages -/

theorem newest_append {g rest : List (Row α n)} {i} (h : hasDelete g = true → newest g i ≠ none) :
    newest (g ++ rest) i = (newest g i).or (newest rest i) := by
  induction g with
  | nil => rfl
  | cons row g ih =>
    rw [cons_append, newest, newest]
    rw [hasDelete, any_cons, newest] at h
    split
    next hd => simp [hd] at h
    next hd =>
    cases hr : row.datums i with
    | some x => rfl
    | none =>
      refine ih fun hg => ?_
      have := h (Bool.or_eq_true_iff.mpr (.inr hg))
      rwa [if_neg hd, hr, Option.none_or] at this

/-- What of the newest version the result keeps. -/
def top (vs : List (Row α n)) : Option (Row α n) :=
  vs.head?.map fun v => if v.rowFlag = .delete then v else ⟨v.rowFlag, fun _ => none⟩

theorem stages (hs : s.result.rowFlag = .notExist) {gs : List (List (Row α n))}
    (hgs : ∀ g ∈ gs, ¬ PassesDelete g) :
    let results := existing (gs.map fun g => (fused s (existing g)).result)
    top results = top (existing gs.flatten) ∧ newest results = newest (existing gs.flatten) := by
  induction gs with
  | nil => exact ⟨rfl, rfl⟩
  | cons g gs ih =>
  obtain ⟨hg, hgs⟩ := forall_mem_cons.mp hgs
  obtain ⟨ihtop, ihnew⟩ := ih hgs
  have happ : existing (g ++ gs.flatten) = existing g ++ existing gs.flatten := filter_append ..
  rw [map_cons, flatten_cons, happ]
  cases hv : existing g with
  | nil =>
    -- the result of such a group is skipped
    rw [fused, existing_skip hs]
    exact ⟨ihtop, ihnew⟩
  | cons v vs =>
  have h₁ : v.rowFlag ≠ .notExist := ne_of_mem_existing (hv ▸ mem_cons_self : v ∈ existing g)
  by_cases h₂ : v.rowFlag = .delete
  · rw [fused, if_pos h₂, existing_cons h₁]
    exact ⟨rfl, funext fun i => by simp [newest, h₂]⟩
  · rw [fused, if_neg h₂, existing_cons (by exact h₁)]
    refine ⟨by simp [top, live, h₂], funext fun i => ?_⟩
    rw [newest_append fun hd hnone => hg ⟨⟨v, by rw [hv]; rfl, h₂⟩, hv ▸ hd, i,
      hv ▸ hnone⟩, ← ihnew]
    simp [newest, live, h₂]

theorem fused_result (vs : List (Row α n)) : (fused s vs).result = match top vs with
    | none => s.result
    | some t => if t.rowFlag = .delete then t else ⟨t.rowFlag, newest vs⟩ := by
  cases vs with
  | nil => rfl
  | cons v vs => by_cases h : v.rowFlag = .delete <;> simp [fused, top, live, h]

/-- **The newest visible value of every column**, which may be found in stages: the results of
groups give the same row, unless a group has met a delete below its newest version. -/
theorem fuseRows_newest (hs : s.result.rowFlag = .notExist) (hfinal : s.finalResult = false) :
    fuseRows rows s = fused s (existing rows) ∧
    ∀ gs : List (List (Row α n)), gs.flatten = rows → (∀ g ∈ gs, ¬ PassesDelete g) →
      (fuseRows (gs.map fun g => (fuseRows g s).result) s).result = (fuseRows rows s).result := by
  refine ⟨fuseRows_eq hs hfinal, ?_⟩
  rintro gs rfl hgs
  obtain ⟨htop, hnew⟩ := stages hs hgs
  simp only [fuseRows_eq hs hfinal]
  rw [fused_result, fused_result (existing gs.flatten), htop, hnew]

/-- Versions of one column. -/
def version (rowFlag : ObDmlFlag) (datum : Option ℕ) : Row ℕ 1 := ⟨rowFlag, fun _ => datum⟩

def nothing : Fusing ℕ 1 := ⟨version .notExist none, [], false⟩

/-- An update without a value and two inserts, fused at once and in two stages. -/
theorem fuseRows_newest_update :
    let groups := [[version .update none], [version .insert (some 3), version .insert (some 4)]]
    fuseRows groups.flatten nothing = ⟨version .update (some 3), [], true⟩ ∧
    (fuseRows (groups.map fun g => (fuseRows g nothing).result) nothing).result =
      version .update (some 3) := by
  intro groups
  have hrows : fuseRows groups.flatten nothing = _ := (fuseRows_newest rfl rfl).1
  refine ⟨hrows, ((fuseRows_newest rfl rfl).2 groups rfl fun g hg hpass => ?_).trans
    (congrArg Fusing.result hrows)⟩
  obtain rfl | rfl : g = _ ∨ g = _ := by simpa [groups] using hg
  · exact absurd hpass.2.1 (by decide)
  · exact absurd hpass.2.1 (by decide)

/-- A delete leaves no nop positions, though its column is without a value; and a fold that does not
stop at a delete takes the value below it. -/
theorem fuseRow_delete : fuseRow (version .delete none) nothing = ⟨version .delete none, [], true⟩ ∧
    ([version .update none, version .delete none, version .insert (some 3)].foldl
      (fun s row => fuseRow row s) nothing).result.datums 0 = some 3 :=
  ⟨rfl, rfl⟩

end OceanBase.RowFuse
