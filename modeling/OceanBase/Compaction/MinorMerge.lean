import OceanBase.Lib.Overlay

/-!
# Minor compaction of one row

A table gives the versions of a row newest first. The last one carries the last flag, and if there
are several a shadow row stands before them that holds their fusion. `merge_same_rowkey_iters`
merges the rows of several tables, the newest table first: it fuses the first rows of all tables
into a new shadow row, and then, again and again, the rows at the newest version, and removes tables
that are exhausted.

An iterator is modelled by the rows of the one rowkey that it has still to give. The columns of the
rowkey are left out, apart from the version and the sequence number.
-/

universe u v

namespace OceanBase.Compaction

/-! ## Rows -/

inductive DmlFlag where
  | notExist
  | insert
  | update
  | delete
  deriving DecidableEq

structure ObDmlRowFlag where
  flag : DmlFlag := .notExist
  /-- the flag type is `DF_TYPE_INSERT_DELETE` -/
  insertDelete : Bool := false

def ObDmlRowFlag.fuseFlag (f input : ObDmlRowFlag) : ObDmlRowFlag :=
  match input.flag with
  | .insert =>
    if f.flag = .delete then { f with insertDelete := true } else { f with flag := .insert }
  | .delete =>
    if f.flag = .delete ∧ f.insertDelete = true then { f with insertDelete := input.insertDelete }
    else f
  | .notExist | .update => f

/-- The flags of a row among the versions of its rowkey. -/
structure ObMultiVersionRowFlag where
  compacted : Bool := false
  last : Bool := false
  first : Bool := false
  uncommitted : Bool := false
  ghost : Bool := false
  shadow : Bool := false

/-- A version of the row with the columns `ι`; a column without a value is a nop. -/
structure ObDatumRow (ι : Type u) (α : Type v) where
  transVersion : ℕ
  sqlSequence : ℤ
  rowFlag : ObDmlRowFlag
  datums : ι → Option α
  mvccRowFlag : ObMultiVersionRowFlag

inductive MergeError where
  | invalidArgument
  | errUnexpected
  | innerStatError
  | iterEnd

section Fuser

variable {ι : Type u} {α : Type v} [Fintype ι]

def allSet (datums : ι → Option α) : Bool := decide (∀ i, (datums i).isSome = true)

/-- `ObRowFuse::fuse_row`: the row `former` below the result so far, and whether the result is
final. The nop positions are the columns of the result without a value. -/
def ObRowFuse.fuseRow (former result : ObDatumRow ι α) : ObDatumRow ι α × Bool :=
  if result.rowFlag.flag = .delete ∨ former.rowFlag.flag = .notExist then (result, false)
  else
    let firstVal := result.rowFlag.flag = .notExist
    let copied := { former with mvccRowFlag := result.mvccRowFlag }
    if former.rowFlag.flag = .delete then (if firstVal then copied else result, true)
    else
      let fused := if firstVal then copied
        else { result with datums := fun i => (result.datums i).or (former.datums i) }
      (fused, allSet fused.datums)

/-- `add_fuse_row` for one row after the other, until the result is final. -/
def addFuseRows : List (ObDatumRow ι α) → ObDatumRow ι α → ObDatumRow ι α
  | [], result => result
  | row :: rows, result =>
    let (result, finalResult) := ObRowFuse.fuseRow row result
    let result := { result with rowFlag := result.rowFlag.fuseFlag row.rowFlag }
    if finalResult then result else addFuseRows rows result

def cleanResultRow : ObDatumRow ι α where
  transVersion := 0
  sqlSequence := 0
  rowFlag := {}
  datums := fun _ => none
  mvccRowFlag := {}

/-- `fuse_delete_row`: a committed delete keeps the columns of its rowkey only. -/
def fuseDeleteRow (row : ObDatumRow ι α) : ObDatumRow ι α :=
  { row with
    datums := if row.mvccRowFlag.uncommitted then row.datums else fun _ => none
    mvccRowFlag := { row.mvccRowFlag with compacted := true } }

/-- `end_fuse_row` of the minor fuser. There are no nop positions before the first row. -/
def endFuseRow (result : ObDatumRow ι α) : ObDatumRow ι α :=
  if result.rowFlag.flag = .delete ∨ result.rowFlag.flag = .notExist ∨
      allSet result.datums = true then
    { result with mvccRowFlag := { result.mvccRowFlag with compacted := true } }
  else result

def fuseRows : List (ObDatumRow ι α) → Except MergeError (ObDatumRow ι α)
  | [] => .error .invalidArgument
  | row :: rows =>
    if row.rowFlag.flag = .delete then
      .ok { fuseDeleteRow row with
        rowFlag := (rows.map ObDatumRow.rowFlag).foldl ObDmlRowFlag.fuseFlag row.rowFlag }
    else .ok (endFuseRow (addFuseRows (row :: rows) cleanResultRow))

end Fuser

/-! ## Iterators -/

/-- An iterator: its current row and the rows of the same rowkey after it. -/
structure MergeIter (ι : Type u) (α : Type v) where
  curr : ObDatumRow ι α
  rest : List (ObDatumRow ι α)

section Iters

variable {ι : Type u} {α : Type v}

namespace MergeIter

def next (it : MergeIter ι α) : Except MergeError (MergeIter ι α) :=
  match it.rest with
  | [] => .error .iterEnd
  | row :: rows => .ok ⟨row, rows⟩

def isCompactCompletedRow (it : MergeIter ι α) : Bool :=
  it.curr.mvccRowFlag.shadow || (it.curr.mvccRowFlag.last && !it.curr.mvccRowFlag.uncommitted)

/-- `multi_version_compare`. Versions and sequence numbers are stored negated, so that newer rows
come first. -/
def multiVersionCompare (it other : MergeIter ι α) : Ordering :=
  match compare other.curr.transVersion it.curr.transVersion with
  | .eq =>
    if it.curr.mvccRowFlag.uncommitted && other.curr.mvccRowFlag.uncommitted then
      compare it.curr.sqlSequence other.curr.sqlSequence
    else .eq
  | o => o

end MergeIter

/-- The loop of `find_minimum_iters_with_same_rowkey` from position `i` on. -/
def findMinimumLoop (base : MergeIter ι α) (idxs : List ℕ) (i : ℕ) :
    List (MergeIter ι α) → List ℕ
  | [] => idxs
  | it :: its =>
    match it.multiVersionCompare base with
    | .lt => findMinimumLoop it [i] (i + 1) its
    | .gt => findMinimumLoop base idxs (i + 1) its
    | .eq => findMinimumLoop base (idxs ++ [i]) (i + 1) its

/-- `find_minimum_iters_with_same_rowkey`: the positions of the iterators at the newest version. -/
def findMinimumItersWithSameRowkey : List (MergeIter ι α) → Except MergeError (List ℕ)
  | [] => .error .invalidArgument
  | base :: its => .ok (findMinimumLoop base [0] 1 its)

section

variable (iters : List (MergeIter ι α))

/-- `move_and_remove_unused_iters` for one position. -/
def moveIter (i : ℕ) : Except MergeError (List (MergeIter ι α)) :=
  match iters[i]? with
  | none => .error .errUnexpected
  | some it =>
    if it.curr.mvccRowFlag.last then .ok (iters.eraseIdx i)
    else it.next.map (iters.set i)

/-- `move_and_remove_unused_iters`, from the last position to the first. -/
def moveAndRemoveUnusedIters (idxs : List ℕ) :
    Except MergeError (List (MergeIter ι α)) :=
  idxs.foldr (fun i iters => iters.bind (moveIter · i)) (.ok iters)

def skipShadowRow : Except MergeError (List (MergeIter ι α)) :=
  iters.mapM fun it => if it.curr.mvccRowFlag.shadow then it.next else .ok it

def tryRemoveGhostIters (rowkeyFirstRow : Bool) :
    Except MergeError (List (MergeIter ι α)) :=
  if iters.length < 1 ∨ (rowkeyFirstRow = false ∧ iters.length = 1) then .ok iters
  else
    let ghosts := (List.range iters.length).filter fun i =>
      (iters[i]?).any fun it => it.curr.mvccRowFlag.ghost
    if ghosts = [] ∨ (ghosts.length = iters.length ∧ rowkeyFirstRow = false) then .ok iters
    else moveAndRemoveUnusedIters iters ghosts

def checkFirstCommittedRow : Except MergeError Unit :=
  if iters.all fun it => it.isCompactCompletedRow || it.curr.mvccRowFlag.ghost then .ok ()
  else .error .innerStatError

def checkAddShadowRow (containMultiTrans : Bool) :
    Except MergeError Bool :=
  (checkFirstCommittedRow iters).map fun _ =>
    containMultiTrans || iters.any fun it => it.curr.mvccRowFlag.shadow

end

/-- `set_result_flag`, with the current rows of the fused iterators. -/
def setResultFlag (fuseIters : List (MergeIter ι α))
    (rowkeyFirstRow addShadowRow needCheckLast : Bool)
    (result : ObDatumRow ι α) : Except MergeError (ObDatumRow ι α) :=
  match fuseIters with
  | [] => .error .invalidArgument
  | base :: others =>
    let f := base.curr.mvccRowFlag
    let flag := { f with
      compacted := if f.uncommitted || f.ghost then f.compacted else result.mvccRowFlag.compacted
      first := rowkeyFirstRow
      last :=
        if f.ghost || !f.last then f.last
        else needCheckLast && others.all fun it => it.curr.mvccRowFlag.last }
    if addShadowRow then
      if flag.uncommitted then .error .invalidArgument
      else .ok { result with
        sqlSequence := -(2 ^ 63 - 1), mvccRowFlag := { flag with shadow := true } }
    else .ok { result with mvccRowFlag := flag }

end Iters

/-! ## The merge -/

section Merge

variable {ι : Type u} {α : Type v} [Fintype ι]

def fusedRow (fuseIters : List (MergeIter ι α)) (rowkeyFirstRow addShadowRow needCheckLast : Bool) :
    Except MergeError (ObDatumRow ι α) :=
  (fuseRows (fuseIters.map MergeIter.curr)).bind
    (setResultFlag fuseIters rowkeyFirstRow addShadowRow needCheckLast)

/-- The loop of `merge_same_rowkey_iters`: the rows it appends. The number bounds its rounds. -/
def mergeLoop : ℕ → List (MergeIter ι α) → Bool → Bool → Except MergeError (List (ObDatumRow ι α))
  | 0, _, _, _ => .error .errUnexpected
  | k + 1, iters, rowkeyFirstRow, shadowAlreadyOutput =>
    if iters.isEmpty then .ok []
    else
      (tryRemoveGhostIters iters rowkeyFirstRow).bind fun iters =>
        match iters with
        | [] => .ok []
        | iters@(_ :: _) =>
          (findMinimumItersWithSameRowkey iters).bind fun idxs =>
            let minimumIters := idxs.filterMap (iters[·]?)
            let isMulti := decide (minimumIters.length ≠ iters.length)
            match minimumIters with
            | [] => .error .errUnexpected
            | base :: _ =>
              if !shadowAlreadyOutput && base.isCompactCompletedRow then
                -- all iterators are fused
                (checkAddShadowRow iters isMulti).bind fun addShadowRow =>
                  (fusedRow iters rowkeyFirstRow addShadowRow (!isMulti)).bind fun row =>
                    ((if addShadowRow then skipShadowRow iters
                      else moveAndRemoveUnusedIters iters idxs).bind fun iters =>
                        mergeLoop k iters false true).map (row :: ·)
              else if shadowAlreadyOutput && base.curr.mvccRowFlag.shadow then
                if minimumIters.length ≠ 1 then .error .errUnexpected
                else (moveAndRemoveUnusedIters iters idxs).bind fun iters =>
                  mergeLoop k iters false shadowAlreadyOutput
              else
                (fusedRow minimumIters rowkeyFirstRow false (!isMulti)).bind fun row =>
                  ((moveAndRemoveUnusedIters iters idxs).bind fun iters =>
                    mergeLoop k iters false shadowAlreadyOutput).map (row :: ·)

/-- The loop of `merge_single_iter`: the rows it appends. -/
def mergeSingleLoop : List (ObDatumRow ι α) → Bool → Bool →
    Except MergeError (List (ObDatumRow ι α))
  | [], _, _ => .error .errUnexpected
  | row :: rows, rowkeyFirstRow, shadowAlreadyOutput =>
    if rowkeyFirstRow && row.mvccRowFlag.ghost then .ok []
    else
      let row := { row with mvccRowFlag := { row.mvccRowFlag with first := rowkeyFirstRow } }
      if shadowAlreadyOutput && row.mvccRowFlag.shadow then
        mergeSingleLoop rows false shadowAlreadyOutput
      else if row.mvccRowFlag.last then .ok [row]
      else (mergeSingleLoop rows false (shadowAlreadyOutput || row.mvccRowFlag.shadow)).map
        (row :: ·)

/-- `merge_same_rowkey_iters`: the rows it appends. -/
def mergeSameRowkeyIters : List (MergeIter ι α) → Except MergeError (List (ObDatumRow ι α))
  | [] => .error .invalidArgument
  | [it] => mergeSingleLoop (it.curr :: it.rest) true false
  | iters => mergeLoop ((iters.map fun it => it.rest.length + 1).sum + 2) iters true false

end Merge

end OceanBase.Compaction
