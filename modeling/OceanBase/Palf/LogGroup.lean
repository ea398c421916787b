import OceanBase.Palf.Scn

/-!
# Group entries on disk

A log on disk is a sequence of group entries that tile the LSN space. A group entry is a header and
log entries, each again a header and data; a padding group fills the rest of a block and holds one
entry. The header of a group carries the checksum accumulated over all groups up to it.

The bytes are modelled by what starts at an LSN: a group header, the header of a log entry with the
data behind it, or nothing that parses. `groupCell` lays a list of groups out in this way.

A flashback to an SCN keeps the entries up to it: whole groups, and the first entries of the group
in which the SCN lies, whose header is computed again.

## Main results

* `GroupsTile.cut`, `placeGroups_cut`
-/

namespace OceanBase.Palf

open List

/-! ## Entries and groups -/

def logEntryHeaderSerSize : ℕ := 32

/-- `LogEntryHeader::PADDING_LOG_ENTRY_SIZE`: the headers of a padding log. -/
def paddingLogEntrySize : ℕ := 48

def maxLogBufferSize : ℕ := maxLogBodySize + maxLogHeaderSize + clogFileTailPaddingTrigger

/-- The checksum function of the log, and the checksum of the data of a padding entry. -/
structure Checksums where
  crc64 : ℤ → ℤ → ℤ
  paddingData : ℤ

structure LogEntry where
  scn : ℕ
  dataLen : ℕ
  dataChecksum : ℤ
deriving DecidableEq

def LogEntry.size (e : LogEntry) : ℕ := logEntryHeaderSerSize + e.dataLen

def entriesSize (l : List LogEntry) : ℕ := (l.map LogEntry.size).sum

structure LogGroup where
  isRawWrite : Bool
  isPadding : Bool
  proposalId : ℤ
  logId : ℤ
  entries : List LogEntry
deriving DecidableEq

namespace LogGroup

variable (c : Checksums) (g : LogGroup)

def dataLen : ℕ := entriesSize g.entries

def size : ℕ := logGroupEntryHeaderSize + g.dataLen

def maxScn : ℕ := (g.entries.getLast?.map LogEntry.scn).getD invalidScn

/-- The checksum of a group over its entries; the one of a padding group is 0. -/
def dataChecksum : ℤ :=
  if g.isPadding then 0 else g.entries.foldl (fun a e => c.crc64 a e.dataChecksum) 0

end LogGroup

open LogGroup

def groupsSize (l : List LogGroup) : ℕ := (l.map LogGroup.size).sum

/-- The checksum accumulated over consecutive groups. -/
def accumOf (c : Checksums) (accum : ℤ) (l : List LogGroup) : ℤ :=
  l.foldl (fun a g => c.crc64 a (g.dataChecksum c)) accum

def entriesOf (l : List LogGroup) : List LogEntry := l.flatMap LogGroup.entries

/-- An entry, where it lies, and whether its group is written raw. -/
structure PlacedEntry where
  lsn : ℕ
  isRawWrite : Bool
  entry : LogEntry
deriving DecidableEq

/-- Consecutive entries from an LSN on. -/
def placeEntries (raw : Bool) : ℕ → List LogEntry → List PlacedEntry
  | _, [] => []
  | lsn, e :: es => ⟨lsn, raw, e⟩ :: placeEntries raw (lsn + e.size) es

/-- The entries of consecutive groups from an LSN on. -/
def placeGroups : ℕ → List LogGroup → List PlacedEntry
  | _, [] => []
  | lsn, g :: gs => placeEntries g.isRawWrite (lsn + logGroupEntryHeaderSize) g.entries ++
      placeGroups (lsn + g.size) gs

section Sizes

variable {c : Checksums} {e : LogEntry} {es es' : List LogEntry} {g : LogGroup}
  {gs gs' : List LogGroup} {lsn : ℕ} {accum : ℤ} {raw : Bool}

theorem LogEntry.size_pos (e : LogEntry) : 0 < e.size := by
  unfold size logEntryHeaderSerSize
  omega

theorem LogGroup.headerSize_le (g : LogGroup) : logGroupEntryHeaderSize ≤ g.size :=
  Nat.le_add_right _ _

@[simp] theorem entriesSize_nil : entriesSize [] = 0 := rfl

@[simp] theorem entriesSize_cons : entriesSize (e :: es) = e.size + entriesSize es := rfl

theorem LogGroup.size_of_cons (g : LogGroup) (h : g.entries = e :: es) :
    g.size = logGroupEntryHeaderSize + (e.size + entriesSize es) := by
  rw [size, dataLen, h, entriesSize_cons]

@[simp] theorem entriesSize_append :
    entriesSize (es ++ es') = entriesSize es + entriesSize es' := by
  simp [entriesSize]

@[simp] theorem groupsSize_nil : groupsSize [] = 0 := rfl

@[simp] theorem groupsSize_cons : groupsSize (g :: gs) = g.size + groupsSize gs := rfl

@[simp] theorem groupsSize_append : groupsSize (gs ++ gs') = groupsSize gs + groupsSize gs' := by
  simp [groupsSize]

@[simp] theorem accumOf_nil : accumOf c accum [] = accum := rfl

@[simp] theorem accumOf_cons :
    accumOf c accum (g :: gs) = accumOf c (c.crc64 accum (g.dataChecksum c)) gs := rfl

@[simp] theorem accumOf_append :
    accumOf c accum (gs ++ gs') = accumOf c (accumOf c accum gs) gs' := by
  simp [accumOf]

@[simp] theorem entriesOf_nil : entriesOf [] = [] := rfl

@[simp] theorem entriesOf_cons : entriesOf (g :: gs) = g.entries ++ entriesOf gs := by
  simp [entriesOf]

@[simp] theorem entriesOf_append : entriesOf (gs ++ gs') = entriesOf gs ++ entriesOf gs' := by
  simp [entriesOf]

theorem placeEntries_append : placeEntries raw lsn (es ++ es') =
      placeEntries raw lsn es ++ placeEntries raw (lsn + entriesSize es) es' := by
  induction es generalizing lsn with
  | nil => simp [placeEntries]
  | cons e es ih => simp [placeEntries, ih, Nat.add_assoc]

theorem placeGroups_append :
    placeGroups lsn (gs ++ gs') = placeGroups lsn gs ++ placeGroups (lsn + groupsSize gs) gs' := by
  induction gs generalizing lsn with
  | nil => simp [placeGroups]
  | cons g gs ih => simp [placeGroups, ih, Nat.add_assoc, append_assoc]

variable {x : PlacedEntry}

theorem mem_placeEntries (h : x ∈ placeEntries raw lsn es) :
    lsn ≤ x.lsn ∧ x.lsn + x.entry.size ≤ lsn + entriesSize es := by
  induction es generalizing lsn with
  | nil => cases h
  | cons e es ih =>
  rcases mem_cons.mp h with rfl | h
  · simp only [entriesSize_cons]
    omega
  have := ih h
  rw [entriesSize_cons]
  omega

theorem mem_placeGroups (h : x ∈ placeGroups lsn gs) :
    lsn ≤ x.lsn ∧ x.lsn + x.entry.size ≤ lsn + groupsSize gs := by
  induction gs generalizing lsn with
  | nil => cases h
  | cons g gs ih =>
  rw [groupsSize_cons, size]
  rcases mem_append.mp h with h | h
  · have := mem_placeEntries h
    rw [dataLen]
    omega
  · have := ih h
    rw [size] at this
    omega

open PlacedEntry

@[simp] theorem map_entry_placeEntries : (placeEntries raw lsn es).map entry = es := by
  induction es generalizing lsn with
  | nil => rfl
  | cons e es ih => simp [placeEntries, ih]

@[simp] theorem map_entry_placeGroups :
    (placeGroups lsn gs).map entry = entriesOf gs := by
  induction gs generalizing lsn with
  | nil => rfl
  | cons g gs ih => simp [placeGroups, ih]

theorem entry_mem_of_placeEntries (h : x ∈ placeEntries raw lsn es) : x.entry ∈ es := by
  have := mem_map_of_mem (f := entry) h
  rwa [map_entry_placeEntries] at this

theorem entry_mem_of_placeGroups (h : x ∈ placeGroups lsn gs) : x.entry ∈ entriesOf gs := by
  have := mem_map_of_mem (f := entry) h
  rwa [map_entry_placeGroups] at this

end Sizes

/-! ## The layout -/

structure GroupHeader where
  isRawWrite : Bool
  isPadding : Bool
  groupSize : ℕ
  maxScn : ℕ
  accumChecksum : ℤ
  proposalId : ℤ
  logId : ℤ
deriving DecidableEq

/-- The header of a group, given the checksum accumulated before it. -/
def LogGroup.header (c : Checksums) (accum : ℤ) (g : LogGroup) : GroupHeader where
  isRawWrite := g.isRawWrite
  isPadding := g.isPadding
  groupSize := g.dataLen
  maxScn := g.maxScn
  accumChecksum := c.crc64 accum (g.dataChecksum c)
  proposalId := g.proposalId
  logId := g.logId

/-- What starts at an LSN. -/
inductive Cell
  | group (h : GroupHeader)
  | entry (e : LogEntry)
deriving DecidableEq

def entryCell : ℕ → List LogEntry → ℕ → Option Cell
  | _, [], _ => none
  | lsn, e :: es, p => if p = lsn then some (.entry e) else entryCell (lsn + e.size) es p

/-- Groups laid out from `lsn` on, after groups with the accumulated checksum `accum`. -/
def groupCell (c : Checksums) : ℕ → ℤ → List LogGroup → ℕ → Option Cell
  | _, _, [], _ => none
  | lsn, accum, g :: gs, p =>
    if p = lsn then some (.group (g.header c accum))
    else if p < lsn + g.size then entryCell (lsn + logGroupEntryHeaderSize) g.entries p
    else groupCell c (lsn + g.size) (c.crc64 accum (g.dataChecksum c)) gs p

section Layout

variable {c : Checksums} {e : LogEntry} {es es' : List LogEntry} {g : LogGroup}
  {gs gs' : List LogGroup} {lsn p : ℕ} {accum : ℤ}

theorem groupCell_append (h : lsn + groupsSize gs ≤ p) : groupCell c lsn accum (gs ++ gs') p =
      groupCell c (lsn + groupsSize gs) (accumOf c accum gs) gs' p := by
  induction gs generalizing lsn accum with
  | nil => rfl
  | cons g gs ih =>
  have hg := g.headerSize_le
  unfold logGroupEntryHeaderSize at hg
  rw [groupsSize_cons] at h
  rw [cons_append, groupCell, if_neg (by omega), if_neg (by omega), ih (by omega),
    groupsSize_cons, accumOf_cons, Nat.add_assoc]

theorem groupCell_append_left (h : lsn ≤ p) (h' : p < lsn + groupsSize gs) :
    groupCell c lsn accum (gs ++ gs') p = groupCell c lsn accum gs p := by
  induction gs generalizing lsn accum with
  | nil =>
    rw [groupsSize_nil] at h'
    omega
  | cons g gs ih =>
  rw [groupsSize_cons] at h'
  rw [cons_append, groupCell, groupCell]
  split_ifs
  · rfl
  · rfl
  · exact ih (by omega) (by omega)

theorem entryCell_append (h : lsn + entriesSize es ≤ p) :
    entryCell lsn (es ++ es') p = entryCell (lsn + entriesSize es) es' p := by
  induction es generalizing lsn with
  | nil => rfl
  | cons e es ih =>
  have he := e.size_pos
  rw [entriesSize_cons] at h
  rw [cons_append, entryCell, if_neg (by omega), ih (by omega), entriesSize_cons,
    Nat.add_assoc]

/-- **The layout inside a group** is the one of its entries. -/
theorem groupCell_inside (h : lsn + logGroupEntryHeaderSize ≤ p) (h' : p < lsn + g.size) :
    groupCell c lsn accum (g :: gs) p = entryCell (lsn + logGroupEntryHeaderSize) g.entries p := by
  unfold logGroupEntryHeaderSize at h
  rw [groupCell, if_neg (by omega), if_pos h']

theorem groupCell_entry (he : g.entries = es ++ e :: es') :
    groupCell c lsn accum (g :: gs) (lsn + logGroupEntryHeaderSize + entriesSize es) =
      some (.entry e) := by
  have hsize : g.size =
    logGroupEntryHeaderSize + (entriesSize es + (e.size + entriesSize es')) := by
    unfold size dataLen
    rw [he]
    simp
  have hpos := e.size_pos
  rw [groupCell_inside (by omega) (by omega), he, entryCell_append le_rfl, entryCell, if_pos rfl]

end Layout

/-! ## Well formed logs -/

/-- A group as PALF writes it at an LSN: it has entries, it fits into the read buffer and into its
block, and a padding group has one entry and ends with the block. -/
structure LogGroup.Wf (c : Checksums) (lsn : ℕ) (g : LogGroup) : Prop where
  nonempty : g.entries ≠ []
  valid : ∀ e ∈ g.entries, scnIsValid e.scn ∧ 0 < e.dataLen
  size_le : g.size ≤ maxLogBufferSize
  block : lsn % palfBlockSize + g.size ≤ palfBlockSize
  padding : g.isPadding = true → (lsn + g.size) % palfBlockSize = 0 ∧
    ∃ e, g.entries = [e] ∧ paddingLogEntrySize ≤ e.dataLen ∧ e.dataChecksum = c.paddingData

/-- The groups are well formed where they lie, one behind the other from `lsn` on. -/
def GroupsTile (c : Checksums) : ℕ → List LogGroup → Prop
  | _, [] => True
  | lsn, g :: gs => g.Wf c lsn ∧ GroupsTile c (lsn + g.size) gs

def Ascending (l : List LogEntry) : Prop := l.Pairwise fun a b => a.scn < b.scn

theorem groupsTile_append {c lsn gs gs'} :
    GroupsTile c lsn (gs ++ gs') ↔ GroupsTile c lsn gs ∧
      GroupsTile c (lsn + groupsSize gs) gs' := by
  induction gs generalizing lsn with
  | nil => simp [GroupsTile]
  | cons g gs ih => simp [GroupsTile, ih, and_assoc, Nat.add_assoc]

/-- A log from `base` on, behind groups with the accumulated checksum `accum`. -/
structure PalfLog where
  base : ℕ
  accum : ℤ
  groups : List LogGroup

namespace PalfLog

def cell (c : Checksums) (l : PalfLog) : ℕ → Option Cell := groupCell c l.base l.accum l.groups

def tail (l : PalfLog) : ℕ := l.base + groupsSize l.groups

def entries (l : PalfLog) : List PlacedEntry := placeGroups l.base l.groups

structure Wf (c : Checksums) (l : PalfLog) : Prop where
  tile : GroupsTile c l.base l.groups
  ascending : Ascending (entriesOf l.groups)

end PalfLog

/-! ## Flashback -/

/-- `LogGroupEntryHeader::truncate`: the entries up to the SCN. -/
def LogGroup.cut (scn : ℕ) (g : LogGroup) : LogGroup :=
  { g with entries := g.entries.takeWhile (·.scn ≤ scn) }

def cutGroups (scn : ℕ) : List LogGroup → List LogGroup
  | [] => []
  | g :: gs =>
    if g.maxScn ≤ scn then g :: cutGroups scn gs
    else if (g.cut scn).entries = [] then [] else [g.cut scn]

section Cut

variable {c : Checksums} {scn lsn : ℕ} {e : LogEntry} {es : List LogEntry} {g : LogGroup}
  {gs done todo : List LogGroup}

theorem Ascending.le_maxScn (h : Ascending g.entries) (he : e ∈ g.entries) : e.scn ≤ g.maxScn := by
  obtain ⟨es, last, hes⟩ := eq_nil_or_concat g.entries |>.resolve_left (ne_nil_of_mem he)
  rw [LogGroup.maxScn, hes, concat_eq_append, List.getLast?_concat]
  rw [hes, concat_eq_append] at h he
  rcases mem_append.mp he with he | he
  · exact (pairwise_append.mp h |>.2.2 e he last (mem_singleton_self _)).le
  rw [mem_singleton.mp he]
  exact le_rfl

theorem LogGroup.exists_maxScn (h : g.entries ≠ []) : ∃ e ∈ g.entries, e.scn = g.maxScn := by
  obtain ⟨es, last, hes⟩ := (eq_nil_or_concat g.entries).resolve_left h
  refine ⟨last, by rw [hes]; simp, ?_⟩
  rw [maxScn, hes, concat_eq_append, List.getLast?_concat]
  rfl

theorem LogGroup.cut_size_lt (h : g.entries ≠ []) (hscn : scn < g.maxScn) :
    (g.cut scn).size < g.size := by
  obtain ⟨e, he, hmax⟩ := exists_maxScn h
  have hdrop : g.entries.dropWhile (·.scn ≤ scn) ≠ [] := by
    rw [Ne, dropWhile_eq_nil_iff]
    intro hall
    have := of_decide_eq_true (hall e he)
    omega
  obtain ⟨x, xs, hx⟩ := exists_cons_of_ne_nil hdrop
  have hsplit : entriesSize g.entries =
      entriesSize (g.entries.takeWhile (·.scn ≤ scn)) + (x.size + entriesSize xs) := by
    conv_lhs => rw [← takeWhile_append_dropWhile (p := fun e : LogEntry => decide (e.scn ≤ scn))
      (l := g.entries)]
    rw [entriesSize_append, hx, entriesSize_cons]
  have hpos := x.size_pos
  unfold size dataLen cut
  simp only
  omega

theorem cutGroups_append (hne : ∀ g ∈ done, g.entries ≠ [])
    (h : groupsSize done ≤ groupsSize (cutGroups scn (done ++ todo))) :
    cutGroups scn (done ++ todo) = done ++ cutGroups scn todo := by
  induction done with
  | nil => rfl
  | cons g done ih =>
  rw [cons_append, cutGroups] at h ⊢
  have hg := hne g mem_cons_self
  by_cases hscn : g.maxScn ≤ scn
  · rw [if_pos hscn] at h ⊢
    rw [groupsSize_cons, groupsSize_cons] at h
    rw [ih (fun g hg => hne g (mem_cons_of_mem _ hg)) (by omega), cons_append]
  have hlt := cut_size_lt hg (not_le.mp hscn)
  rw [if_neg hscn, groupsSize_cons] at h
  split_ifs at h
  · rw [groupsSize_nil] at h
    omega
  · rw [groupsSize_cons, groupsSize_nil] at h
    omega

theorem placeEntries_takeWhile {raw} (h : Ascending es) :
    placeEntries raw lsn (es.takeWhile (·.scn ≤ scn)) =
      (placeEntries raw lsn es).filter (·.entry.scn ≤ scn) := by
  induction es generalizing lsn with
  | nil => rfl
  | cons e es ih =>
  obtain ⟨he, hes⟩ := pairwise_cons.mp h
  by_cases hscn : e.scn ≤ scn
  · rw [takeWhile_cons_of_pos (by simpa using hscn), placeEntries, placeEntries, ih hes,
      filter_cons_of_pos (by simpa using hscn)]
  -- the entries that follow are larger still
  have hnone : (placeEntries raw (lsn + e.size) es).filter (·.entry.scn ≤ scn) = [] := by
    rw [filter_eq_nil_iff]
    intro x hx
    have := he _ (entry_mem_of_placeEntries hx)
    simp only [decide_eq_true_eq]
    omega
  rw [takeWhile_cons_of_neg (by simpa using hscn), placeEntries, placeEntries,
    filter_cons_of_neg (by simpa using hscn), hnone]

/-- **A flashback keeps the entries up to the SCN**, where they are. -/
theorem placeGroups_cut (hne : ∀ g ∈ gs, g.entries ≠ []) (h : Ascending (entriesOf gs)) :
    placeGroups lsn (cutGroups scn gs) = (placeGroups lsn gs).filter (·.entry.scn ≤ scn) := by
  induction gs generalizing lsn with
  | nil => rfl
  | cons g gs ih =>
  rw [entriesOf_cons] at h
  obtain ⟨hg, hgs, hlt⟩ := pairwise_append.mp h
  rw [cutGroups, placeGroups, filter_append]
  by_cases hscn : g.maxScn ≤ scn
  · have hall : (placeEntries g.isRawWrite (lsn + logGroupEntryHeaderSize) g.entries).filter
        (·.entry.scn ≤ scn) =
          placeEntries g.isRawWrite (lsn + logGroupEntryHeaderSize) g.entries := by
      rw [← placeEntries_takeWhile hg, takeWhile_eq_self_iff.mpr]
      intro e he
      have := Ascending.le_maxScn hg he
      simp only [decide_eq_true_eq]
      omega
    rw [if_pos hscn, placeGroups, hall, ih (fun g hg => hne g (mem_cons_of_mem _ hg)) hgs]
  obtain ⟨last, hlast, hmax⟩ := exists_maxScn (hne g mem_cons_self)
  have hnone : (placeGroups (lsn + g.size) gs).filter (·.entry.scn ≤ scn) = [] := by
    rw [filter_eq_nil_iff]
    intro x hx
    have := hlt last hlast _ (entry_mem_of_placeGroups hx)
    simp only [decide_eq_true_eq]
    omega
  rw [if_neg hscn, hnone, append_nil, ← placeEntries_takeWhile hg]
  split_ifs with hempty
  · have : g.entries.takeWhile (·.scn ≤ scn) = [] := hempty
    rw [this]
    rfl
  · simp [placeGroups, cut]

theorem GroupsTile.exists_wf (h : GroupsTile c lsn gs) (hg : g ∈ gs) : ∃ lsn', g.Wf c lsn' := by
  induction gs generalizing lsn with
  | nil => cases hg
  | cons g' gs ih =>
  rcases mem_cons.mp hg with rfl | hg
  · exact ⟨lsn, h.1⟩
  · exact ih h.2 hg

theorem GroupsTile.nonempty (h : GroupsTile c lsn gs) : ∀ g ∈ gs, g.entries ≠ [] := by
  intro g hg
  obtain ⟨_, hwf⟩ := h.exists_wf hg
  exact hwf.nonempty

theorem GroupsTile.scn_valid (h : GroupsTile c lsn gs) : ∀ e ∈ entriesOf gs, scnIsValid e.scn := by
  intro e he
  obtain ⟨g, hg, he⟩ := mem_flatMap.mp he
  obtain ⟨_, hwf⟩ := h.exists_wf hg
  exact (hwf.valid e he).1

theorem LogGroup.Wf.cut (h : g.Wf c lsn) (hscn : scn < g.maxScn)
    (hne : (g.cut scn).entries ≠ []) : (g.cut scn).Wf c lsn := by
  have hlt := cut_size_lt h.nonempty hscn
  have hmax := h.size_le
  have hblock := h.block
  refine ⟨hne, fun e he => h.valid e ((takeWhile_sublist _).subset he), by omega, by omega, ?_⟩
  intro hp
  obtain ⟨-, e, he, -⟩ := h.padding hp
  have : g.maxScn = e.scn := by simp [maxScn, he]
  refine absurd ?_ hne
  simp only [LogGroup.cut, he]
  rw [takeWhile_cons_of_neg]
  simp only [decide_eq_true_eq]
  omega

/-- **The log after a flashback is well formed.** -/
theorem GroupsTile.cut (h : GroupsTile c lsn gs) : GroupsTile c lsn (cutGroups scn gs) := by
  induction gs generalizing lsn with
  | nil => exact h
  | cons g gs ih =>
  rw [cutGroups]
  split_ifs with hscn hempty
  · exact ⟨h.1, ih h.2⟩
  · trivial
  · exact ⟨h.1.cut (not_le.mp hscn) hempty, trivial⟩

end Cut

namespace PalfLog

variable {c : Checksums} {l : PalfLog}

def cut (scn : ℕ) (l : PalfLog) : PalfLog := { l with groups := cutGroups scn l.groups }

theorem Wf.entries_cut (h : l.Wf c) (scn : ℕ) :
    (l.cut scn).entries = l.entries.filter (·.entry.scn ≤ scn) :=
  placeGroups_cut h.tile.nonempty h.ascending

theorem Wf.cut (h : l.Wf c) (scn : ℕ) : (l.cut scn).Wf c := by
  refine ⟨h.tile.cut, ?_⟩
  have hsub : (l.cut scn).entries.Sublist l.entries := by
    rw [h.entries_cut]
    exact filter_sublist
  have := hsub.map PlacedEntry.entry
  rw [PalfLog.entries, PalfLog.entries, map_entry_placeGroups, map_entry_placeGroups] at this
  exact h.ascending.sublist this

end PalfLog

end OceanBase.Palf
