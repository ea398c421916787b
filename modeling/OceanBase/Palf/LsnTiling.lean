import OceanBase.Lib.Linked
import OceanBase.Palf.Scn

/-!
# The log without gaps

The logs of a leader cover the LSNs from the start of its term without gaps and overlaps. What a
call of `alloc_lsn_scn` takes is one entry, with the header of a group if it begins one, and before
it a padding entry if the log goes on in the next block. No entry lies in two blocks, and a padding
entry is never too short for its headers.

All this depends on one property of the end of the log: it is at the start of a block, or leaves at
least 4 KB.

## Main results

* `alloc_tiles_lsn_space`: every run
-/

namespace OceanBase.Palf

open LSNAllocator List

/-! ## Entries -/

/-- An entry in the log. The header of a group is counted in the first entry of the group. -/
structure Entry where
  isPadding : Bool
  isNewGroup : Bool
  lsn : ℕ
  len : ℕ
  logId : ℤ
  scn : ℕ

/-- What `submit_log` writes: the padding entry with the log id and the SCN that were handed out,
and behind it the log with the next ones. -/
def Allocated.entries (size : ℕ) (r : Allocated) : List Entry :=
  let len := size + if r.isNewGroupLog then logGroupEntryHeaderSize else 0
  if r.needGenPaddingEntry then
    [⟨true, true, r.lsn, r.paddingLen, r.logId, r.scn⟩,
      ⟨false, r.isNewGroupLog, r.lsn + r.paddingLen, len, r.logId + 1, scnPlus r.scn 1⟩]
  else [⟨false, r.isNewGroupLog, r.lsn, len, r.logId, r.scn⟩]

namespace Entry

def Covers (e : Entry) (lo hi : ℕ) : Prop := e.lsn = lo ∧ hi = lo + e.len

/-- The log id before the entry is `n`, and that of the entry is `n'`. -/
def Numbers (e : Entry) (n n' : ℤ) : Prop := e.logId = n' ∧ n' = n + if e.isNewGroup then 1 else 0

/-- The first and the last byte lie in the same block. -/
def InOneBlock (e : Entry) : Prop :=
  0 < e.len ∧ e.lsn / palfBlockSize = (e.lsn + e.len - 1) / palfBlockSize

/-- A padding entry has a certain length, and ends with its block. -/
def PaddingOk (e : Entry) : Prop :=
  e.isPadding = true → clogFileTailPaddingTrigger ≤ e.len ∧ palfBlockSize ∣ e.lsn + e.len

end Entry

/-! ## The place of a log -/

/-- The end of the log is at the start of a block or leaves at least 4 KB. -/
def WellPlaced (lsn : ℕ) : Prop :=
  lsn % palfBlockSize = 0 ∨ clogFileTailPaddingTrigger ≤ palfBlockSize - lsn % palfBlockSize

/-- A log of `size` bytes is put behind `lsn`. -/
structure Placed (lsn size : ℕ) (p : Placement) : Prop where
  nextLsn_eq : p.nextLsn =
    lsn + p.paddingLen + (size + if p.isNewGroupLog then logGroupEntryHeaderSize else 0)
  not_padded : p.needGenPaddingEntry = false → p.paddingLen = 0
  isNewGroupLog : p.needGenPaddingEntry = true → p.isNewGroupLog = true
  paddingLen_ge : p.needGenPaddingEntry = true → clogFileTailPaddingTrigger ≤ p.paddingLen
  padding_end : p.needGenPaddingEntry = true →
    lsn + p.paddingLen = (lsn / palfBlockSize + 1) * palfBlockSize
  inOneBlock : (lsn + p.paddingLen) / palfBlockSize = (p.nextLsn - 1) / palfBlockSize
  wellPlaced : WellPlaced p.nextLsn

variable {m : LSNTsMeta} {size : ℕ}

theorem padded_placed (h : WellPlaced m.lsnVal) (hoff : m.lsnVal % palfBlockSize ≠ 0)
    (hsize : size ≤ maxLogBodySize + maxLogHeaderSize) (hpos : 0 < size) :
    Placed m.lsnVal size (padded m size) := by
  have hroom := h.resolve_left hoff
  simp only [maxLogBodySize, maxLogHeaderSize] at hsize
  simp only [palfBlockSize, clogFileTailPaddingTrigger] at hroom hoff
  constructor
  all_goals
    simp only [padded, WellPlaced, Placement.nextLsn, palfBlockSize, clogFileTailPaddingTrigger,
      logGroupEntryHeaderSize, if_true, Bool.true_eq_false, false_implies, forall_const]
  all_goals omega

theorem place_placed (hcut : CutOk m) (h : WellPlaced m.lsnVal)
    (hsize : size ≤ maxLogBodySize + maxLogHeaderSize) (hpos : 0 < size) :
    Placed m.lsnVal size (place m size) := by
  have hnext : (aggregate m size).nextBlockOffset = m.lsnVal % palfBlockSize +
      (size + if (aggregate m size).isNewGroupLog then logGroupEntryHeaderSize else 0) :=
    nextBlockOffset_aggregate hcut
  have hhdr : (if (aggregate m size).isNewGroupLog then logGroupEntryHeaderSize else 0) ≤ 56 := by
    unfold logGroupEntryHeaderSize
    split_ifs <;> omega
  -- at the start of a block there is room for the log and 4 KB behind it
  have hoff : palfBlockSize < (aggregate m size).nextBlockOffset + clogFileTailPaddingTrigger →
      m.lsnVal % palfBlockSize ≠ 0 := by
    unfold palfBlockSize clogFileTailPaddingTrigger at *
    unfold maxLogBodySize maxLogHeaderSize at hsize
    omega
  unfold place
  dsimp only
  split_ifs with hlt htail heq
  · exact padded_placed h (hoff (by omega)) hsize hpos
  rotate_left 2
  · exact padded_placed h (hoff (by omega)) hsize hpos
  -- the log fits into the block
  all_goals
    unfold palfBlockSize clogFileTailPaddingTrigger at *
    constructor
  all_goals
    simp only [WellPlaced, Placement.nextLsn, palfBlockSize, clogFileTailPaddingTrigger,
      Bool.false_eq_true, false_implies, forall_const]
  all_goals omega

/-! ## The entries of one call -/

section Entries

variable {x : AllocArgs} {b : LSNAllocator} {p : Placement} (h : Placed b.endLsn size p)
include h

theorem entries_covers : Linked Entry.Covers b.endLsn ((b.handOut x p).entries size) p.nextLsn := by
  unfold Allocated.entries
  cases hp : p.needGenPaddingEntry with
  | true =>
    simp only [handOut, hp, if_true]
    exact ⟨_, ⟨rfl, rfl⟩, linked_singleton.mpr ⟨rfl, h.nextLsn_eq⟩⟩
  | false =>
  simp only [handOut, hp, Bool.false_eq_true, if_false]
  refine linked_singleton.mpr ⟨rfl, ?_⟩
  rw [h.nextLsn_eq, h.not_padded hp, Nat.add_zero]

theorem entries_numbers :
    Linked Entry.Numbers b.maxLogId ((b.handOut x p).entries size) (b.maxLogId + p.logIdInc) := by
  unfold Allocated.entries Placement.logIdInc
  cases hp : p.needGenPaddingEntry with
  | true =>
    have hnew := h.isNewGroupLog hp
    simp only [handOut, hp, hnew, if_true]
    refine ⟨b.maxLogId + 1, ⟨rfl, rfl⟩, linked_singleton.mpr ⟨?_, ?_⟩⟩
    · show b.maxLogId + 1 + 1 = _
      omega
    · show _ = b.maxLogId + 1 + 1
      omega
  | false =>
    simp only [handOut, hp, Bool.false_eq_true, if_false]
    refine linked_singleton.mpr ⟨?_, ?_⟩
    · cases p.isNewGroupLog <;> simp
    · cases p.isNewGroupLog <;> simp

theorem entries_inOneBlock (hpos : 0 < size) :
    ∀ e ∈ (b.handOut x p).entries size, e.InOneBlock ∧ e.PaddingOk := by
  have hend := h.inOneBlock
  rw [h.nextLsn_eq] at hend
  unfold Allocated.entries
  cases hp : p.needGenPaddingEntry with
  | true =>
    simp only [handOut, hp, if_true, mem_cons, not_mem_nil, or_false]
    rintro e (rfl | rfl)
    · -- the padding entry lies between the end of the log and the end of its block
      have hlen := h.paddingLen_ge hp
      have hpad := h.padding_end hp
      refine ⟨⟨?_, ?_⟩, fun _ => ⟨hlen, ?_⟩⟩
      · show 0 < p.paddingLen
        unfold clogFileTailPaddingTrigger at hlen
        omega
      · show b.endLsn / palfBlockSize = (b.endLsn + p.paddingLen - 1) / palfBlockSize
        unfold clogFileTailPaddingTrigger at hlen
        unfold palfBlockSize at *
        omega
      · show palfBlockSize ∣ b.endLsn + p.paddingLen
        rw [hpad]
        exact Nat.dvd_mul_left _ _
    · exact ⟨⟨Nat.add_pos_left hpos _, hend⟩, fun hpad => nomatch hpad⟩
  | false =>
    simp only [handOut, hp, Bool.false_eq_true, if_false, mem_singleton]
    rintro e rfl
    rw [h.not_padded hp, Nat.add_zero] at hend
    exact ⟨⟨Nat.add_pos_left hpos _, hend⟩, fun hpad => nomatch hpad⟩

end Entries

/-! ## Runs -/

/-- A successful call, with the end of the log before and after it. -/
structure AllocCall where
  size : ℕ
  result : Allocated
  oldEnd : ℕ
  newEnd : ℕ

structure AllocRun where
  alloc : LSNAllocator
  calls : List AllocCall

namespace AllocCall

def entries (c : AllocCall) : List Entry := c.result.entries c.size

def Covers (c : AllocCall) (lo hi : ℕ) : Prop := c.oldEnd = lo ∧ c.newEnd = hi

end AllocCall

def AllocRun.entries (s : AllocRun) : List Entry := s.calls.flatMap AllocCall.entries

inductive AllocRunStep : AllocRun → AllocRun → Prop
  | alloc {s : AllocRun} (x : AllocArgs) (fuel : ℕ) {r a'}
      (hsize : x.size ≤ maxLogBodySize + maxLogHeaderSize)
      (h : s.alloc.allocLsnScn x fuel = some (.ok r, a')) :
      AllocRunStep s ⟨a', s.calls ++ [⟨x.size, r, s.alloc.endLsn, a'.endLsn⟩]⟩
  | tryFreeze {s} : AllocRunStep s ⟨s.alloc.tryFreeze.2, s.calls⟩
  | tryFreezeByTime {s} : AllocRunStep s ⟨s.alloc.tryFreezeByTime.2, s.calls⟩

def allocRuns (a₀ : LSNAllocator) : Machine AllocRun where
  init s := s = ⟨a₀, []⟩
  step := AllocRunStep

/-- What a successful call does. -/
structure CallOk (a : LSNAllocator) (size : ℕ) (r : Allocated) (a' : LSNAllocator) : Prop where
  covers : Linked Entry.Covers a.endLsn (r.entries size) a'.endLsn
  numbers : Linked Entry.Numbers a.maxLogId (r.entries size) a'.maxLogId
  inOneBlock : ∀ e ∈ r.entries size, e.InOneBlock ∧ e.PaddingOk
  cutOk : CutOk a'.lsnTsMeta
  wellPlaced : WellPlaced a'.endLsn

theorem callOk_of_alloc {a a' : LSNAllocator} {x : AllocArgs} {fuel r}
    (hcut : CutOk a.lsnTsMeta) (hlsn : WellPlaced a.endLsn)
    (hsize : x.size ≤ maxLogBodySize + maxLogHeaderSize)
    (h : a.allocLsnScn x fuel = some (.ok r, a')) : CallOk a x.size r a' := by
  -- moving the base changes neither the end of the log nor the last log id
  rcases allocLsnScn_ind
      (C := fun b => b.endLsn = a.endLsn ∧ b.maxLogId = a.maxLogId ∧ CutOk b.lsnTsMeta)
      (fun b ⟨h₁, h₂, h₃⟩ => ⟨h₁, maxLogId_updateBase.trans h₂, h₃⟩)
      ⟨rfl, rfl, hcut⟩ h with
    ⟨-, hres, -⟩ | ⟨hx, b, ⟨hend, hid, hb⟩, hbase, hpass⟩
  · exact nomatch hres
  rw [← hend] at hlsn
  have hp : Placed b.endLsn x.size (place b.lsnTsMeta x.size) := place_placed hb hlsn hsize hx.1
  rcases allocPlaced_cases hpass with ⟨hres, -⟩ | ⟨hres, -⟩ | ⟨hres, rfl, -⟩
  · exact nomatch hres
  · exact nomatch hres
  cases hres
  refine ⟨?_, ?_, entries_inOneBlock hp hx.1, place_cutOk hb hx.1 _ _, hp.wellPlaced⟩
  · rw [← hend]
    exact entries_covers hp
  · rw [← hid, maxLogId_advance hbase]
    exact entries_numbers hp

/-- The calls so far have taken what lies between the first and the last end of the log. -/
structure Tiled (a₀ : LSNAllocator) (s : AllocRun) : Prop where
  cutOk : CutOk s.alloc.lsnTsMeta
  wellPlaced : WellPlaced s.alloc.endLsn
  calls : ∀ c ∈ s.calls, Linked Entry.Covers c.oldEnd c.entries c.newEnd
  regions : Linked AllocCall.Covers a₀.endLsn s.calls s.alloc.endLsn
  entries : Linked Entry.Covers a₀.endLsn s.entries s.alloc.endLsn
  logIds : Linked Entry.Numbers a₀.maxLogId s.entries s.alloc.maxLogId
  inOneBlock : ∀ e ∈ s.entries, e.InOneBlock ∧ e.PaddingOk

theorem Tiled.cut {a₀ a cs} (h : Tiled a₀ ⟨a, cs⟩) : Tiled a₀ ⟨a.cut, cs⟩ :=
  { h with cutOk := .inl rfl }

theorem AllocRunStep.tiled {a₀ s s'} (h : AllocRunStep s s') (hs : Tiled a₀ s) : Tiled a₀ s' := by
  cases h with
  | @alloc x fuel r a' hsize h =>
    have hc : CallOk s.alloc x.size r a' := callOk_of_alloc hs.cutOk hs.wellPlaced hsize h
    have hentries : (AllocRun.mk a' (s.calls ++ [⟨x.size, r, s.alloc.endLsn, a'.endLsn⟩])).entries =
        s.entries ++ r.entries x.size := by
      simp [AllocRun.entries, AllocCall.entries]
    refine ⟨hc.cutOk, hc.wellPlaced, ?_, ?_, ?_, ?_, ?_⟩
    · intro c hmem
      rcases mem_append.mp hmem with hmem | hmem
      · exact hs.calls c hmem
      rw [mem_singleton.mp hmem]
      exact hc.covers
    · exact hs.regions.append (linked_singleton.mpr ⟨rfl, rfl⟩)
    · rw [hentries]
      exact hs.entries.append hc.covers
    · rw [hentries]
      exact hs.logIds.append hc.numbers
    · intro e hmem
      rw [hentries] at hmem
      exact (mem_append.mp hmem).elim (hs.inOneBlock e) (hc.inOneBlock e)
  | tryFreeze => exact (tryFreeze_keeps (P := fun a => Tiled a₀ ⟨a, s.calls⟩) hs hs.cut).1
  | tryFreezeByTime => exact (tryFreeze_keeps (P := fun a => Tiled a₀ ⟨a, s.calls⟩) hs hs.cut).2

theorem allocRuns_tiled {a₀} (h₀ : allocator.Reachable a₀)
    (hlsn : WellPlaced a₀.endLsn) {s} (h : (allocRuns a₀).Reachable s) : Tiled a₀ s := by
  refine h.of_keeps ?_ fun _ _ hs hstep => AllocRunStep.tiled hstep hs
  rintro _ rfl
  exact ⟨allocator_cutOk h₀, hlsn, forall_mem_nil _, rfl, rfl, rfl, forall_mem_nil _⟩

/-- **The log has no gaps**: from every state of an allocator whose end of the log is at the start
of a block or leaves at least 4 KB, and for every sequence of successful calls and freezes, the
region of each call is covered by its entries, one after the other, and the regions follow one
another. Log ids increase by one with each entry that begins a group, which padding entries do. No
entry lies in two blocks; padding entries have at least 4 KB and end with their block. -/
theorem alloc_tiles_lsn_space {a₀ : LSNAllocator} (h₀ : allocator.Reachable a₀)
    (hlsn : WellPlaced a₀.endLsn) {s : AllocRun} (h : (allocRuns a₀).Reachable s) :
    (∀ c ∈ s.calls, Linked Entry.Covers c.oldEnd c.entries c.newEnd) ∧
      Linked AllocCall.Covers a₀.endLsn s.calls s.alloc.endLsn ∧
      Linked Entry.Covers a₀.endLsn s.entries s.alloc.endLsn ∧
      Linked Entry.Numbers a₀.maxLogId s.entries s.alloc.maxLogId ∧
      ∀ e ∈ s.entries, e.InOneBlock ∧ e.PaddingOk := by
  have ht := allocRuns_tiled h₀ hlsn h
  exact ⟨ht.calls, ht.regions, ht.entries, ht.logIds, ht.inOneBlock⟩

/-- An allocator with 5000 bytes left in its block. -/
def nearBlockEnd : LSNAllocator := ⟨⟨true, 0, 0, palfBlockSize - 5000⟩, 0, 0⟩

/-- A log of 1000 bytes would leave less than 4 KB, and goes to the next block. -/
theorem nearBlockEnd_tiled :
    ∃ s, (allocRuns nearBlockEnd).Reachable s ∧ s.alloc.endLsn = palfBlockSize + 1056 ∧
      s.alloc.maxLogId = 2 ∧ Linked Entry.Covers nearBlockEnd.endLsn s.entries s.alloc.endLsn := by
  have h₀ : allocator.Reachable nearBlockEnd := .init ⟨0, 0, palfBlockSize - 5000, rfl⟩
  have h₁ : (allocRuns nearBlockEnd).Reachable ⟨nearBlockEnd, []⟩ := .init rfl
  have halloc : nearBlockEnd.allocLsnScn ⟨7, 1000, 100, 2 ^ 40⟩ 1 =
      some (.ok ⟨palfBlockSize - 5000, 1, 7, true, true, 5000⟩,
        ⟨⟨false, 2, 8, palfBlockSize + 1056⟩, 0, 0⟩) := by
    decide +kernel
  have h₂ := h₁.step (AllocRunStep.alloc ⟨7, 1000, 100, 2 ^ 40⟩ 1 (by decide) halloc)
  exact ⟨_, h₂, by decide, by decide, (alloc_tiles_lsn_space h₀ (.inr (by decide)) h₂).2.2.1⟩

end OceanBase.Palf
