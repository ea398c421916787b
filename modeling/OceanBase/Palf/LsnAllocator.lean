import OceanBase.Lib.Machine
import OceanBase.Palf.Define

/-!
# The LSN allocator

A leader numbers its logs with `LSNAllocator`. One 128-bit word holds the end of the log, the last
log id and the last SCN; the two latter as differences to a base, in bit-fields of 28 and 35 bits.
Every call changes that word with one compare-and-swap, so that calls of several threads take effect
one after the other. When a difference gets too large, the base is moved.

Logs are collected in groups, and groups in blocks. A log that does not fit into its block any more
is written to the next one, and the rest of the block is filled with a padding entry. If less than
4 KB would remain behind a log, that is done at once.

LSNs and log ids are counted without the limit of 64 bits. SCNs are `uint64_t` with wrap-around, as
their differences to the base are compared after a subtraction.

## Main results

* `allocator_cutOk`
-/

namespace OceanBase.Palf

/-! ## Constants -/

def maxLogHeaderSize : ℕ := 4096

/-- `MAX_LOG_BODY_SIZE`, 3.5 MB -/
def maxLogBodySize : ℕ := 3 * 1024 * 1024 + 512 * 1024

/-- `PALF_BLOCK_SIZE`, 64 MB without the info block -/
def palfBlockSize : ℕ := 2 ^ 26 - 4096

def clogFileTailPaddingTrigger : ℕ := 4096

def logGroupEntryHeaderSize : ℕ := 56

def logCutTrigger : ℕ := 2 ^ 21

def logIdDeltaUpperBound : ℕ := 2 ^ 28 - 1000

def logTsDeltaUpperBound : ℕ := 2 ^ 35 - 1000

def invalidLogId : ℤ := -1

def maxScn : ℕ := 2 ^ 62 - 1

/-- `SCN::is_valid`: the two version bits are zero. -/
def scnIsValid (scn : ℕ) : Prop := scn ≤ maxScn
  deriving Decidable

def lsnIsValid (lsn : ℕ) : Prop := lsn ≠ 2 ^ 64 - 1
  deriving Decidable

def subU64 (a b : ℕ) : ℕ := (a + 2 ^ 64 - b) % 2 ^ 64

/-! ## The state -/

instance neZeroTwoPow28 : NeZero (2 ^ 28) := ⟨by decide⟩

instance neZeroTwoPow35 : NeZero (2 ^ 35) := ⟨by decide⟩

/-- The word that is changed by compare-and-swap. -/
structure LSNTsMeta where
  isNeedCut : Bool
  logIdDelta : Fin (2 ^ 28)
  scnDelta : Fin (2 ^ 35)
  lsnVal : ℕ
  deriving DecidableEq

structure LSNAllocator where
  lsnTsMeta : LSNTsMeta
  logIdBase : ℤ
  scnBase : ℕ
  deriving DecidableEq

namespace LSNAllocator

variable (a : LSNAllocator)

def endLsn : ℕ := a.lsnTsMeta.lsnVal

def maxLogId : ℤ := a.logIdBase + a.lsnTsMeta.logIdDelta

def lastScn : ℕ := (a.scnBase + a.lsnTsMeta.scnDelta) % 2 ^ 64

/-- `get_max_scn`; `none` is the invalid SCN that is returned if the conversion fails. -/
def getMaxScn : Option ℕ := if a.lastScn ≤ maxScn then some a.lastScn else none

/-! ## The operations other than the allocation -/

def init (logId : ℤ) (scn startLsn : ℕ) : Except ObErr LSNAllocator :=
  if logId = invalidLogId ∨ ¬ scnIsValid scn ∨ ¬ lsnIsValid startLsn then .error .invalidArgument
  else .ok ⟨⟨true, 0, 0, startLsn⟩, logId, scn⟩

def truncate (lsn : ℕ) (logId : ℤ) (scn : ℕ) : Except ObErr LSNAllocator :=
  if ¬ lsnIsValid lsn ∨ logId = invalidLogId ∨ ¬ scnIsValid scn then .error .invalidArgument
  else .ok ⟨⟨true, 0, 0, lsn⟩, logId, scn⟩

/-- `inc_update_last_log_info`. Both subtractions are from the base, the one of the SCN with
wrap-around. -/
def incUpdateLastLogInfo (lsn : ℕ) (logId : ℤ) (scn : ℕ) : Except ObErr LSNAllocator :=
  if ¬ lsnIsValid lsn ∨ ¬ scnIsValid scn ∨ logId = invalidLogId then .error .invalidArgument
  else if logId < a.maxLogId ∨ lsn < a.endLsn then .ok a
  else if (logIdDeltaUpperBound : ℤ) ≤ logId - a.logIdBase ∨
      logTsDeltaUpperBound ≤ subU64 scn a.scnBase then
    .ok ⟨⟨true, 0, 0, lsn⟩, logId, scn⟩
  else
    .ok { a with
      lsnTsMeta :=
        ⟨true, Fin.ofNat _ (logId - a.logIdBase).toNat, Fin.ofNat _ (subU64 scn a.scnBase), lsn⟩ }

def incUpdateScnBase (refScn : ℕ) : Except ObErr LSNAllocator :=
  if ¬ scnIsValid refScn then .error .invalidArgument
  else if refScn < a.lastScn then .ok a
  else .ok { a with
    lsnTsMeta := { a.lsnTsMeta with scnDelta := 0, isNeedCut := true }
    scnBase := refScn }

/-- The next log begins a new group. -/
def cut : LSNAllocator := { a with lsnTsMeta := { a.lsnTsMeta with isNeedCut := true } }

/-- `try_freeze`, which returns the end of the log and the last log id. -/
def tryFreeze : (ℕ × ℤ) × LSNAllocator :=
  if a.lsnTsMeta.isNeedCut then ((a.endLsn, a.maxLogId), a) else ((a.endLsn, a.maxLogId), a.cut)

/-- `try_freeze_by_time` reports it if there was nothing to freeze. -/
def tryFreezeByTime : (Option ObErr × ℕ × ℤ) × LSNAllocator :=
  if a.lsnTsMeta.isNeedCut then ((some .stateNotMatch, a.endLsn, a.maxLogId), a)
  else ((none, a.endLsn, a.maxLogId), a.cut)

end LSNAllocator

/-! ## The place of a log -/

/-- Whether a log begins a group, where it ends in its block, and whether the next log has to begin
a group. -/
structure Aggregation where
  isNewGroupLog : Bool
  nextBlockOffset : ℕ
  isNextNeedCut : Bool

def newGroup (lastBlockOffset size : ℕ) : Aggregation :=
  ⟨true, lastBlockOffset + (size + logGroupEntryHeaderSize),
    logCutTrigger ≤ lastBlockOffset % logCutTrigger + (size + logGroupEntryHeaderSize)⟩

/-- The log joins the last group unless that has been closed or would get across a 2 MB boundary. -/
def aggregate (last : LSNTsMeta) (size : ℕ) : Aggregation :=
  let lastBlockOffset := last.lsnVal % palfBlockSize
  if last.isNeedCut then newGroup lastBlockOffset size
  else if 0 < lastBlockOffset ∧ lastBlockOffset % logCutTrigger = 0 then
    -- the source sets `OB_ERR_UNEXPECTED` here, goes on with the offset zero, and overwrites the
    -- error code when it converts the SCN
    ⟨false, 0, false⟩
  else if 0 < lastBlockOffset ∧ logCutTrigger < lastBlockOffset % logCutTrigger + size then
    newGroup lastBlockOffset size
  else
    ⟨false, lastBlockOffset + size, logCutTrigger ≤ lastBlockOffset % logCutTrigger + size⟩

/-- Where a log is put. `paddingLen` bytes are filled before it. -/
structure Placement where
  isNewGroupLog : Bool
  needGenPaddingEntry : Bool
  paddingLen : ℕ
  nextBlockId : ℕ
  nextBlockOffset : ℕ
  isNextNeedCut : Bool

/-- The log ends here. -/
def Placement.nextLsn (p : Placement) : ℕ := p.nextBlockId * palfBlockSize + p.nextBlockOffset

theorem Placement.nextLsn_mod {p : Placement} (h : p.nextBlockOffset < palfBlockSize) :
    p.nextLsn % palfBlockSize = p.nextBlockOffset := by
  rw [nextLsn, Nat.mul_add_mod_self_right, Nat.mod_eq_of_lt h]

/-- Log ids that are used up. -/
def Placement.logIdInc (p : Placement) : ℕ :=
  (if p.isNewGroupLog then 1 else 0) + (if p.needGenPaddingEntry then 1 else 0)

/-- SCNs that are used up besides that of the first entry. -/
def Placement.scnInc (p : Placement) : ℕ := if p.needGenPaddingEntry then 1 else 0

/-- The log is put at the start of the next block. -/
def padded (last : LSNTsMeta) (size : ℕ) : Placement where
  isNewGroupLog := true
  needGenPaddingEntry := true
  paddingLen := palfBlockSize - last.lsnVal % palfBlockSize
  nextBlockId := last.lsnVal / palfBlockSize + 1
  nextBlockOffset := size + logGroupEntryHeaderSize
  isNextNeedCut := logCutTrigger ≤ size + logGroupEntryHeaderSize

/-- A log that does not fit into the block goes to the next one, after padding. -/
def place (last : LSNTsMeta) (size : ℕ) : Placement :=
  let g := aggregate last size
  let lastBlockId := last.lsnVal / palfBlockSize
  if g.nextBlockOffset < palfBlockSize then
    if palfBlockSize - g.nextBlockOffset < clogFileTailPaddingTrigger then padded last size
    else ⟨g.isNewGroupLog, false, 0, lastBlockId, g.nextBlockOffset, g.isNextNeedCut⟩
  else if g.nextBlockOffset = palfBlockSize then
    ⟨g.isNewGroupLog, false, 0, lastBlockId + 1, 0, true⟩
  else padded last size

/-! ## The allocation -/

structure AllocArgs where
  baseScn : ℕ
  size : ℕ
  logIdUpperBound : ℤ
  lsnUpperBound : ℕ

def AllocArgs.isValid (x : AllocArgs) : Prop :=
  0 < x.size ∧ scnIsValid x.baseScn ∧ 0 < x.logIdUpperBound ∧ lsnIsValid x.lsnUpperBound
  deriving Decidable

structure Allocated where
  lsn : ℕ
  logId : ℤ
  scn : ℕ
  isNewGroupLog : Bool
  needGenPaddingEntry : Bool
  paddingLen : ℕ
  deriving DecidableEq

namespace LSNAllocator

variable (x : AllocArgs) (a : LSNAllocator)

/-- The base is moved to the last log id, and to the last SCN or the one the caller asks for. -/
def updateBase : LSNAllocator :=
  ⟨{ a.lsnTsMeta with scnDelta := 0, logIdDelta := 0 }, a.maxLogId, max x.baseScn a.lastScn⟩

def nextScn : ℕ := max x.baseScn ((a.lastScn + 1) % 2 ^ 64)

/-- A padding entry may take one more log id and SCN. -/
def needUpdateBase : Prop :=
  logTsDeltaUpperBound ≤ subU64 ((a.nextScn x + 1) % 2 ^ 64) a.scnBase ∨
    logIdDeltaUpperBound ≤ (a.lsnTsMeta.logIdDelta : ℕ) + 2
  deriving Decidable

/-- The differences that are stored, before they are cut to the size of their bit-fields. -/
def nextLogIdDelta (p : Placement) : ℕ := a.lsnTsMeta.logIdDelta + p.logIdInc

@[inherit_doc nextLogIdDelta]
def nextScnDelta (p : Placement) : ℕ := subU64 (a.nextScn x) a.scnBase + p.scnInc

/-- The allocator once a log has been put at `p`. -/
def advance (p : Placement) : LSNAllocator :=
  { a with
    lsnTsMeta :=
      ⟨p.isNextNeedCut, Fin.ofNat _ (a.nextLogIdDelta p), Fin.ofNat _ (a.nextScnDelta x p),
        p.nextLsn⟩ }

def scnVal : ℕ := (a.scnBase + subU64 (a.nextScn x) a.scnBase) % 2 ^ 64

/-- What is handed out: the end of the log, and the log id and the SCN of the first entry. -/
def handOut (p : Placement) : Allocated where
  lsn := a.endLsn
  logId := if p.isNewGroupLog then a.maxLogId + 1 else a.maxLogId
  scn := a.scnVal x
  isNewGroupLog := p.isNewGroupLog
  needGenPaddingEntry := p.needGenPaddingEntry
  paddingLen := p.paddingLen

/-- One pass of the loop, if the base need not be moved. The error of the conversion comes too late
to undo the change. -/
def allocPlaced (p : Placement) : Except ObErr Allocated × LSNAllocator :=
  if x.logIdUpperBound < a.maxLogId + p.logIdInc ∨ x.lsnUpperBound < p.nextLsn then
    (.error .eagain, a)
  else if maxScn < a.scnVal x then (.error .invalidArgument, a.advance x p)
  else (.ok (a.handOut x p), a.advance x p)

/-- The loop of `alloc_lsn_scn`, with the number of passes as fuel. -/
def allocLoop : ℕ → LSNAllocator → Option (Except ObErr Allocated × LSNAllocator)
  | 0, _ => none
  | fuel + 1, a =>
    if a.needUpdateBase x then allocLoop fuel (a.updateBase x)
    else some (a.allocPlaced x (place a.lsnTsMeta x.size))

def allocLsnScn (fuel : ℕ) : Option (Except ObErr Allocated × LSNAllocator) :=
  if x.isValid then allocLoop x fuel a else some (.error .invalidArgument, a)

variable {x a} {a' : LSNAllocator} {res : Except ObErr Allocated} {fuel : ℕ} {p : Placement}

/-! ### What a call can do -/

@[simp] theorem maxLogId_updateBase : (a.updateBase x).maxLogId = a.maxLogId := by
  simp [maxLogId, updateBase]

section

variable {C : LSNAllocator → Prop} (hbase : ∀ b, C b → C (b.updateBase x)) (ha : C a)
include hbase ha

/-- A call moves the base any number of times, then makes one pass. -/
theorem allocLoop_ind (h : allocLoop x fuel a = some (res, a')) :
    ∃ b, C b ∧ ¬ b.needUpdateBase x ∧ b.allocPlaced x (place b.lsnTsMeta x.size) = (res, a') := by
  induction fuel generalizing a with
  | zero => exact absurd h (by simp [allocLoop])
  | succ fuel ih =>
  unfold allocLoop at h
  by_cases hb : a.needUpdateBase x
  · rw [if_pos hb] at h
    exact ih (hbase a ha) h
  · rw [if_neg hb] at h
    exact ⟨a, ha, hb, Option.some.inj h⟩

/-- **What a call does**: nothing, if its arguments are invalid; or it moves the base, then makes
one pass. -/
theorem allocLsnScn_ind (h : a.allocLsnScn x fuel = some (res, a')) :
    ¬ x.isValid ∧ res = .error .invalidArgument ∧ a' = a ∨
    x.isValid ∧ ∃ b, C b ∧ ¬ b.needUpdateBase x ∧
      b.allocPlaced x (place b.lsnTsMeta x.size) = (res, a') := by
  unfold allocLsnScn at h
  by_cases hx : x.isValid
  · rw [if_pos hx] at h
    exact .inr ⟨hx, allocLoop_ind hbase ha h⟩
  rw [if_neg hx] at h
  cases h
  exact .inl ⟨hx, rfl, rfl⟩

end

/-- **What one pass does**: it has to wait, or advances the allocator. It returns an error in spite
of that if the SCN is out of range. -/
theorem allocPlaced_cases (h : a.allocPlaced x p = (res, a')) : res = .error .eagain ∧ a' = a ∨
    res = .error .invalidArgument ∧ a' = a.advance x p ∧ maxScn < a.scnVal x ∨
    res = .ok (a.handOut x p) ∧ a' = a.advance x p ∧ a.scnVal x ≤ maxScn := by
  unfold allocPlaced at h
  split_ifs at h with hub hscn
  · cases h
    exact .inl ⟨rfl, rfl⟩
  · cases h
    exact .inr (.inl ⟨rfl, rfl, hscn⟩)
  · cases h
    exact .inr (.inr ⟨rfl, rfl, not_lt.mp hscn⟩)

/-- Log ids are never cut to 28 bits, as the base is moved before. -/
theorem nextLogIdDelta_lt (h : ¬ a.needUpdateBase x) : a.nextLogIdDelta p < 2 ^ 28 := by
  have hinc : p.logIdInc ≤ 2 := by
    unfold Placement.logIdInc
    split_ifs <;> omega
  have hid := (not_or.mp h).2
  unfold nextLogIdDelta
  unfold logIdDeltaUpperBound at hid
  omega

theorem maxLogId_advance (h : ¬ a.needUpdateBase x) :
    (a.advance x p).maxLogId = a.maxLogId + p.logIdInc := by
  have hlt : a.nextLogIdDelta p < 2 ^ 28 := nextLogIdDelta_lt h
  simp only [maxLogId, advance, Fin.val_ofNat, Nat.mod_eq_of_lt hlt]
  simp only [nextLogIdDelta]
  omega

end LSNAllocator

/-! ## Groups and 2 MB boundaries -/

/-- An open group does not end on a 2 MB boundary. -/
def CutOk (m : LSNTsMeta) : Prop :=
  m.isNeedCut = true ∨ m.lsnVal % palfBlockSize % logCutTrigger ≠ 0

variable {m : LSNTsMeta} {size : ℕ}

/-- **A log begins a group or joins the last one**; the branch for an open group on a 2 MB boundary
is not reached. -/
theorem aggregate_cases (h : CutOk m) :
    aggregate m size = newGroup (m.lsnVal % palfBlockSize) size ∨
    m.isNeedCut = false ∧ m.lsnVal % palfBlockSize % logCutTrigger + size ≤ logCutTrigger ∧
    aggregate m size = ⟨false, m.lsnVal % palfBlockSize + size,
      logCutTrigger ≤ m.lsnVal % palfBlockSize % logCutTrigger + size⟩ := by
  unfold aggregate
  by_cases hcut : m.isNeedCut = true
  · exact .inl (if_pos hcut)
  have hoff := h.resolve_left hcut
  have hpos : 0 < m.lsnVal % palfBlockSize :=
    Nat.pos_of_ne_zero fun hzero => hoff (by rw [hzero, Nat.zero_mod])
  rw [if_neg hcut, if_neg fun h => hoff h.2]
  split_ifs with hjoin
  · exact .inl rfl
  · exact .inr ⟨Bool.eq_false_iff.mpr hcut, not_lt.mp fun h => hjoin ⟨hpos, h⟩, rfl⟩

theorem nextBlockOffset_aggregate (h : CutOk m) :
    (aggregate m size).nextBlockOffset = m.lsnVal % palfBlockSize +
      (size + if (aggregate m size).isNewGroupLog then logGroupEntryHeaderSize else 0) := by
  rcases aggregate_cases h with heq | ⟨-, -, heq⟩
  all_goals
    rw [heq]
    rfl

theorem nextBlockOffset_aggregate_mod (h : CutOk m) (hsize : 0 < size)
    (hopen : (aggregate m size).isNextNeedCut = false) :
    (aggregate m size).nextBlockOffset % logCutTrigger ≠ 0 := by
  -- what is added does not reach the next boundary, and is not zero
  have hadd : ∀ off n, 0 < n → ¬ logCutTrigger ≤ off % logCutTrigger + n →
      (off + n) % logCutTrigger ≠ 0 := by
    unfold logCutTrigger
    omega
  rcases aggregate_cases h with heq | ⟨-, -, heq⟩
  · rw [heq] at hopen ⊢
    exact hadd _ _ (by omega) (of_decide_eq_false hopen)
  · rw [heq] at hopen ⊢
    exact hadd _ _ hsize (of_decide_eq_false hopen)

theorem place_cutOk (h : CutOk m) (hsize : 0 < size) (d : Fin (2 ^ 28)) (e : Fin (2 ^ 35)) :
    CutOk ⟨(place m size).isNextNeedCut, d, e, (place m size).nextLsn⟩ := by
  have hpad : CutOk ⟨(padded m size).isNextNeedCut, d, e, (padded m size).nextLsn⟩ := by
    by_cases hbig : logCutTrigger ≤ size + logGroupEntryHeaderSize
    · exact .inl (decide_eq_true hbig)
    right
    show (padded m size).nextLsn % palfBlockSize % logCutTrigger ≠ 0
    have hlt : size + logGroupEntryHeaderSize < palfBlockSize := by
      unfold logCutTrigger at hbig
      unfold palfBlockSize
      omega
    rw [Placement.nextLsn_mod hlt]
    show (size + logGroupEntryHeaderSize) % logCutTrigger ≠ 0
    rw [Nat.mod_eq_of_lt (not_le.mp hbig)]
    omega
  have hmod := nextBlockOffset_aggregate_mod h hsize
  unfold place
  dsimp only
  split_ifs with hlt htail heq
  · exact hpad
  · by_cases hopen : (aggregate m size).isNextNeedCut = true
    · exact .inl hopen
    right
    have hne := hmod (Bool.eq_false_iff.mpr hopen)
    rw [Placement.nextLsn_mod hlt]
    exact hne
  · exact .inl rfl
  · exact hpad

/-! ## The machine -/

open LSNAllocator

/-- The operations of an initialised allocator. Those that return an error without a change are
left out, except for allocations. -/
inductive AllocatorStep : LSNAllocator → LSNAllocator → Prop
  | alloc {a a' : LSNAllocator} {x fuel res}
      (h : a.allocLsnScn x fuel = some (res, a')) : AllocatorStep a a'
  | tryFreeze {a} : AllocatorStep a a.tryFreeze.2
  | tryFreezeByTime {a} : AllocatorStep a a.tryFreezeByTime.2
  | incUpdateScnBase {a a' : LSNAllocator} {refScn}
      (h : a.incUpdateScnBase refScn = .ok a') : AllocatorStep a a'
  | incUpdateLastLogInfo {a a' : LSNAllocator} {lsn logId scn}
      (h : a.incUpdateLastLogInfo lsn logId scn = .ok a') : AllocatorStep a a'
  | truncate {a a' lsn logId scn}
      (h : LSNAllocator.truncate lsn logId scn = .ok a') : AllocatorStep a a'

def allocator : Machine LSNAllocator where
  init a := ∃ logId scn startLsn, LSNAllocator.init logId scn startLsn = .ok a
  step := AllocatorStep

namespace LSNAllocator

variable {a a' : LSNAllocator}

theorem tryFreeze_keeps {P : LSNAllocator → Prop} (h : P a) (hcut : P a.cut) :
    P a.tryFreeze.2 ∧ P a.tryFreezeByTime.2 := by
  unfold tryFreeze tryFreezeByTime
  refine ⟨?_, ?_⟩ <;> split_ifs
  · exact h
  · exact hcut
  · exact h
  · exact hcut

theorem init_eq_ok {logId scn startLsn} (h : init logId scn startLsn = .ok a) :
    a = ⟨⟨true, 0, 0, startLsn⟩, logId, scn⟩ ∧ scnIsValid scn := by
  unfold init at h
  split_ifs at h with harg
  cases h
  exact ⟨rfl, not_not.mp fun hn => harg (.inr (.inl hn))⟩

theorem truncate_eq_ok {lsn logId scn} (h : truncate lsn logId scn = .ok a) :
    a = ⟨⟨true, 0, 0, lsn⟩, logId, scn⟩ := by
  unfold truncate at h
  split_ifs at h
  cases h
  rfl

theorem incUpdateLastLogInfo_isNeedCut {lsn logId scn}
    (h : a.incUpdateLastLogInfo lsn logId scn = .ok a') :
    a' = a ∨ a'.lsnTsMeta.isNeedCut = true := by
  unfold incUpdateLastLogInfo at h
  split_ifs at h
  all_goals cases h
  · exact .inl rfl
  · exact .inr rfl
  · exact .inr rfl

theorem incUpdateScnBase_isNeedCut {refScn} (h : a.incUpdateScnBase refScn = .ok a') :
    a' = a ∨ a'.lsnTsMeta.isNeedCut = true := by
  unfold incUpdateScnBase at h
  split_ifs at h
  all_goals cases h
  · exact .inl rfl
  · exact .inr rfl

end LSNAllocator

theorem AllocatorStep.cutOk {a a'} (h : AllocatorStep a a')
    (ha : CutOk a.lsnTsMeta) : CutOk a'.lsnTsMeta := by
  cases h with
  | alloc h =>
    rcases allocLsnScn_ind (C := fun b => CutOk b.lsnTsMeta) (fun b hb => hb) ha h with
      ⟨-, -, rfl⟩ | ⟨hx, b, hb, -, hpass⟩
    · exact ha
    rcases allocPlaced_cases hpass with ⟨-, rfl⟩ | ⟨-, rfl, -⟩ | ⟨-, rfl, -⟩
    · exact hb
    · exact place_cutOk hb hx.1 _ _
    · exact place_cutOk hb hx.1 _ _
  | tryFreeze => exact (tryFreeze_keeps (P := fun a => CutOk a.lsnTsMeta) ha (.inl rfl)).1
  | tryFreezeByTime => exact (tryFreeze_keeps (P := fun a => CutOk a.lsnTsMeta) ha (.inl rfl)).2
  | incUpdateScnBase h =>
    rcases incUpdateScnBase_isNeedCut h with rfl | hcut
    · exact ha
    · exact .inl hcut
  | incUpdateLastLogInfo h =>
    rcases incUpdateLastLogInfo_isNeedCut h with rfl | hcut
    · exact ha
    · exact .inl hcut
  | truncate h =>
    rw [truncate_eq_ok h]
    exact .inl rfl

/-- **An open group never ends on a 2 MB boundary.** -/
theorem allocator_cutOk {a} (h : allocator.Reachable a) : CutOk a.lsnTsMeta := by
  refine h.of_keeps (I := fun a => CutOk a.lsnTsMeta) ?_ fun _ _ ha hs => AllocatorStep.cutOk hs ha
  rintro b ⟨logId, scn, startLsn, hb⟩
  rw [(init_eq_ok hb).1]
  exact .inl rfl

end OceanBase.Palf
