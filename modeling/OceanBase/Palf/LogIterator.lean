import OceanBase.Palf.LogGroup

/-!
# The log iterator

`LogIteratorImpl<LogEntry>` walks over the entries of a log. It keeps what it has read in a buffer,
reads on when the buffer does not hold the whole group or entry it stands at, and checks a group as
a whole before it steps over its header. Entries of groups written raw are held back while their SCN
is above the replayable point of the call.

A call of `next` gives up at the end of the file, at the replayable point, or when the storage
fails. In the first two cases it returns a lower bound for the SCNs that are still to come. When the
mode version has changed, the log may have been cut by a flashback, and the buffer is thrown away.

Positions are LSNs here: `curr_read_pos_` is counted from the start of the buffer in the source.
-/

namespace OceanBase.Palf

/-! ## State -/

inductive IterRet
  | success
  | eagain
  | iterEnd
  | bufNotEnough
  | invalidData
  | checksumError
  | needRetry
  | errUnexpected
  | invalidArgument
  | ioError
deriving DecidableEq

inductive IterateEndReason
  | dueToReplayablePointScnLogGroupEntry
  | dueToReplayablePointScnLogEntry
  | dueToFileEndLsnNotReadNewData
  | dueToFileEndLsnReadNewData
  | maxType
deriving DecidableEq

structure IterateEndInfo where
  reason : IterateEndReason
  logScn : ℕ

namespace IterateEndInfo

def reset : IterateEndInfo := ⟨.maxType, invalidScn⟩

def isValid (info : IterateEndInfo) : Prop := info.reason ≠ .maxType ∧ scnIsValid info.logScn

instance (info : IterateEndInfo) : Decidable info.isValid := by
  unfold isValid scnIsValid
  infer_instance

def isIterateEndByReplayablePointScn (info : IterateEndInfo) : Bool :=
  info.reason = .dueToReplayablePointScnLogEntry ∨
    info.reason = .dueToReplayablePointScnLogGroupEntry

end IterateEndInfo

/-- `LogIteratorImpl<LogEntry>` and its `IteratorStorage`. The buffer holds the log from
`curr_read_lsn` up to `endLsn`. -/
structure LogIterator where
  currReadLsn : ℕ
  endLsn : ℕ
  buf : ℕ → Option Cell
  currEntry : Option LogEntry
  currEntrySize : ℕ
  currEntryIsRawWrite : Bool
  initModeVersion : ℤ
  prevEntryScn : ℕ
  accumulateChecksum : ℤ
  currEntryIsPadding : Bool
  paddingEntrySize : ℕ
  paddingEntryScn : ℕ

def palfInitialProposalId : ℤ := 0

/-- `LogIteratorImpl::init` and `reuse`, at a start LSN. -/
def LogIterator.init (startLsn : ℕ) : LogIterator where
  currReadLsn := startLsn
  endLsn := startLsn
  buf := fun _ => none
  currEntry := none
  currEntrySize := 0
  currEntryIsRawWrite := false
  initModeVersion := palfInitialProposalId
  prevEntryScn := invalidScn
  accumulateChecksum := -1
  currEntryIsPadding := false
  paddingEntrySize := 0
  paddingEntryScn := invalidScn

/-- What a call sees: the log on disk and its end, the file end LSN, the mode version, and whether
the storage answers. -/
structure IterEnv where
  disk : ℕ → Option Cell
  tail : ℕ
  fileEnd : ℕ
  modeVersion : ℤ
  ioOk : Bool

structure IterOut where
  ret : IterRet
  it : LogIterator
  info : IterateEndInfo

namespace LogIterator

variable (c : Checksums) (env : IterEnv) (rp : ℕ) (it : LogIterator)

/-! ## Parsing -/

/-- `LogEntryType`, as far as a log has it. -/
inductive LogEntryType
  | groupEntryHeader
  | logEntryHeader

def isPaddingEntryEndLsn (lsn : ℕ) : Bool := lsn % palfBlockSize = 0

/-- `get_log_entry_type_`: the magic number of two bytes. -/
def getLogEntryType : Except IterRet LogEntryType :=
  if it.endLsn < it.currReadLsn + 2 then .error .bufNotEnough
  else match it.buf it.currReadLsn with
    | some (.group _) => .ok .groupEntryHeader
    | some (.entry _) => .ok .logEntryHeader
    | none =>
      if it.currEntryIsPadding && !isPaddingEntryEndLsn it.currReadLsn then .ok .logEntryHeader
      else .error .invalidData

/-- `LogGroupEntryHeader::check_log_checksum_`: the checksum over the entries from `lsn` to `stop`,
if they all parse. -/
def checkLogChecksum (buf : ℕ → Option Cell) (stop : ℕ) : ℕ → ℕ → ℤ → Option ℤ
  | 0, lsn, a => if lsn < stop then none else some a
  | n + 1, lsn, a =>
    if lsn < stop then
      match buf lsn with
      | some (.entry e) =>
        if stop < lsn + e.size then none
        else checkLogChecksum buf stop n (lsn + e.size) (c.crc64 a e.dataChecksum)
      | _ => none
    else some a

section

variable (h : GroupHeader)

/-- `LogGroupEntry::check_integrity` of the group at the current position. -/
def checkIntegrity : Option ℤ :=
  if h.isPadding then some 0
  else
    checkLogChecksum c it.buf (it.currReadLsn + logGroupEntryHeaderSize + h.groupSize) h.groupSize
      (it.currReadLsn + logGroupEntryHeaderSize) 0

def verifyAccumChecksum : Except IterRet ℤ :=
  match it.checkIntegrity c h with
  | none => .error .invalidData
  | some dataChecksum =>
    if it.accumulateChecksum = -1 then .ok h.accumChecksum
    else if c.crc64 it.accumulateChecksum dataChecksum ≠ h.accumChecksum then .error .checksumError
    else .ok (c.crc64 it.accumulateChecksum dataChecksum)

def getLogMinScn : Except IterRet ℕ :=
  if h.isPadding then .ok h.maxScn
  else match it.buf (it.currReadLsn + logGroupEntryHeaderSize) with
    | some (.entry e) => .ok e.scn
    | _ => .error .invalidData

/-- `set_padding_info_` and the other fields a group sets. -/
def enterGroup (accum : ℤ) : LogIterator :=
  { it with
    currEntryIsRawWrite := h.isRawWrite
    accumulateChecksum := accum
    currEntryIsPadding := h.isPadding
    paddingEntrySize := h.groupSize
    paddingEntryScn := h.maxScn }

/-- `handle_each_log_group_entry_` for an iterator over log entries. -/
def handleEachLogGroupEntry : IterOut :=
  match it.verifyAccumChecksum c h with
  | .error r => ⟨r, it, .reset⟩
  | .ok accum =>
    if h.isRawWrite then
      match it.getLogMinScn h with
      | .error r => ⟨r, it, .reset⟩
      | .ok minScn =>
        if rp < minScn then ⟨.iterEnd, it, ⟨.dueToReplayablePointScnLogGroupEntry, minScn⟩⟩
        else ⟨.success, it.enterGroup h accum, .reset⟩
    else ⟨.success, it.enterGroup h accum, .reset⟩

end

/-- `parse_log_group_entry_`: the whole group has to be in the buffer. -/
def parseLogGroupEntry : IterOut :=
  if it.endLsn < it.currReadLsn + logGroupEntryHeaderSize then ⟨.bufNotEnough, it, .reset⟩
  else match it.buf it.currReadLsn with
    | some (.group h) =>
      if it.endLsn < it.currReadLsn + logGroupEntryHeaderSize + h.groupSize then
        ⟨.bufNotEnough, it, .reset⟩
      else
        let out := it.handleEachLogGroupEntry c rp h
        match out.ret with
        | .success =>
          { out with
            ret := .eagain
            it := { out.it with currReadLsn := out.it.currReadLsn + logGroupEntryHeaderSize } }
        | _ => out
    | _ => ⟨.invalidData, it, .reset⟩

/-- `construct_padding_log_entry_`: the entry of a padding group is written into the buffer. -/
def constructPaddingLogEntry : Except IterRet LogIterator :=
  if !it.currEntryIsPadding then .error .errUnexpected
  else if !isPaddingEntryEndLsn (it.currReadLsn + it.paddingEntrySize) then .error .errUnexpected
  else if it.endLsn < it.currReadLsn + it.paddingEntrySize then .error .errUnexpected
  else if it.paddingEntrySize < logEntryHeaderSerSize + paddingLogEntrySize ∨
      ¬ scnIsValid it.paddingEntryScn then .error .invalidArgument
  else .ok
    { it with
      buf := Function.update it.buf it.currReadLsn (some (.entry
        ⟨it.paddingEntryScn, it.paddingEntrySize - logEntryHeaderSerSize, c.paddingData⟩))
      currEntryIsPadding := false
      paddingEntrySize := 0
      paddingEntryScn := invalidScn }

/-- The part of `parse_log_entry_` behind the padding. -/
def parseEntryAt : IterOut :=
  if it.endLsn < it.currReadLsn + logEntryHeaderSerSize then ⟨.bufNotEnough, it, .reset⟩
  else match it.buf it.currReadLsn with
    | some (.entry e) =>
      if it.endLsn < it.currReadLsn + e.size then ⟨.bufNotEnough, it, .reset⟩
      else if it.currEntryIsRawWrite && decide (rp < e.scn) then
        ⟨.iterEnd, { it with currEntry := some e }, ⟨.dueToReplayablePointScnLogEntry, e.scn⟩⟩
      else ⟨.success, { it with currEntry := some e }, .reset⟩
    | _ => ⟨.invalidData, it, .reset⟩

def parseLogEntry : IterOut :=
  if it.currEntryIsPadding then
    match it.constructPaddingLogEntry c with
    | .error r => ⟨r, it, .reset⟩
    | .ok it' => it'.parseEntryAt rp
  else it.parseEntryAt rp

/-- `parse_one_entry_`: group headers are stepped over. The loop ends, as every round takes a
header from the buffer. -/
def parseOneEntry : ℕ → LogIterator → IterOut
  | 0, it => ⟨.eagain, it, .reset⟩
  | n + 1, it =>
    match it.getLogEntryType with
    | .error r => ⟨r, it, .reset⟩
    | .ok .logEntryHeader => it.parseLogEntry c rp
    | .ok .groupEntryHeader =>
      let out := it.parseLogGroupEntry c rp
      match out.ret with
      | .eagain => parseOneEntry n out.it
      | _ => out

/-! ## Reading -/

def logDioAlignSize : ℕ := 4096

/-- The end of the block that holds an LSN. -/
def blockEnd (lsn : ℕ) : ℕ := (lsn / palfBlockSize + 1) * palfBlockSize

/-- `read_data_from_storage_` with `IteratorStorage::pread`. The sectors of the buffer that are
still needed are kept, and the storage is read behind them, up to the end of the block. -/
def readDataFromStorage : IterRet × LogIterator :=
  let inReadSize := min maxLogBufferSize (env.fileEnd - it.currReadLsn)
  let remain := (it.endLsn - it.currReadLsn) / logDioAlignSize * logDioAlignSize
  let lsn := it.currReadLsn + remain
  if env.fileEnd < it.currReadLsn then (.invalidArgument, it)
  else if it.endLsn < it.currReadLsn then (.errUnexpected, it)
  else if inReadSize = 0 then (.iterEnd, it)
  else if inReadSize = remain then (.errUnexpected, it)
  else if inReadSize < remain then (.invalidArgument, it)
  else if !env.ioOk then (.ioError, it)
  else if env.tail ≤ lsn then (.iterEnd, it)
  else (.success, { it with
      buf := fun p => if p < lsn then it.buf p else env.disk p
      endLsn := min (it.currReadLsn + inReadSize) (min (blockEnd lsn) env.tail) })

def maxReadTimesInEachNext : ℕ := 2

/-- The loop of `get_next_entry_`, with the reads that are left. -/
def readEntry : ℕ → LogIterator → IterOut
  | n, it =>
    let out := parseOneEntry c rp (it.endLsn - it.currReadLsn + 1) it
    match out.ret with
    | .success =>
      { out with
        it := { out.it with currEntrySize := (out.it.currEntry.map LogEntry.size).getD 0 } }
    | .bufNotEnough =>
      match out.it.readDataFromStorage env, n with
      | (.success, it'), 0 => ⟨.needRetry, it', .reset⟩
      | (.success, it'), n + 1 => readEntry n it'
      | (.iterEnd, it'), _ => ⟨.iterEnd, it', ⟨.dueToFileEndLsnNotReadNewData, invalidScn⟩⟩
      | (r, it'), _ => ⟨r, it', .reset⟩
    | _ => out

def getNextEntry : IterOut :=
  if env.fileEnd < it.currReadLsn + 1 then
    ⟨.iterEnd, it, ⟨.dueToFileEndLsnNotReadNewData, invalidScn⟩⟩
  else
    let out := readEntry c env rp maxReadTimesInEachNext it
    if out.ret = .success ∧ env.fileEnd < out.it.currReadLsn + out.it.currEntrySize then
      { out with
        ret := .iterEnd
        info := ⟨.dueToFileEndLsnReadNewData,
          (out.it.currEntry.map LogEntry.scn).getD invalidScn⟩ }
    else out

/-! ## The call -/

def tryCleanUpCache : LogIterator :=
  if env.modeVersion = invalidProposalId ∨ env.modeVersion < it.initModeVersion then it
  else if it.initModeVersion < env.modeVersion then
    { it with
      endLsn := it.currReadLsn
      currEntry := none
      currEntrySize := 0
      initModeVersion := env.modeVersion
      accumulateChecksum := -1
      currEntryIsPadding := false
      paddingEntrySize := 0
      paddingEntryScn := invalidScn }
  else it

/-- The beginning of `next`: the entry returned last is stepped over, and the cache is cleaned. -/
def prepare : LogIterator :=
  tryCleanUpCache env { it with
    currReadLsn := it.currReadLsn + it.currEntrySize, currEntrySize := 0 }

/-- `next_min_scn` and `prev_entry_scn_` when a call ends with `OB_ITER_END`. -/
def nextMinScn (prevEntryScn : ℕ) (info : IterateEndInfo) : ℕ × ℕ :=
  if ¬ info.isValid ∧ ¬ scnIsValid prevEntryScn then (invalidScn, prevEntryScn)
  else if info.isIterateEndByReplayablePointScn ∨ info.reason = .dueToFileEndLsnReadNewData then
    (scnMax (if scnIsValid prevEntryScn then scnPlus prevEntryScn 1 else minScn)
        (scnMin (scnPlus rp 1) info.logScn),
      if scnLt rp info.logScn then scnMax rp prevEntryScn else prevEntryScn)
  else if info.reason = .dueToFileEndLsnNotReadNewData then
    (if scnIsValid prevEntryScn then scnPlus prevEntryScn 1 else minScn, prevEntryScn)
  else (invalidScn, prevEntryScn)

structure NextOut where
  ret : IterRet
  it : LogIterator
  nextMinScn : ℕ
  iterateEndByReplayablePoint : Bool

def next : NextOut :=
  let it := it.prepare env
  if ¬ scnIsValid rp then ⟨.invalidArgument, it, invalidScn, false⟩
  else
    let out := it.getNextEntry c env rp
    match out.ret with
    | .success =>
      ⟨.success,
        { out.it with prevEntryScn := (out.it.currEntry.map LogEntry.scn).getD invalidScn },
        invalidScn, false⟩
    | .iterEnd =>
      let (nextMin, prev) := nextMinScn rp out.it.prevEntryScn out.info
      ⟨.iterEnd, { out.it with prevEntryScn := prev, currEntrySize := 0 }, nextMin,
        out.info.isIterateEndByReplayablePointScn⟩
    | r =>
      -- invalid data is read again by the next call
      if r = .invalidData ∨ r = .checksumError then
        ⟨r, { out.it with endLsn := out.it.currReadLsn, currEntrySize := 0 }, invalidScn,
          out.info.isIterateEndByReplayablePointScn⟩
      else
        ⟨r, { out.it with currEntrySize := 0 }, invalidScn,
          out.info.isIterateEndByReplayablePointScn⟩

end LogIterator

end OceanBase.Palf
