import OceanBase.Palf.LogIterator

/-!
# The iterator over a well formed log

What one call of the iterator does on a log as PALF writes it. The functions that parse and read are
characterised one by one; a call then has one of four outcomes, and behind each the iterator stands
at a cursor of the log again.

## Main results

* `LogIterator.Ready.getNextEntry`: the outcomes of `get_next_entry_`
-/

namespace OceanBase.Palf

open List LogGroup

namespace LogIterator

variable {c : Checksums} {env : IterEnv} {rp : ℕ} {it it' : LogIterator} {disk : ℕ → Option Cell}
  {e : LogEntry} {es : List LogEntry} {g : LogGroup} {accum : ℤ} {n : ℕ}

/-! ## Parsing -/

/-- The buffer agrees with the disk. -/
def Buffers (disk : ℕ → Option Cell) (it : LogIterator) : Prop :=
  ∀ p, it.currReadLsn ≤ p → p < it.endLsn → it.buf p = disk p

/-- **The checksum of a group.** Entries that lie one behind the other up to `stop` are all read. -/
theorem checkLogChecksum_eq {buf : ℕ → Option Cell} {stop lsn a}
    (hn : entriesSize es ≤ n) (hstop : stop = lsn + entriesSize es)
    (hbuf : ∀ p, lsn ≤ p → p < stop → buf p = entryCell lsn es p) :
    checkLogChecksum c buf stop n lsn a =
      some (es.foldl (fun a e => c.crc64 a e.dataChecksum) a) := by
  induction es generalizing lsn n a with
  | nil =>
    rw [entriesSize_nil] at hstop
    cases n <;> simp [checkLogChecksum, hstop]
  | cons e es ih =>
  rw [entriesSize_cons] at hn hstop
  have hpos := e.size_pos
  obtain ⟨n, rfl⟩ : ∃ m, n = m + 1 := ⟨n - 1, by omega⟩
  have hcell : buf lsn = some (.entry e) := by
    rw [hbuf lsn le_rfl (by omega), entryCell, if_pos rfl]
  rw [checkLogChecksum, if_pos (by omega), hcell]
  simp only
  rw [if_neg (by omega), foldl_cons]
  refine ih (by omega) (by omega) fun p hp hp' => ?_
  rw [hbuf p (by omega) hp', entryCell, if_neg (by omega)]

/-- **An entry is parsed** once it is in the buffer as a whole, unless it is held back. -/
theorem parseEntryAt_eq (hbuf : it.Buffers disk) (hcell : disk it.currReadLsn = some (.entry e)) :
    it.parseEntryAt rp = if it.endLsn < it.currReadLsn + e.size then ⟨.bufNotEnough, it, .reset⟩
      else if it.currEntryIsRawWrite = true ∧ rp < e.scn then
        ⟨.iterEnd, { it with currEntry := some e }, ⟨.dueToReplayablePointScnLogEntry, e.scn⟩⟩
      else ⟨.success, { it with currEntry := some e }, .reset⟩ := by
  have hsize : logEntryHeaderSerSize ≤ e.size := Nat.le_add_right _ _
  rw [parseEntryAt]
  by_cases hhead : it.endLsn < it.currReadLsn + logEntryHeaderSerSize
  · rw [if_pos hhead, if_pos (by omega)]
  have hb : it.buf it.currReadLsn = some (.entry e) := by
    rw [hbuf _ le_rfl (by unfold logEntryHeaderSerSize at hhead; omega), hcell]
  rw [if_neg hhead, hb]
  simp only [Bool.and_eq_true, decide_eq_true_eq]

theorem parseOneEntry_entry (hpad : it.currEntryIsPadding = false) (hbuf : it.Buffers disk)
    (hcell : disk it.currReadLsn = some (.entry e)) :
    parseOneEntry c rp (n + 1) it = it.parseEntryAt rp := by
  have hsize : logEntryHeaderSerSize ≤ e.size := Nat.le_add_right _ _
  unfold logEntryHeaderSerSize at hsize
  rw [parseOneEntry, getLogEntryType]
  by_cases hmagic : it.endLsn < it.currReadLsn + 2
  · rw [if_pos hmagic, parseEntryAt_eq hbuf hcell, if_pos (by omega)]
  rw [if_neg hmagic, hbuf _ le_rfl (by omega), hcell]
  simp only
  rw [parseLogEntry, if_neg (by simp [hpad])]

/-! ### Groups -/

/-- A group stands at the current position, as it is laid out on disk. -/
structure GroupAt (c : Checksums) (disk : ℕ → Option Cell) (accum : ℤ) (g : LogGroup)
    (it : LogIterator) : Prop where
  wf : g.Wf c it.currReadLsn
  header : disk it.currReadLsn = some (.group (g.header c accum))
  entries : ∀ p, it.currReadLsn + logGroupEntryHeaderSize ≤ p → p < it.currReadLsn + g.size →
    disk p = entryCell (it.currReadLsn + logGroupEntryHeaderSize) g.entries p

section

variable (h : it.GroupAt c disk accum g)
include h

theorem GroupAt.first (he : g.entries = e :: es) :
    disk (it.currReadLsn + logGroupEntryHeaderSize) = some (.entry e) := by
  have hsize := g.size_of_cons he
  have hpos := e.size_pos
  rw [h.entries _ le_rfl (by omega), he, entryCell, if_pos rfl]

theorem parseOneEntry_group_short (hbuf : it.Buffers disk)
    (hshort : it.endLsn < it.currReadLsn + g.size) :
    parseOneEntry c rp (n + 1) it = ⟨.bufNotEnough, it, .reset⟩ := by
  have hhead := g.headerSize_le
  unfold logGroupEntryHeaderSize at hhead
  rw [parseOneEntry, getLogEntryType]
  by_cases hmagic : it.endLsn < it.currReadLsn + 2
  · rw [if_pos hmagic]
  have hb : it.buf it.currReadLsn = some (.group (g.header c accum)) := by
    rw [hbuf _ le_rfl (by omega), h.header]
  rw [if_neg hmagic, hb]
  simp only
  rw [parseLogGroupEntry, hb]
  by_cases hlen : it.endLsn < it.currReadLsn + logGroupEntryHeaderSize
  · rw [if_pos hlen]
  have hdata : it.endLsn <
      it.currReadLsn + logGroupEntryHeaderSize + (g.header c accum).groupSize := by
    rw [Nat.add_assoc]
    exact hshort
  rw [if_neg hlen]
  simp only
  rw [if_pos hdata]

theorem verifyAccumChecksum_eq (hbuf : it.Buffers disk)
    (hlong : it.currReadLsn + g.size ≤ it.endLsn)
    (hacc : it.accumulateChecksum = -1 ∨ it.accumulateChecksum = accum) :
    it.verifyAccumChecksum c (g.header c accum) = .ok (c.crc64 accum (g.dataChecksum c)) := by
  have hcheck : it.checkIntegrity c (g.header c accum) = some (g.dataChecksum c) := by
    rw [checkIntegrity, dataChecksum]
    by_cases hp : g.isPadding = true
    · rw [if_pos (show (g.header c accum).isPadding = true from hp), if_pos hp]
    rw [if_neg (show ¬ (g.header c accum).isPadding = true from hp), if_neg hp]
    refine checkLogChecksum_eq le_rfl rfl fun p hp hp' => ?_
    have hend : p < it.currReadLsn + g.size := by
      rw [size, ← Nat.add_assoc]
      exact hp'
    rw [hbuf p (by omega) (by omega), h.entries p hp hend]
  rw [verifyAccumChecksum, hcheck]
  simp only
  by_cases hnone : it.accumulateChecksum = -1
  · rw [if_pos hnone]
    rfl
  · rw [if_neg hnone, hacc.resolve_left hnone]
    exact if_neg (not_not.mpr rfl)

theorem getLogMinScn_eq (hbuf : it.Buffers disk)
    (hlong : it.currReadLsn + g.size ≤ it.endLsn) (he : g.entries = e :: es) :
    it.getLogMinScn (g.header c accum) = .ok e.scn := by
  rw [getLogMinScn]
  by_cases hp : g.isPadding = true
  · obtain ⟨-, e', he', -⟩ := h.wf.padding hp
    obtain ⟨rfl, -⟩ := cons_eq_cons.mp (he.symm.trans he')
    rw [if_pos (show (g.header c accum).isPadding = true from hp)]
    simp [LogGroup.header, LogGroup.maxScn, he']
  · have hsize := g.size_of_cons he
    have hpos := e.size_pos
    rw [if_neg (show ¬ (g.header c accum).isPadding = true from hp),
      hbuf _ (by omega) (by omega), h.first he]

end

/-- What stepping over the header of a group and parsing its first entry leaves. -/
structure Entered (c : Checksums) (accum : ℤ) (g : LogGroup) (e : LogEntry)
    (it it' : LogIterator) : Prop where
  currReadLsn : it'.currReadLsn = it.currReadLsn + logGroupEntryHeaderSize
  endLsn : it'.endLsn = it.endLsn
  buf : it'.buf = it.buf
  currEntry : it'.currEntry = some e
  isRawWrite : it'.currEntryIsRawWrite = g.isRawWrite
  accum : it'.accumulateChecksum = c.crc64 accum (g.dataChecksum c)
  padding : it'.currEntryIsPadding = false
  prev : it'.prevEntryScn = it.prevEntryScn
  mode : it'.initModeVersion = it.initModeVersion

section

variable (h : it.GroupAt c disk accum g) (hbuf : it.Buffers disk)
  (hlong : it.currReadLsn + g.size ≤ it.endLsn)
include h hbuf hlong

/-- **A group in the buffer**: its header is stepped over, unless its first entry is held back. -/
theorem parseLogGroupEntry_eq (he : g.entries = e :: es)
    (hacc : it.accumulateChecksum = -1 ∨ it.accumulateChecksum = accum) :
    it.parseLogGroupEntry c rp = if g.isRawWrite = true ∧ rp < e.scn then
        ⟨.iterEnd, it, ⟨.dueToReplayablePointScnLogGroupEntry, e.scn⟩⟩ else
        let it' := it.enterGroup (g.header c accum) (c.crc64 accum (g.dataChecksum c))
        ⟨.eagain, { it' with currReadLsn := it.currReadLsn + logGroupEntryHeaderSize },
          .reset⟩ := by
  have hhead := g.headerSize_le
  have hb : it.buf it.currReadLsn = some (.group (g.header c accum)) := by
    rw [hbuf _ le_rfl (by unfold logGroupEntryHeaderSize at hhead; omega), h.header]
  have hdata : ¬ it.endLsn <
      it.currReadLsn + logGroupEntryHeaderSize + (g.header c accum).groupSize := by
    rw [Nat.add_assoc]
    exact not_lt.mpr hlong
  rw [parseLogGroupEntry, if_neg (by omega), hb]
  simp only
  rw [if_neg hdata, handleEachLogGroupEntry, verifyAccumChecksum_eq h hbuf hlong hacc,
    getLogMinScn_eq h hbuf hlong he]
  simp only
  by_cases hraw : g.isRawWrite = true
  · rw [if_pos (show (g.header c accum).isRawWrite = true from hraw)]
    by_cases hscn : rp < e.scn
    · rw [if_pos hscn, if_pos ⟨hraw, hscn⟩]
    rw [if_neg hscn, if_neg (fun hc => hscn hc.2)]
    rfl
  · rw [if_neg (show ¬ (g.header c accum).isRawWrite = true from hraw),
      if_neg (fun hc => hraw hc.1)]
    rfl

theorem getLogEntryType_group : it.getLogEntryType = .ok .groupEntryHeader := by
  have hhead := g.headerSize_le
  unfold logGroupEntryHeaderSize at hhead
  rw [getLogEntryType, if_neg (by omega), hbuf _ le_rfl (by omega), h.header]

theorem parseOneEntry_group_held (he : g.entries = e :: es)
    (hacc : it.accumulateChecksum = -1 ∨ it.accumulateChecksum = accum)
    (hheld : g.isRawWrite = true ∧ rp < e.scn) : parseOneEntry c rp (n + 1) it =
      ⟨.iterEnd, it, ⟨.dueToReplayablePointScnLogGroupEntry, e.scn⟩⟩ := by
  rw [parseOneEntry, getLogEntryType_group h hbuf hlong]
  simp only
  rw [parseLogGroupEntry_eq h hbuf hlong he hacc, if_pos hheld]

end

theorem constructPaddingLogEntry_eq (hpad : it.currEntryIsPadding = true)
    (hend : (it.currReadLsn + it.paddingEntrySize) % palfBlockSize = 0)
    (hlong : it.currReadLsn + it.paddingEntrySize ≤ it.endLsn)
    (hsize : logEntryHeaderSerSize + paddingLogEntrySize ≤ it.paddingEntrySize)
    (hscn : scnIsValid it.paddingEntryScn) (hb : it.buf it.currReadLsn = some (.entry
      ⟨it.paddingEntryScn, it.paddingEntrySize - logEntryHeaderSerSize, c.paddingData⟩)) :
    it.constructPaddingLogEntry c = .ok
      { it with
        currEntryIsPadding := false, paddingEntrySize := 0, paddingEntryScn := invalidScn } := by
  have hfail : ¬ (it.paddingEntrySize < logEntryHeaderSerSize + paddingLogEntrySize ∨
      ¬ scnIsValid it.paddingEntryScn) := not_or.mpr ⟨not_lt.mpr hsize, not_not.mpr hscn⟩
  rw [constructPaddingLogEntry, if_neg (by simp [hpad]),
    if_neg (by simp [isPaddingEntryEndLsn, hend]), if_neg (by omega), if_neg hfail, ← hb,
    Function.update_eq_self]

theorem parseOneEntry_first (hb : it.buf it.currReadLsn = some (.entry e))
    (hlong : it.currReadLsn + e.size ≤ it.endLsn)
    (hheld : ¬ (it.currEntryIsRawWrite = true ∧ rp < e.scn))
    (hpad : it.currEntryIsPadding = true → it.constructPaddingLogEntry c = .ok
      { it with
        currEntryIsPadding := false, paddingEntrySize := 0, paddingEntryScn := invalidScn }) :
    ∃ size scn, parseOneEntry c rp (n + 1) it = ⟨.success, { it with
        currEntry := some e
        currEntryIsPadding := false
        paddingEntrySize := size
        paddingEntryScn := scn }, .reset⟩ := by
  by_cases hp : it.currEntryIsPadding = true
  · refine ⟨0, invalidScn, ?_⟩
    have hsize : logEntryHeaderSerSize ≤ e.size := Nat.le_add_right _ _
    unfold logEntryHeaderSerSize at hsize
    rw [parseOneEntry, getLogEntryType, if_neg (by omega), hb]
    simp only
    rw [parseLogEntry, if_pos hp, hpad hp]
    simp only
    refine (parseEntryAt_eq (e := e) (fun _ _ _ => rfl) ?_).trans ?_
    · exact hb
    · rw [if_neg (not_lt.mpr hlong), if_neg hheld]
  · refine ⟨it.paddingEntrySize, it.paddingEntryScn, ?_⟩
    have hp' : it.currEntryIsPadding = false := Bool.eq_false_iff.mpr hp
    rw [parseOneEntry_entry hp' (fun _ _ _ => rfl) hb, parseEntryAt_eq (fun _ _ _ => rfl) hb,
      if_neg (not_lt.mpr hlong), if_neg hheld, ← hp']

/-- **Entering a group**: its first entry is found in the same call that steps over its header. -/
theorem parseOneEntry_group_entered (h : it.GroupAt c disk accum g) (hbuf : it.Buffers disk)
    (hlong : it.currReadLsn + g.size ≤ it.endLsn) (he : g.entries = e :: es)
    (hacc : it.accumulateChecksum = -1 ∨ it.accumulateChecksum = accum)
    (hheld : ¬ (g.isRawWrite = true ∧ rp < e.scn)) :
    ∃ it', parseOneEntry c rp (n + 2) it = ⟨.success, it', .reset⟩ ∧
      it.Entered c accum g e it' := by
  have hsize := g.size_of_cons he
  have hpos := e.size_pos
  have hb : it.buf (it.currReadLsn + logGroupEntryHeaderSize) = some (.entry e) := by
    rw [hbuf _ (by omega) (by omega), h.first he]
  rw [parseOneEntry, getLogEntryType_group h hbuf hlong]
  simp only
  rw [parseLogGroupEntry_eq h hbuf hlong he hacc, if_neg hheld]
  simp only
  -- a padding group has this entry only, so that the entry built for it is the one on disk
  have hpad : g.isPadding = true →
      (it.currReadLsn + logGroupEntryHeaderSize + g.dataLen) % palfBlockSize = 0 ∧
      logEntryHeaderSerSize + paddingLogEntrySize ≤ g.dataLen ∧ scnIsValid g.maxScn ∧
      e = ⟨g.maxScn, g.dataLen - logEntryHeaderSerSize, c.paddingData⟩ := by
    intro hp
    obtain ⟨hend, e', he', hdata, hsum⟩ := h.wf.padding hp
    obtain ⟨rfl, -⟩ := cons_eq_cons.mp (he.symm.trans he')
    have hscn : g.maxScn = e.scn := by simp [LogGroup.maxScn, he']
    have hlen : g.dataLen = logEntryHeaderSerSize + e.dataLen := by
      simp [LogGroup.dataLen, he', LogEntry.size]
    refine ⟨by rw [Nat.add_assoc]; exact hend, by omega, ?_, ?_⟩
    · rw [hscn]
      exact (h.wf.valid e (by simp [he'])).1
    · rw [hscn, hlen, Nat.add_sub_cancel_left, ← hsum]
  obtain ⟨it₁, hit₁⟩ : ∃ it₁, it₁ =
      { it.enterGroup (g.header c accum) (c.crc64 accum (g.dataChecksum c)) with
        currReadLsn := it.currReadLsn + logGroupEntryHeaderSize } := ⟨_, rfl⟩
  rw [← hit₁]
  have hb₁ : it₁.buf it₁.currReadLsn = some (.entry e) := hit₁ ▸ hb
  have hlong₁ : it₁.currReadLsn + e.size ≤ it₁.endLsn := by
    rw [hit₁]
    simp only [enterGroup]
    omega
  obtain ⟨size, scn, hparse⟩ := parseOneEntry_first (c := c) (n := n) hb₁ hlong₁
    (by rw [hit₁]; exact hheld) fun hp => by
      subst hit₁
      obtain ⟨hend, hdata, hscn, hent⟩ := hpad hp
      refine constructPaddingLogEntry_eq hp hend ?_ hdata hscn ?_
      · exact le_trans (by rw [Nat.add_assoc]; exact le_rfl) hlong
      · rw [hb₁, hent]
        rfl
  refine ⟨_, hparse, ?_⟩
  rw [hit₁]
  exact ⟨rfl, rfl, rfl, rfl, rfl, rfl, rfl, rfl, rfl⟩

/-! ## Reading -/

theorem blockEnd_eq {lsn lsn'} (h : lsn ≤ lsn') (h' : lsn' < blockEnd lsn) :
    blockEnd lsn' = blockEnd lsn := by
  have hdiv : lsn' / palfBlockSize = lsn / palfBlockSize :=
    Nat.div_eq_of_lt_le (le_trans (Nat.div_mul_le_self _ _) h) h'
  rw [blockEnd, blockEnd, hdiv]

/-- What reading leaves: the buffer holds the log up to `need`. -/
structure Filled (disk : ℕ → Option Cell) (tail need : ℕ) (it it' : LogIterator) : Prop where
  eq : ∃ buf lsn, it' = { it with buf := buf, endLsn := lsn }
  buffers : it'.Buffers disk
  need_le : need ≤ it'.endLsn
  end_le : it'.endLsn ≤ max it.endLsn tail

variable {need : ℕ}

/-- **One read suffices.** What is missing lies within the read size, the block and the file. -/
theorem readDataFromStorage_cases (hbuf : it.Buffers env.disk) (hle : it.currReadLsn ≤ it.endLsn)
    (hshort : it.endLsn < need) (hsize : need ≤ it.currReadLsn + maxLogBufferSize)
    (hblock : need ≤ blockEnd it.currReadLsn) (hfile : need ≤ env.fileEnd)
    (htail : env.fileEnd ≤ env.tail) :
    (env.ioOk = false ∧ it.readDataFromStorage env = (.ioError, it)) ∨
      ∃ it', it.readDataFromStorage env = (.success, it') ∧
        it.Filled env.disk env.tail need it' := by
  have hremain : (it.endLsn - it.currReadLsn) / logDioAlignSize * logDioAlignSize ≤
      it.endLsn - it.currReadLsn := Nat.div_mul_le_self _ _
  generalize hr : (it.endLsn - it.currReadLsn) / logDioAlignSize * logDioAlignSize = r at hremain
  have hsame : blockEnd (it.currReadLsn + r) = blockEnd it.currReadLsn :=
    blockEnd_eq (by omega) (by omega)
  have hin : need - it.currReadLsn ≤ min maxLogBufferSize (env.fileEnd - it.currReadLsn) := by omega
  rw [readDataFromStorage]
  simp only [hr]
  rw [if_neg (by omega), if_neg (by omega), if_neg (by omega), if_neg (by omega), if_neg (by omega)]
  cases hio : env.ioOk with
  | false => exact .inl ⟨rfl, by simp⟩
  | true =>
  refine .inr ⟨_, by rw [if_neg (by simp), if_neg (by omega)], ⟨⟨_, _, rfl⟩, ?_, ?_, ?_⟩⟩
  · intro p hp hp'
    simp only
    by_cases hold : p < it.currReadLsn + r
    · rw [if_pos hold]
      exact hbuf p hp (by omega)
    · rw [if_neg hold]
  · simp only [hsame]
    exact le_min (Nat.sub_le_iff_le_add'.mp hin) (le_min hblock (hfile.trans htail))
  · exact le_max_of_le_right (min_le_right _ _ |>.trans (min_le_right _ _))

theorem readEntry_fill (hbuf : it.Buffers env.disk) (hle : it.currReadLsn ≤ it.endLsn)
    (hshort : it.endLsn < need → ∀ m, parseOneEntry c rp (m + 1) it = ⟨.bufNotEnough, it, .reset⟩)
    (hsize : need ≤ it.currReadLsn + maxLogBufferSize) (hblock : need ≤ blockEnd it.currReadLsn)
    (hfile : need ≤ env.fileEnd) (htail : env.fileEnd ≤ env.tail) :
    (env.ioOk = false ∧ readEntry c env rp (n + 1) it = ⟨.ioError, it, .reset⟩) ∨
      ∃ m it', readEntry c env rp (n + 1) it = readEntry c env rp m it' ∧
        it.Filled env.disk env.tail need it' := by
  by_cases hend : it.endLsn < need
  · rcases readDataFromStorage_cases hbuf hle hend hsize hblock hfile htail with
      ⟨hio, hread⟩ | ⟨it', hread, hfill⟩
    · refine .inl ⟨hio, ?_⟩
      rw [readEntry.eq_def]
      simp only [hshort hend, hread]
    · refine .inr ⟨n, it', ?_, hfill⟩
      rw [readEntry.eq_def]
      simp only [hshort hend, hread]
  · exact .inr ⟨n + 1, it, rfl, ⟨⟨_, _, rfl⟩, hbuf, not_lt.mp hend, le_max_left _ _⟩⟩

theorem readEntry_success {info}
    (hparse : parseOneEntry c rp (it.endLsn - it.currReadLsn + 1) it = ⟨.success, it', info⟩)
    (hentry : it'.currEntry = some e) :
    readEntry c env rp n it = ⟨.success, { it' with currEntrySize := e.size }, info⟩ := by
  rw [readEntry.eq_def]
  simp only [hparse, hentry, Option.map_some, Option.getD_some]

theorem readEntry_iterEnd {info}
    (hparse : parseOneEntry c rp (it.endLsn - it.currReadLsn + 1) it = ⟨.iterEnd, it', info⟩) :
    readEntry c env rp n it = ⟨.iterEnd, it', info⟩ := by
  rw [readEntry.eq_def]
  simp only [hparse]

end LogIterator

/-! ## Cursors -/

/-- A position between two entries: before a group, or before an entry inside one. The iterator has
to know there whether the group is written raw, and the checksum up to the last header it has
stepped over, if it knows one at all. -/
inductive Cursor (c : Checksums) (l : PalfLog) : ℕ → Bool → ℤ → List PlacedEntry → Prop
  | boundary {done todo raw accum}
      (h : l.groups = done ++ todo) (haccum : accum = -1 ∨ accum = accumOf c l.accum done) :
      Cursor c l (l.base + groupsSize done) raw accum (placeGroups (l.base + groupsSize done) todo)
  | inside {done todo g es es' e accum} (h : l.groups = done ++ g :: todo) (he : g.entries =
      es ++ e :: es') (haccum : accum = -1 ∨ accum = accumOf c l.accum (done ++ [g])) :
      Cursor c l (l.base + groupsSize done + logGroupEntryHeaderSize + entriesSize es) g.isRawWrite
        accum (placeEntries g.isRawWrite
          (l.base + groupsSize done + logGroupEntryHeaderSize + entriesSize es) (e :: es') ++
            placeGroups (l.base + groupsSize done + g.size) todo)

section Cursor

variable {c : Checksums} {l : PalfLog} {done todo : List LogGroup} {g : LogGroup} {lsn : ℕ}
  {es es' : List LogEntry} {accum : ℤ} {rest : List PlacedEntry}

variable {raw : Bool}

theorem Cursor.cases (h : Cursor c l lsn raw accum rest) :
    (∃ done todo, l.groups = done ++ todo ∧ lsn = l.base + groupsSize done ∧
      rest = placeGroups (l.base + groupsSize done) todo ∧
      (accum = -1 ∨ accum = accumOf c l.accum done)) ∨
    ∃ done todo g es e es', l.groups = done ++ g :: todo ∧ g.entries = es ++ e :: es' ∧
      lsn = l.base + groupsSize done + logGroupEntryHeaderSize + entriesSize es ∧
      raw = g.isRawWrite ∧ rest = placeEntries g.isRawWrite
        (l.base + groupsSize done + logGroupEntryHeaderSize + entriesSize es) (e :: es') ++
          placeGroups (l.base + groupsSize done + g.size) todo ∧
      (accum = -1 ∨ accum = accumOf c l.accum (done ++ [g])) := by
  cases h with
  | boundary h haccum => exact .inl ⟨_, _, h, rfl, rfl, haccum⟩
  | inside h he haccum => exact .inr ⟨_, _, _, _, _, _, h, he, rfl, rfl, rfl, haccum⟩

theorem Cursor.behind (h : l.groups = done ++ g :: todo) (he : g.entries = es ++ es')
    (haccum : accum = -1 ∨ accum = accumOf c l.accum (done ++ [g]))
    (hlsn : lsn = l.base + groupsSize done + logGroupEntryHeaderSize + entriesSize es)
    (hrest : rest = placeEntries g.isRawWrite lsn es' ++
      placeGroups (l.base + groupsSize done + g.size) todo) :
    Cursor c l lsn g.isRawWrite accum rest := by
  subst hlsn hrest
  cases es' with
  | cons e es' => exact .inside h he haccum
  | nil =>
  have hsize : l.base + groupsSize done + logGroupEntryHeaderSize + entriesSize es =
      l.base + groupsSize (done ++ [g]) := by
    rw [append_nil] at he
    rw [groupsSize_append, groupsSize_cons, groupsSize_nil, size, dataLen, he]
    omega
  have hg : l.base + groupsSize done + g.size = l.base + groupsSize (done ++ [g]) := by
    rw [groupsSize_append, groupsSize_cons, groupsSize_nil]
    omega
  rw [placeEntries, nil_append, hsize, hg]
  exact .boundary (by rw [h, append_assoc, singleton_append]) haccum

section

variable (h : Cursor c l lsn raw accum rest)
include h

theorem Cursor.rest_eq : rest = l.entries.filter (lsn ≤ ·.lsn) := by
  have hnone : ∀ {ys : List PlacedEntry}, (∀ y ∈ ys, y.lsn + y.entry.size ≤ lsn) →
      ys.filter (lsn ≤ ·.lsn) = [] := by
    intro ys hys
    refine filter_eq_nil_iff.mpr fun y hy => ?_
    have := hys y hy
    have := y.entry.size_pos
    simp only [decide_eq_true_eq]
    omega
  have hall : ∀ {ys : List PlacedEntry}, (∀ y ∈ ys, lsn ≤ y.lsn) →
      ys.filter (lsn ≤ ·.lsn) = ys := by
    intro ys hys
    exact filter_eq_self.mpr fun y hy => by simpa using hys y hy
  rcases h.cases with ⟨done, todo, hgroups, hlsn, hrest, -⟩ |
    ⟨done, todo, g, es, e, es', hgroups, he, hlsn, -, hrest, -⟩
  · rw [PalfLog.entries, hgroups, placeGroups_append, ← hlsn, filter_append,
      hnone fun y hy => hlsn ▸ (mem_placeGroups hy).2, hall fun y hy => (mem_placeGroups hy).1,
      nil_append, hrest, hlsn]
  have hsize : g.size = logGroupEntryHeaderSize + (entriesSize es + entriesSize (e :: es')) := by
    rw [size, dataLen, he, entriesSize_append]
  have hdone : ∀ y ∈ placeGroups l.base done, y.lsn + y.entry.size ≤ lsn := fun y hy => by
    have := (mem_placeGroups hy).2
    omega
  have hes : ∀ y ∈ placeEntries g.isRawWrite
      (l.base + groupsSize done + logGroupEntryHeaderSize) es, y.lsn + y.entry.size ≤ lsn :=
    fun y hy => hlsn ▸ (mem_placeEntries hy).2
  have hes' : ∀ y ∈ placeEntries g.isRawWrite lsn (e :: es'), lsn ≤ y.lsn :=
    fun y hy => (mem_placeEntries hy).1
  have htodo : ∀ y ∈ placeGroups (l.base + groupsSize done + g.size) todo, lsn ≤ y.lsn :=
    fun y hy => by
      have := (mem_placeGroups hy).1
      omega
  rw [PalfLog.entries, hgroups, placeGroups_append, placeGroups, he, placeEntries_append,
    ← hlsn, filter_append, filter_append, filter_append, hnone hdone, hnone hes,
    hall hes', hall htodo, hrest, hlsn]
  rfl

theorem Cursor.le_tail : l.base ≤ lsn ∧ lsn ≤ l.tail := by
  rcases h.cases with ⟨done, todo, hgroups, hlsn, -⟩ |
    ⟨done, todo, g, es, e, es', hgroups, he, hlsn, -⟩
  · rw [PalfLog.tail, hgroups, groupsSize_append]
    omega
  rw [PalfLog.tail, hgroups, groupsSize_append, groupsSize_cons, size,
    dataLen, he, entriesSize_append]
  omega

theorem Cursor.append (gs : List LogGroup) :
    ∃ rest', Cursor c { l with groups := l.groups ++ gs } lsn raw accum rest' := by
  rcases h.cases with ⟨done, todo, hgroups, rfl, -, haccum⟩ |
    ⟨done, todo, g, es, e, es', hgroups, he, rfl, rfl, -, haccum⟩
  · exact ⟨_, .boundary (show l.groups ++ gs = done ++ (todo ++ gs) by
      rw [hgroups, append_assoc]) haccum⟩
  · exact ⟨_, .inside (show l.groups ++ gs = done ++ g :: (todo ++ gs) by
      rw [hgroups, append_assoc, cons_append]) he haccum⟩

end

theorem takeWhile_append_of_size {scn}
    (h : entriesSize es ≤ entriesSize ((es ++ es').takeWhile (·.scn ≤ scn))) :
    (es ++ es').takeWhile (·.scn ≤ scn) = es ++ es'.takeWhile (·.scn ≤ scn) := by
  induction es with
  | nil => rfl
  | cons e es ih =>
  rw [cons_append] at h ⊢
  by_cases hscn : e.scn ≤ scn
  · rw [takeWhile_cons_of_pos (by simpa using hscn)] at h ⊢
    rw [entriesSize_cons, entriesSize_cons] at h
    rw [ih (by omega), cons_append]
  · rw [takeWhile_cons_of_neg (by simpa using hscn), entriesSize_cons, entriesSize_nil] at h
    have := e.size_pos
    omega

/-- **A cursor stays one after a flashback** that does not cut the log before it. The group it lies
in may have been cut, at the latest at the cursor. -/
theorem Cursor.cut {scn} (h : Cursor c l lsn raw accum rest)
    (hl : GroupsTile c l.base l.groups) (htail : lsn ≤ (l.cut scn).tail) :
    ∃ rest', Cursor c (l.cut scn) lsn raw (-1) rest' := by
  have hne := hl.nonempty
  rw [PalfLog.tail, PalfLog.cut] at htail
  rcases h.cases with ⟨done, todo, hgroups, rfl, -⟩ |
    ⟨done, todo, g, es, e, es', hgroups, he, rfl, rfl, -⟩
  · rw [hgroups] at hne htail
    have hcut : (l.cut scn).groups = done ++ cutGroups scn todo := by
      rw [PalfLog.cut, hgroups]
      exact cutGroups_append (fun g hg => hne g (mem_append_left _ hg)) (by simpa using htail)
    exact ⟨_, .boundary hcut (.inl rfl)⟩
  rw [hgroups] at hne htail
  simp only at htail
  have hkeep : cutGroups scn (done ++ g :: todo) = done ++ cutGroups scn (g :: todo) :=
    cutGroups_append (fun g hg => hne g (mem_append_left _ hg)) (by omega)
  rw [hkeep, groupsSize_append, cutGroups] at htail
  have hcut : (l.cut scn).groups = done ++ cutGroups scn (g :: todo) := by
    rw [PalfLog.cut, hgroups]
    exact hkeep
  rw [cutGroups] at hcut
  by_cases hscn : g.maxScn ≤ scn
  · rw [if_pos hscn] at hcut
    exact ⟨_, .inside hcut he (.inl rfl)⟩
  rw [if_neg hscn] at hcut htail
  by_cases hempty : (g.cut scn).entries = []
  · rw [if_pos hempty, groupsSize_nil] at htail
    unfold logGroupEntryHeaderSize at htail
    omega
  rw [if_neg hempty] at hcut htail
  rw [groupsSize_cons, groupsSize_nil, size, dataLen] at htail
  have hes : (g.cut scn).entries = es ++ (e :: es').takeWhile (·.scn ≤ scn) := by
    rw [cut, he] at htail ⊢
    exact takeWhile_append_of_size (by simp only at htail ⊢; omega)
  change ∃ rest', Cursor c (l.cut scn) _ (g.cut scn).isRawWrite (-1) rest'
  exact ⟨_, Cursor.behind hcut hes (.inl rfl) rfl rfl⟩

theorem groupsSize_boundary {done' todo'}
    (h : done ++ g :: todo = done' ++ todo') (hlt : groupsSize done < groupsSize done') :
    groupsSize done + g.size ≤ groupsSize done' := by
  rcases append_eq_append_iff.mp h with ⟨a, rfl, ha⟩ | ⟨a, rfl, -⟩
  · cases a with
    | nil => simp at hlt
    | cons x a =>
      obtain ⟨rfl, -⟩ := cons_eq_cons.mp ha
      rw [groupsSize_append, groupsSize_cons]
      omega
  · rw [groupsSize_append] at hlt
    omega

theorem le_blockEnd {n} (h : lsn % palfBlockSize + n ≤ palfBlockSize) :
    lsn + n ≤ LogIterator.blockEnd lsn := by
  have hdiv := Nat.div_add_mod' lsn palfBlockSize
  rw [LogIterator.blockEnd, Nat.add_mul, Nat.one_mul]
  omega

end Cursor

/-! ## Calls -/

/-- What a call sees is the log, and the file ends where a group ends. -/
structure EnvOf (c : Checksums) (l : PalfLog) (env : IterEnv) : Prop where
  disk : env.disk = l.cell c
  tail : env.tail = l.tail
  fileEnd : ∃ done todo, l.groups = done ++ todo ∧ env.fileEnd = l.base + groupsSize done

section EnvOf

variable {c : Checksums} {l : PalfLog} {env : IterEnv} {done todo : List LogGroup} {g : LogGroup}

theorem EnvOf.group_le (henv : EnvOf c l env) (h : l.groups = done ++ g :: todo)
    (hlt : l.base + groupsSize done < env.fileEnd) :
    l.base + groupsSize done + g.size ≤ env.fileEnd := by
  obtain ⟨done', todo', hsplit, hfile⟩ := henv.fileEnd
  have := groupsSize_boundary (h.symm.trans hsplit) (by omega)
  omega

theorem EnvOf.fileEnd_le (henv : EnvOf c l env) : env.fileEnd ≤ env.tail := by
  obtain ⟨done, todo, hsplit, hfile⟩ := henv.fileEnd
  rw [henv.tail, hfile, PalfLog.tail, hsplit, groupsSize_append]
  omega

end EnvOf

/-- An iterator between two calls, and the entries it has still to return. -/
structure LogIterator.Ready (c : Checksums) (l : PalfLog) (it : LogIterator)
    (rest : List PlacedEntry) : Prop where
  cursor : Cursor c l it.currReadLsn it.currEntryIsRawWrite it.accumulateChecksum rest
  buffers : it.Buffers (l.cell c)
  read_le : it.currReadLsn ≤ it.endLsn
  end_le : it.endLsn ≤ l.tail
  padding : it.currEntryIsPadding = false
  size : it.currEntrySize = 0

/-- The iterator with the current entry stepped over. -/
def LogIterator.advance (it : LogIterator) : LogIterator :=
  { it with currReadLsn := it.currReadLsn + it.currEntrySize, currEntrySize := 0 }

/-- What reading an entry leaves untouched. -/
structure LogIterator.SameHistory (it it' : LogIterator) : Prop where
  prev : it'.prevEntryScn = it.prevEntryScn
  mode : it'.initModeVersion = it.initModeVersion

/-- An entry is held back by the replayable point. -/
def PlacedEntry.Held (rp : ℕ) (x : PlacedEntry) : Prop := x.isRawWrite = true ∧ rp < x.entry.scn

/-- **What reading an entry can lead to**: the end of the file, a failure of the storage, an entry
that is held back, or an entry. -/
inductive Outcome (c : Checksums) (l : PalfLog) (env : IterEnv) (rp : ℕ) (it : LogIterator)
    (rest : List PlacedEntry) : IterOut → Prop
  | atEnd (h : env.fileEnd ≤ it.currReadLsn) :
      Outcome c l env rp it rest ⟨.iterEnd, it, ⟨.dueToFileEndLsnNotReadNewData, invalidScn⟩⟩
  | failed (hio : env.ioOk = false) : Outcome c l env rp it rest ⟨.ioError, it, .reset⟩
  | held {it' : LogIterator} {x xs reason}
      (hrest : rest = x :: xs) (hheld : x.Held rp)
      (hreason : (⟨reason, x.entry.scn⟩ : IterateEndInfo).isIterateEndByReplayablePointScn = true)
      (hlsn : it'.currReadLsn = it.currReadLsn) (hready : it'.Ready c l rest)
      (hsame : it.SameHistory it') :
      Outcome c l env rp it rest ⟨.iterEnd, it', ⟨reason, x.entry.scn⟩⟩
  | found {it' : LogIterator} {x xs}
      (hrest : rest = x :: xs) (hheld : ¬ x.Held rp)
      (hend : it'.currReadLsn + it'.currEntrySize ≤ env.fileEnd)
      (hlsn : it'.currReadLsn = x.lsn) (hsize : it'.currEntrySize = x.entry.size)
      (hraw : it'.currEntryIsRawWrite = x.isRawWrite) (hentry : it'.currEntry = some x.entry)
        (hready : it'.advance.Ready c l xs)
      (hsame : it.SameHistory it') :
      Outcome c l env rp it rest ⟨.success, it', .reset⟩

namespace LogIterator

variable {c : Checksums} {l : PalfLog} {env : IterEnv} {rp : ℕ} {it it' : LogIterator}
  {rest : List PlacedEntry} {done todo : List LogGroup} {g : LogGroup} {es es' : List LogEntry}
  {e : LogEntry}

theorem groupAt (hl : GroupsTile c l.base l.groups) (hgroups : l.groups = done ++ g :: todo)
    (hlsn : it.currReadLsn = l.base + groupsSize done) :
    it.GroupAt c (l.cell c) (accumOf c l.accum done) g := by
  have hcell : ∀ p, it.currReadLsn ≤ p → l.cell c p =
      groupCell c it.currReadLsn (accumOf c l.accum done) (g :: todo) p := by
    intro p hp
    rw [PalfLog.cell, hgroups, groupCell_append (by omega), hlsn]
  rw [hgroups, groupsTile_append, ← hlsn] at hl
  refine ⟨hl.2.1, ?_, fun p hp hp' => ?_⟩
  · rw [hcell _ le_rfl, groupCell, if_pos rfl]
  · rw [hcell p (by omega), groupCell_inside hp hp']

theorem Ready.append (h : it.Ready c l rest) (gs : List LogGroup) :
    ∃ rest', it.Ready c { l with groups := l.groups ++ gs } rest' := by
  obtain ⟨rest', hcursor⟩ := h.cursor.append gs
  refine ⟨rest', ⟨hcursor, fun p hp hp' => ?_, h.read_le, ?_, h.padding, h.size⟩⟩
  · have hle : l.base ≤ p := h.cursor.le_tail.1.trans hp
    have hlt : p < l.base + groupsSize l.groups := lt_of_lt_of_le hp' h.end_le
    exact (h.buffers p hp hp').trans (groupCell_append_left hle hlt).symm
  · refine h.end_le.trans ?_
    simp [PalfLog.tail]

theorem Ready.of_filled {need} (h : it.Ready c l rest)
    (hfill : it.Filled (l.cell c) l.tail need it') (hneed : it.currReadLsn ≤ need) :
    it'.Ready c l rest := by
  obtain ⟨⟨buf, lsn, rfl⟩, hbuf, hle, hend⟩ := hfill
  exact ⟨h.cursor, hbuf, le_trans hneed hle, hend.trans (max_le h.end_le le_rfl), h.padding, h.size⟩

theorem Outcome.of_parsed (hgroups : l.groups = done ++ g :: todo) (he : g.entries = es ++ e :: es')
    (hlsn : it'.currReadLsn = l.base + groupsSize done + logGroupEntryHeaderSize + entriesSize es)
    (hrest : rest = placeEntries g.isRawWrite it'.currReadLsn (e :: es') ++
      placeGroups (l.base + groupsSize done + g.size) todo)
    (hentry : it'.currEntry = some e) (hraw : it'.currEntryIsRawWrite = g.isRawWrite)
    (haccum : it'.accumulateChecksum = -1 ∨
      it'.accumulateChecksum = accumOf c l.accum (done ++ [g]))
    (hpad : it'.currEntryIsPadding = false) (hbuf : it'.Buffers (l.cell c))
    (hlong : it'.currReadLsn + e.size ≤ it'.endLsn) (htail : it'.endLsn ≤ l.tail)
    (hend : it'.currReadLsn + e.size ≤ env.fileEnd) (hheld : ¬ (g.isRawWrite = true ∧ rp < e.scn))
    (hsame : it.SameHistory it') :
    Outcome c l env rp it rest ⟨.success, { it' with currEntrySize := e.size }, .reset⟩ := by
  refine .found (x := ⟨it'.currReadLsn, g.isRawWrite, e⟩) hrest hheld hend rfl rfl hraw hentry ?_
    ⟨hsame.prev, hsame.mode⟩
  refine ⟨?_, fun p hp hp' => hbuf p (le_trans (Nat.le_add_right _ _) hp) hp', hlong, htail,
    hpad, rfl⟩
  simp only [advance, hraw]
  refine Cursor.behind hgroups (by rw [he, append_cons]) haccum ?_ rfl
  rw [hlsn, entriesSize_append, entriesSize_cons, entriesSize_nil]
  omega

section

variable (h : it.Ready c l rest) (henv : EnvOf c l env) (hl : GroupsTile c l.base l.groups)
include h henv hl

theorem Ready.readEntry_boundary (hgroups : l.groups = done ++ g :: todo)
    (hlsn : it.currReadLsn = l.base + groupsSize done)
    (hrest : rest = placeGroups (l.base + groupsSize done) (g :: todo))
    (haccum : it.accumulateChecksum = -1 ∨ it.accumulateChecksum = accumOf c l.accum done)
    (hlt : it.currReadLsn < env.fileEnd) :
    Outcome c l env rp it rest (readEntry c env rp maxReadTimesInEachNext it) := by
  have hat := groupAt hl hgroups hlsn
  have hend : it.currReadLsn + g.size ≤ env.fileEnd := by
    have := henv.group_le hgroups (by omega)
    omega
  obtain ⟨e, es, he⟩ := exists_cons_of_ne_nil hat.wf.nonempty
  have hsize := g.size_of_cons he
  have hpos := e.size_pos
  have hcons : rest = placeEntries g.isRawWrite (it.currReadLsn + logGroupEntryHeaderSize)
      (e :: es) ++ placeGroups (l.base + groupsSize done + g.size) todo := by
    rw [hrest, placeGroups, he, hlsn]
  rw [maxReadTimesInEachNext]
  rcases readEntry_fill (n := 1) (henv.disk ▸ h.buffers) h.read_le
      (fun hshort m => parseOneEntry_group_short hat h.buffers hshort)
      (Nat.add_le_add_left hat.wf.size_le _) (le_blockEnd hat.wf.block) hend henv.fileEnd_le with
    ⟨hio, hread⟩ | ⟨m, it₁, hread, hfill⟩
  · rw [hread]
    exact .failed hio
  rw [henv.disk, henv.tail] at hfill
  have hready : it₁.Ready c l rest := h.of_filled hfill (by omega)
  rw [hread]
  obtain ⟨⟨buf, lsn, rfl⟩, hbuf, hlong, -⟩ := hfill
  have hat' : GroupAt c (l.cell c) (accumOf c l.accum done) g
      { it with buf := buf, endLsn := lsn } := ⟨hat.wf, hat.header, hat.entries⟩
  by_cases hheld : g.isRawWrite = true ∧ rp < e.scn
  · rw [readEntry_iterEnd (parseOneEntry_group_held hat' hbuf hlong he haccum hheld)]
    exact .held hcons hheld rfl rfl hready ⟨rfl, rfl⟩
  -- the header leaves a round for the entry
  obtain ⟨n, hn⟩ : ∃ n, lsn - it.currReadLsn + 1 = n + 2 :=
    ⟨lsn - it.currReadLsn - 1, by simp only at hlong; omega⟩
  obtain ⟨it₂, hparse, hent⟩ :=
    parseOneEntry_group_entered (n := n) hat' hbuf hlong he haccum hheld
  rw [readEntry_success (by rw [hn]; exact hparse) hent.currEntry]
  have hlsn₂ : it₂.currReadLsn = it.currReadLsn + logGroupEntryHeaderSize := hent.currReadLsn
  have hend₂ : it₂.endLsn = lsn := hent.endLsn
  simp only at hlong
  refine Outcome.of_parsed hgroups (show g.entries = [] ++ e :: es from he) ?_
    (by rw [hlsn₂]; exact hcons) hent.currEntry hent.isRawWrite (.inr ?_) hent.padding ?_ (by omega)
    (by rw [hend₂]; exact hready.end_le) (by omega) hheld ⟨hent.prev, hent.mode⟩
  · rw [hlsn₂, hlsn, entriesSize_nil, Nat.add_zero]
  · rw [hent.accum, accumOf_append, accumOf_cons, accumOf_nil]
  intro p hp hp'
  rw [hent.buf]
  exact hbuf p (by simp only; omega) (by simp only; omega)

theorem Ready.readEntry_inside (hgroups : l.groups = done ++ g :: todo)
    (he : g.entries = es ++ e :: es') (hlsn : it.currReadLsn =
      l.base + groupsSize done + logGroupEntryHeaderSize + entriesSize es)
    (hrest : rest = placeEntries g.isRawWrite it.currReadLsn (e :: es') ++
      placeGroups (l.base + groupsSize done + g.size) todo)
    (hraw : it.currEntryIsRawWrite = g.isRawWrite) (haccum : it.accumulateChecksum = -1 ∨
      it.accumulateChecksum = accumOf c l.accum (done ++ [g]))
    (hlt : it.currReadLsn < env.fileEnd) :
    Outcome c l env rp it rest (readEntry c env rp maxReadTimesInEachNext it) := by
  have hwf : g.Wf c (l.base + groupsSize done) := by
    rw [hgroups, groupsTile_append] at hl
    exact hl.2.1
  have hsize : g.size =
      logGroupEntryHeaderSize + (entriesSize es + (e.size + entriesSize es')) := by
    rw [LogGroup.size, LogGroup.dataLen, he, entriesSize_append, entriesSize_cons]
  have hpos := e.size_pos
  have hgend : l.base + groupsSize done + g.size ≤ env.fileEnd :=
    henv.group_le hgroups (by omega)
  have hcell : l.cell c it.currReadLsn = some (.entry e) := by
    rw [PalfLog.cell, hgroups, groupCell_append (by omega), hlsn, groupCell_entry he]
  -- the entry ends in the block of its group
  have hblock : it.currReadLsn + e.size ≤ blockEnd it.currReadLsn := by
    have hg := le_blockEnd hwf.block
    have heq : blockEnd it.currReadLsn = blockEnd (l.base + groupsSize done) :=
      blockEnd_eq (by omega) (by omega)
    omega
  have hshort : it.endLsn < it.currReadLsn + e.size → ∀ m,
      parseOneEntry c rp (m + 1) it = ⟨.bufNotEnough, it, .reset⟩ := by
    intro hshort m
    rw [parseOneEntry_entry h.padding h.buffers hcell, parseEntryAt_eq h.buffers hcell,
      if_pos hshort]
  have hmax := hwf.size_le
  rw [maxReadTimesInEachNext]
  rcases readEntry_fill (n := 1) (henv.disk ▸ h.buffers) h.read_le hshort (by omega) hblock
      (by omega) henv.fileEnd_le with
    ⟨hio, hread⟩ | ⟨m, it₁, hread, hfill⟩
  · rw [hread]
    exact .failed hio
  rw [henv.disk, henv.tail] at hfill
  have hready : it₁.Ready c l rest := h.of_filled hfill (by omega)
  rw [hread]
  obtain ⟨⟨buf, lsn, rfl⟩, hbuf, hlong, -⟩ := hfill
  have hparse : ∀ n, parseOneEntry c rp (n + 1) { it with buf := buf, endLsn := lsn } = _ :=
    fun n => (parseOneEntry_entry hready.padding hbuf hcell).trans (parseEntryAt_eq hbuf hcell)
  simp only [if_neg (not_lt.mpr hlong)] at hparse
  by_cases hheld : it.currEntryIsRawWrite = true ∧ rp < e.scn
  · simp only [if_pos hheld] at hparse
    rw [readEntry_iterEnd (hparse _)]
    exact .held hrest (by rw [← hraw]; exact hheld) rfl rfl
      { hready with buffers := hbuf }
      ⟨rfl, rfl⟩
  · simp only [if_neg hheld] at hparse
    rw [readEntry_success (hparse _) rfl]
    exact Outcome.of_parsed hgroups he hlsn hrest rfl hraw haccum h.padding hbuf hlong
      hready.end_le (by simp only; omega) (by rw [← hraw]; exact hheld) ⟨rfl, rfl⟩

/-- **Reading an entry** has one of the outcomes, wherever the iterator stands. -/
theorem Ready.getNextEntry (rp : ℕ) : Outcome c l env rp it rest (it.getNextEntry c env rp) := by
  rw [LogIterator.getNextEntry]
  by_cases hlt : it.currReadLsn < env.fileEnd
  · have hout : Outcome c l env rp it rest (readEntry c env rp maxReadTimesInEachNext it) := by
      rcases h.cursor.cases with ⟨done, todo, hgroups, hlsn, hrest, haccum⟩ |
        ⟨done, todo, g, es, e, es', hgroups, he, hlsn, hraw, hrest, haccum⟩
      · cases todo with
        | cons g todo => exact h.readEntry_boundary henv hl hgroups hlsn hrest haccum hlt
        | nil =>
          -- at the end of the log, the file has ended
          have htail := henv.fileEnd_le
          rw [henv.tail, PalfLog.tail, hgroups, append_nil] at htail
          omega
      · exact h.readEntry_inside henv hl hgroups he hlsn (hlsn ▸ hrest) hraw haccum hlt
    rw [if_neg (by omega)]
    simp only
    generalize readEntry c env rp maxReadTimesInEachNext it = out at hout ⊢
    cases hout with
    | atEnd h => exact absurd h (not_le.mpr hlt)
    | failed hio => exact .failed hio
    | held hrest hheld hreason hlsn hready hsame =>
      exact .held hrest hheld hreason hlsn hready hsame
    | found hrest hheld hend hlsn hsize hraw hentry hready hsame =>
    rw [if_neg (fun hc => absurd hc.2 (not_lt.mpr hend))]
    exact .found hrest hheld hend hlsn hsize hraw hentry hready hsame
  · rw [if_pos (by omega)]
    exact .atEnd (not_lt.mp hlt)

end

end LogIterator

end OceanBase.Palf
