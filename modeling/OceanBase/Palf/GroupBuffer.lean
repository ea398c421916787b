import OceanBase.Lib.Machine
import OceanBase.Lib.RingBuffer

/-!
# The group buffer

`LogGroupBuffer` keeps the log that is not yet flushed, and some of what is, in a ring. The ring has
`reserved_buffer_size_` cells. A fill is accepted up to `available_buffer_size_` behind
`reuse_lsn_`, and this size depends on the role. The bytes from `readable_begin_lsn_` to
`reuse_lsn_` can be read.

The file proves that a read returns what was filled last for its positions since the last truncation
below them. Two marks carry the argument. A fill raises `readable_begin_lsn_` to one ring before its
end, so what it overwrites is no longer readable. And nothing is filled a ring or more behind
`reuse_lsn_`, so a fill does not overwrite what is ahead of it.

Positions are natural numbers. The lock and the second look at `readable_begin_lsn_` in `read_data`
matter for concurrent calls only.

## Main results

* `readData_eq_filled`: reads return what was written
-/

namespace OceanBase.Palf

open RingBuffer List Nat

def leaderDefaultGroupBufferSize : ℕ := 2 ^ 25

def followerDefaultGroupBufferSize : ℕ := leaderDefaultGroupBufferSize + 8 * 1024 * 1024

def paddingLogContentChar : UInt8 := 0

structure LogGroupBuffer where
  startLsn : ℕ
  readableBeginLsn : ℕ
  reuseLsn : ℕ
  reservedBufferSize : ℕ
  availableBufferSize : ℕ
  dataBuf : ℕ → UInt8

inductive GroupBufferErr
  | invalidArgument | errUnexpected | eagain | outOfLowerBound | stateNotMatch
  deriving DecidableEq

namespace LogGroupBuffer

variable (b : LogGroupBuffer)

def init (startLsn : ℕ) : LogGroupBuffer :=
  ⟨startLsn, startLsn, startLsn, followerDefaultGroupBufferSize, followerDefaultGroupBufferSize,
    fun _ => 0⟩

/-- `get_buffer_pos_` for a position that is not below the start. -/
def pos (lsn : ℕ) : ℕ := (lsn - b.startLsn) % b.reservedBufferSize

def getBufferPos (lsn : ℕ) : Except GroupBufferErr ℕ :=
  if lsn < b.startLsn then .error .outOfLowerBound else .ok (b.pos lsn)

def genReadableBeginLsnForFilling (lsn : ℕ) : ℕ :=
  if b.reservedBufferSize ≤ lsn then lsn - b.reservedBufferSize else 0

def incUpdateReadableBeginLsn (lsn : ℕ) : LogGroupBuffer :=
  { b with readableBeginLsn := max b.readableBeginLsn lsn }

def fillData (startPos : ℕ) (data : List UInt8) : LogGroupBuffer :=
  { b with dataBuf := RingBuffer.write b.reservedBufferSize startPos b.dataBuf data }

/-- The checks that `fill` and `fill_padding_body` make for a fill from `lsn` to `endLsn`. -/
def checkFill (lsn endLsn : ℕ) : Except GroupBufferErr ℕ :=
  if endLsn ≤ lsn then .error .invalidArgument
  else if lsn < b.startLsn then .error .errUnexpected
  else if endLsn ≤ b.reuseLsn then .error .errUnexpected
  else if b.reuseLsn + b.availableBufferSize < endLsn then .error .eagain
  else b.getBufferPos lsn

def fill (lsn : ℕ) (data : List UInt8) : Except GroupBufferErr LogGroupBuffer :=
  (b.checkFill lsn (lsn + data.length)).map fun startPos =>
    let b := b.incUpdateReadableBeginLsn (b.genReadableBeginLsnForFilling (lsn + data.length))
    b.fillData startPos data

/-- `fill_padding_body`: the body is filled with the padding character and then `data` put at its
front. -/
def fillPaddingBody (lsn : ℕ) (data : List UInt8) (logBodySize : ℕ) :
    Except GroupBufferErr LogGroupBuffer :=
  (b.checkFill lsn (lsn + logBodySize)).map fun startPos =>
    let b := b.incUpdateReadableBeginLsn (b.genReadableBeginLsnForFilling (lsn + logBodySize))
    (b.fillData startPos (List.replicate logBodySize paddingLogContentChar)).fillData startPos data

def toLeader : Except GroupBufferErr LogGroupBuffer :=
  if b.availableBufferSize = leaderDefaultGroupBufferSize then .error .stateNotMatch
  else .ok { b with availableBufferSize := leaderDefaultGroupBufferSize }

def toFollower : LogGroupBuffer :=
  if b.availableBufferSize = followerDefaultGroupBufferSize then b
  else { b with availableBufferSize := followerDefaultGroupBufferSize }

def incUpdateReuseLsn (newReuseLsn : ℕ) : LogGroupBuffer :=
  if b.reuseLsn < newReuseLsn then { b with reuseLsn := newReuseLsn } else b

def truncate (newLsn : ℕ) : Except GroupBufferErr LogGroupBuffer :=
  if newLsn < b.startLsn then .error .invalidArgument
  else .ok { b.incUpdateReadableBeginLsn newLsn with reuseLsn := newLsn }

def readData (readBeginLsn inReadSize : ℕ) : Except GroupBufferErr (List UInt8) :=
  if inReadSize = 0 then .error .invalidArgument
  else
    (b.getBufferPos readBeginLsn).bind fun startPos =>
      if readBeginLsn < b.readableBeginLsn then .error .outOfLowerBound
      else if readBeginLsn < b.reuseLsn then
        .ok (RingBuffer.read b.reservedBufferSize startPos b.dataBuf
          (min (b.reuseLsn - readBeginLsn) inReadSize))
      else .ok []

end LogGroupBuffer

/-! ## Runs -/

/-- The buffer, with the byte filled last for each position since the last truncation below it. -/
structure GroupBufferRun where
  buf : LogGroupBuffer
  filled : ℕ → Option UInt8

inductive BufferAct
  | fill (lsn : ℕ) (data : List UInt8)
  | fillPaddingBody (lsn : ℕ) (data : List UInt8) (logBodySize : ℕ)
  | incUpdateReuseLsn (lsn : ℕ)
  | incUpdateReadableBeginLsn (lsn : ℕ)
  | truncate (lsn : ℕ)
  | toLeader
  | toFollower

namespace GroupBufferRun

def put (filled : ℕ → Option UInt8) (lsn : ℕ) (data : List UInt8) (x : ℕ) : Option UInt8 :=
  if lsn ≤ x ∧ x < lsn + data.length then data[x - lsn]? else filled x

/-- The body of a padding log: `data`, and the padding character behind it. -/
def paddingBody (data : List UInt8) (logBodySize : ℕ) : List UInt8 :=
  data ++ List.replicate (logBodySize - data.length) paddingLogContentChar

/-- What the callers see to: a fill starts at or behind `reuse_lsn_`, the data of a padding log is a
front part of its body, and `reuse_lsn_` goes up to a position below which everything is filled. -/
def Legal (s : GroupBufferRun) : BufferAct → Prop
  | .fill lsn _ => s.buf.reuseLsn ≤ lsn
  | .fillPaddingBody lsn data size => s.buf.reuseLsn ≤ lsn ∧ data.length ≤ size
  | .incUpdateReuseLsn lsn => ∀ x, s.buf.reuseLsn ≤ x → x < lsn → (s.filled x).isSome = true
  | _ => True

/-- One operation. One that fails changes nothing. -/
def step (s : GroupBufferRun) : BufferAct → GroupBufferRun
  | .fill lsn data =>
    match s.buf.fill lsn data with
    | .ok b => ⟨b, put s.filled lsn data⟩
    | .error _ => s
  | .fillPaddingBody lsn data size =>
    match s.buf.fillPaddingBody lsn data size with
    | .ok b => ⟨b, put s.filled lsn (paddingBody data size)⟩
    | .error _ => s
  | .incUpdateReuseLsn lsn => { s with buf := s.buf.incUpdateReuseLsn lsn }
  | .incUpdateReadableBeginLsn lsn => { s with buf := s.buf.incUpdateReadableBeginLsn lsn }
  | .truncate lsn =>
    match s.buf.truncate lsn with
    | .ok b => ⟨b, fun x => if lsn ≤ x then none else s.filled x⟩
    | .error _ => s
  | .toLeader =>
    match s.buf.toLeader with
    | .ok b => { s with buf := b }
    | .error _ => s
  | .toFollower => { s with buf := s.buf.toFollower }

end GroupBufferRun

/-- **The machine**: a buffer after `init`, and any sequence of operations. -/
def groupBuffer : Machine GroupBufferRun where
  init s := ∃ startLsn, s = ⟨.init startLsn, fun _ => none⟩
  step s s' := ∃ a, s.Legal a ∧ s' = s.step a

/-! ## What the operations keep -/

open GroupBufferRun

/-- The invariant of the buffer and what was filled. -/
structure Inv (s : GroupBufferRun) : Prop where
  reserved : 0 < s.buf.reservedBufferSize
  available : s.buf.availableBufferSize ≤ s.buf.reservedBufferSize
  reserved_eq : s.buf.reservedBufferSize = followerDefaultGroupBufferSize
  start_le_readable : s.buf.startLsn ≤ s.buf.readableBeginLsn
  start_le_reuse : s.buf.startLsn ≤ s.buf.reuseLsn
  /-- what is filled and may become readable is in its cell -/
  held : ∀ x c, s.buf.readableBeginLsn ≤ x → s.filled x = some c → s.buf.dataBuf (s.buf.pos x) = c
  /-- nothing is filled a ring ahead of the marks -/
  ahead : ∀ x, (s.filled x).isSome = true → x < s.buf.reuseLsn + s.buf.reservedBufferSize ∧
    x < s.buf.readableBeginLsn + s.buf.reservedBufferSize
  readable : ∀ x, s.buf.readableBeginLsn ≤ x → x < s.buf.reuseLsn → (s.filled x).isSome = true

variable {b : LogGroupBuffer} {data : List UInt8} {filled : ℕ → Option UInt8}

open LogGroupBuffer

theorem checkFill_eq_ok {lsn endLsn p} :
    b.checkFill lsn endLsn = .ok p ↔ lsn < endLsn ∧ b.startLsn ≤ lsn ∧ b.reuseLsn < endLsn ∧
      endLsn ≤ b.reuseLsn + b.availableBufferSize ∧ p = b.pos lsn := by
  unfold checkFill getBufferPos
  split_ifs <;> simp [eq_comm] <;> omega

theorem pos_add {lsn i} (h : b.startLsn ≤ lsn) :
    (b.pos lsn + i) % b.reservedBufferSize = b.pos (lsn + i) := by
  rw [pos, pos, Nat.mod_add_mod, Nat.sub_add_comm h]

theorem pos_ne {x y} (hx : b.startLsn ≤ x) (hxy : x < y)
    (h : y < x + b.reservedBufferSize) : b.pos x ≠ b.pos y :=
  ne_residue (by omega) (by omega)

theorem put_of_mem {lsn x} (h₁ : lsn ≤ x)
    (h₂ : x < lsn + data.length) : put filled lsn data x = data[x - lsn]? :=
  if_pos ⟨h₁, h₂⟩

theorem put_of_not_mem {lsn x}
    (h : ¬(lsn ≤ x ∧ x < lsn + data.length)) : put filled lsn data x = filled x :=
  if_neg h

/-- What a fill of `data` from `lsn` on does to the cells `old`. -/
structure Fills (b : LogGroupBuffer) (lsn : ℕ) (data : List UInt8) (old buf : ℕ → UInt8) :
    Prop where
  inside : ∀ i (hi : i < data.length), buf (b.pos (lsn + i)) = data[i]
  outside : ∀ p < b.reservedBufferSize, (∀ i < data.length, b.pos (lsn + i) ≠ p) →
    buf p = old p

theorem fills_write {lsn} {old : ℕ → UInt8}
    (hR : 0 < b.reservedBufferSize) (hstart : b.startLsn ≤ lsn)
    (hlen : data.length ≤ b.reservedBufferSize) :
    Fills b lsn data old (write b.reservedBufferSize (b.pos lsn) old data) := by
  have hpos : b.pos lsn < b.reservedBufferSize := mod_lt _ hR
  refine ⟨fun i hi => ?_, fun p hp hne => ?_⟩
  · rw [← pos_add hstart]
    exact write_apply hpos hlen hi
  refine write_apply_of_ne hpos hp fun i hi => ?_
  rw [pos_add hstart]
  exact hne i hi

theorem fills_padding {lsn size}
    (hR : 0 < b.reservedBufferSize) (hstart : b.startLsn ≤ lsn) (hdata : data.length ≤ size)
    (hlen : size ≤ b.reservedBufferSize) : Fills b lsn (paddingBody data size) b.dataBuf
      (write b.reservedBufferSize (b.pos lsn) (write b.reservedBufferSize (b.pos lsn) b.dataBuf
          (replicate size paddingLogContentChar)) data) := by
  set zeros := write b.reservedBufferSize (b.pos lsn) b.dataBuf
    (replicate size paddingLogContentChar)
  have hzeros : Fills b lsn (replicate size paddingLogContentChar) b.dataBuf zeros :=
    fills_write hR hstart (by simpa using hlen)
  have hdatas : Fills b lsn data zeros
      (write b.reservedBufferSize (b.pos lsn) zeros data) :=
    fills_write hR hstart (hdata.trans hlen)
  have hbody : (paddingBody data size).length = size := by simp [paddingBody, hdata]
  refine ⟨fun i hi => ?_, fun p hp hne => ?_⟩
  · rw [hbody] at hi
    rcases lt_or_ge i data.length with hfront | hback
    · have hget : (paddingBody data size)[i] = data[i] := getElem_append_left hfront
      rw [hget]
      exact hdatas.inside i hfront
    -- behind the data the padding shows
    have hget : (paddingBody data size)[i] = paddingLogContentChar := by
      simp [paddingBody, getElem_append_right hback]
    have hne : ∀ j < data.length, b.pos (lsn + j) ≠ b.pos (lsn + i) := fun j hj =>
      pos_ne (by omega) (by omega) (by omega)
    rw [hget, hdatas.outside (b.pos (lsn + i)) (mod_lt _ hR) hne]
    exact (hzeros.inside i (by simpa using hi)).trans (getElem_replicate _)
  · rw [hbody] at hne
    rw [hdatas.outside p hp fun j hj => hne j (hj.trans_le hdata)]
    exact hzeros.outside p hp fun j hj => hne j (by simpa using hj)

section Step

variable {s : GroupBufferRun} {lsn : ℕ} {data : List UInt8} {buf : ℕ → UInt8}

/-- **A fill keeps what stays readable.** What it overwrites lies a ring below its end, and nothing
is filled a ring ahead of it. -/
theorem Inv.fills (h : Inv s) (hreuse : s.buf.reuseLsn ≤ lsn)
    (hend : lsn + data.length ≤ s.buf.reuseLsn + s.buf.availableBufferSize)
    (hbuf : Fills s.buf lsn data s.buf.dataBuf buf) :
    Inv ⟨{ s.buf.incUpdateReadableBeginLsn (s.buf.genReadableBeginLsnForFilling
      (lsn + data.length)) with dataBuf := buf }, put s.filled lsn data⟩ := by
  have hstart := h.start_le_reuse.trans hreuse
  have havail := h.available
  have hgen : lsn + data.length ≤
      s.buf.genReadableBeginLsnForFilling (lsn + data.length) + s.buf.reservedBufferSize := by
    unfold genReadableBeginLsnForFilling
    split <;> omega
  have hmax : max s.buf.readableBeginLsn (s.buf.genReadableBeginLsnForFilling (lsn + data.length)) ≥
      s.buf.readableBeginLsn := le_max_left _ _
  have hmax' := le_max_right s.buf.readableBeginLsn
    (s.buf.genReadableBeginLsnForFilling (lsn + data.length))
  refine ⟨h.reserved, h.available, h.reserved_eq, h.start_le_readable.trans hmax, h.start_le_reuse,
    fun x c hx hc => ?_, fun x hx => ?_, fun x hx hxr => ?_⟩
  · change max _ _ ≤ x at hx
    change buf (s.buf.pos x) = c
    by_cases hin : lsn ≤ x ∧ x < lsn + data.length
    · obtain ⟨i, rfl⟩ := Nat.exists_eq_add_of_le hin.1
      have hi : i < data.length := by omega
      change put s.filled lsn data (lsn + i) = some c at hc
      rw [put_of_mem hin.1 hin.2, Nat.add_sub_cancel_left, getElem?_eq_getElem hi] at hc
      rw [hbuf.inside i hi]
      exact Option.some.inj hc
    change put s.filled lsn data x = some c at hc
    rw [put_of_not_mem hin] at hc
    have hahead := (h.ahead x (by rw [hc]; rfl)).1
    have hxs : s.buf.startLsn ≤ x := h.start_le_readable.trans (hmax.trans hx)
    have hne : ∀ i < data.length, s.buf.pos (lsn + i) ≠ s.buf.pos x := by
      intro i hi
      rcases lt_or_ge x (lsn + i) with hlt | hge
      · exact (pos_ne hxs hlt (by omega)).symm
      · exact pos_ne (by omega) (by omega) (by omega)
    rw [hbuf.outside (s.buf.pos x) (mod_lt _ h.reserved) hne]
    exact h.held x c (hmax.trans hx) hc
  · change (put s.filled lsn data x).isSome = true at hx
    change x < s.buf.reuseLsn + s.buf.reservedBufferSize ∧ x < max _ _ + s.buf.reservedBufferSize
    by_cases hin : lsn ≤ x ∧ x < lsn + data.length
    · omega
    rw [put_of_not_mem hin] at hx
    have := h.ahead x hx
    omega
  · change max _ _ ≤ x at hx
    change x < s.buf.reuseLsn at hxr
    change (put s.filled lsn data x).isSome = true
    rw [put_of_not_mem (by omega)]
    exact h.readable x (hmax.trans hx) hxr

theorem Inv.step (h : Inv s) {a} (ha : s.Legal a) : Inv (s.step a) := by
  have havail := h.available
  cases a with
  | fill lsn data =>
    rw [GroupBufferRun.step, fill]
    cases hcheck : s.buf.checkFill lsn (lsn + data.length) with
    | error e => exact h
    | ok p =>
    obtain ⟨-, hstart, -, hend, rfl⟩ := checkFill_eq_ok.mp hcheck
    have hreuse : s.buf.reuseLsn ≤ lsn := ha
    exact h.fills hreuse hend (fills_write h.reserved hstart (by omega))
  | fillPaddingBody lsn data size =>
    rw [GroupBufferRun.step, fillPaddingBody]
    cases hcheck : s.buf.checkFill lsn (lsn + size) with
    | error e => exact h
    | ok p =>
    obtain ⟨-, hstart, -, hend, rfl⟩ := checkFill_eq_ok.mp hcheck
    obtain ⟨hreuse, hdata⟩ := ha
    have hbody : (paddingBody data size).length = size := by simp [paddingBody, hdata]
    have hfills := h.fills hreuse (hbody.symm ▸ hend)
      (fills_padding h.reserved hstart hdata (by omega))
    rw [hbody] at hfills
    exact hfills
  | incUpdateReuseLsn lsn =>
    rw [GroupBufferRun.step, incUpdateReuseLsn]
    split
    · rename_i hlt
      refine { h with
        start_le_reuse := h.start_le_reuse.trans hlt.le, ahead := fun x hx => ?_
        readable := fun x hx hxr => ?_ }
      · have hahead := h.ahead x hx
        exact ⟨by change x < lsn + s.buf.reservedBufferSize; omega, hahead.2⟩
      rcases lt_or_ge x s.buf.reuseLsn with hold | hnew
      · exact h.readable x hx hold
      · exact ha x hnew hxr
    · exact h
  | incUpdateReadableBeginLsn lsn =>
    have hmax := le_max_left s.buf.readableBeginLsn lsn
    refine ⟨h.reserved, h.available, h.reserved_eq, h.start_le_readable.trans hmax,
      h.start_le_reuse, fun x c hx => h.held x c (hmax.trans hx), fun x hx => ?_,
      fun x hx => h.readable x (hmax.trans hx)⟩
    have hahead := h.ahead x hx
    refine ⟨hahead.1, ?_⟩
    change x < max s.buf.readableBeginLsn lsn + s.buf.reservedBufferSize
    omega
  | truncate lsn =>
    rw [GroupBufferRun.step, truncate]
    by_cases hlt : lsn < s.buf.startLsn
    · rw [if_pos hlt]
      exact h
    rw [if_neg hlt]
    have hmax := le_max_left s.buf.readableBeginLsn lsn
    have hmax' := le_max_right s.buf.readableBeginLsn lsn
    -- nothing at or above the new end is filled, and nothing is readable
    refine ⟨h.reserved, h.available, h.reserved_eq, h.start_le_readable.trans hmax,
      Nat.le_of_not_lt hlt, fun x c hx hc => ?_, fun x hx => ?_, fun x hx hxr => ?_⟩
    · change (if lsn ≤ x then none else s.filled x) = some c at hc
      rw [if_pos (hmax'.trans hx)] at hc
      exact nomatch hc
    · change (if lsn ≤ x then none else s.filled x).isSome = true at hx
      change x < lsn + s.buf.reservedBufferSize ∧
        x < max s.buf.readableBeginLsn lsn + s.buf.reservedBufferSize
      split at hx
      · exact nomatch hx
      · omega
    · exact absurd (hmax'.trans hx) (not_le.mpr hxr)
  | toLeader =>
    rw [GroupBufferRun.step, toLeader]
    by_cases heq : s.buf.availableBufferSize = leaderDefaultGroupBufferSize
    · rw [if_pos heq]
      exact h
    rw [if_neg heq]
    refine { h with available := ?_ }
    change leaderDefaultGroupBufferSize ≤ s.buf.reservedBufferSize
    rw [h.reserved_eq]
    decide
  | toFollower =>
    rw [GroupBufferRun.step, toFollower]
    split
    · exact h
    exact { h with available := h.reserved_eq.ge }

end Step

theorem inv_of_reachable {s} (hs : groupBuffer.Reachable s) : Inv s := by
  refine hs.of_keeps ?_ ?_
  · rintro s ⟨startLsn, rfl⟩
    refine ⟨show 0 < followerDefaultGroupBufferSize by decide, le_rfl, rfl, le_rfl, le_rfl, nofun,
      nofun, fun x hx hxr => ?_⟩
    exact absurd hx (not_le.mpr hxr)
  · rintro s s' h ⟨a, ha, rfl⟩
    exact h.step ha

/-! ## Reads and fills -/

section Main

variable {s : GroupBufferRun}

theorem Inv.reuse_le (h : Inv s) :
    s.buf.reuseLsn ≤ s.buf.readableBeginLsn + s.buf.reservedBufferSize := by
  by_contra hlt
  have hfilled := h.readable (s.buf.readableBeginLsn + s.buf.reservedBufferSize) (by omega)
    (by omega)
  exact absurd (h.ahead _ hfilled).2 (lt_irrefl _)

theorem readData_eq_ok {b : LogGroupBuffer} {lsn n bytes} (h : b.readData lsn n = .ok bytes) :
    bytes = [] ∨ b.startLsn ≤ lsn ∧ b.readableBeginLsn ≤ lsn ∧ lsn < b.reuseLsn ∧
      bytes = read b.reservedBufferSize (b.pos lsn) b.dataBuf (min (b.reuseLsn - lsn) n) := by
  unfold readData at h
  by_cases hn : n = 0
  · rw [if_pos hn] at h
    exact nomatch h
  rw [if_neg hn, getBufferPos] at h
  by_cases hstart : lsn < b.startLsn
  · rw [if_pos hstart] at h
    exact nomatch h
  rw [if_neg hstart] at h
  simp only [Except.bind] at h
  split_ifs at h with hreadable hreuse
  · obtain ⟨⟩ := h
    exact .inr ⟨Nat.le_of_not_lt hstart, Nat.le_of_not_lt hreadable, hreuse, rfl⟩
  · obtain ⟨⟩ := h
    exact .inl rfl

theorem Inv.readData (h : Inv s) {lsn n bytes}
    (hread : s.buf.readData lsn n = .ok bytes) {i} (hi : i < bytes.length) :
    s.filled (lsn + i) = bytes[i]? := by
  rcases readData_eq_ok hread with rfl | ⟨hstart, hreadable, hreuse, rfl⟩
  · exact absurd hi (not_lt_zero _)
  rw [length_read] at hi
  have hle := h.reuse_le
  have hpos : s.buf.pos lsn < s.buf.reservedBufferSize := mod_lt _ h.reserved
  rw [getElem?_read hpos (by omega) hi, pos_add hstart]
  have hfilled := h.readable (lsn + i) (by omega) (by omega)
  obtain ⟨c, hc⟩ := Option.isSome_iff_exists.mp hfilled
  rw [hc, h.held _ c (by omega) hc]

/-- An accepted fill leaves the cells of the other positions of the window alone: the window is one
ring long. -/
theorem Fills.window {b lsn data} {buf : ℕ → UInt8}
    (hbuf : Fills b lsn data b.dataBuf buf) (hR : 0 < b.reservedBufferSize)
    (havail : b.availableBufferSize ≤ b.reservedBufferSize) (hstart : b.startLsn ≤ lsn)
    (hreuse : b.reuseLsn ≤ lsn) (hend : lsn + data.length ≤ b.reuseLsn + b.availableBufferSize)
    {x} (hx : b.startLsn ≤ x)
    (hlow : b.reuseLsn ≤ x + (b.reservedBufferSize - b.availableBufferSize))
    (hhigh : x < b.reuseLsn + b.availableBufferSize) (hout : ¬(lsn ≤ x ∧ x < lsn + data.length)) :
    buf (b.pos x) = b.dataBuf (b.pos x) := by
  refine hbuf.outside _ (mod_lt _ hR) fun i hi => ?_
  rcases lt_or_ge x (lsn + i) with hlt | hge
  · exact (pos_ne hx hlt (by omega)).symm
  · exact pos_ne (by omega) (by omega) (by omega)

/-- **Reads return what was written.** After any sequence of operations the bytes of a successful
read are those filled last for its positions since the last truncation below them, and an accepted
fill overwrites no byte of the window around `reuse_lsn_` other than its own. -/
theorem readData_eq_filled (hs : groupBuffer.Reachable s) :
    (∀ lsn n bytes, s.buf.readData lsn n = .ok bytes →
      ∀ i, i < bytes.length → s.filled (lsn + i) = bytes[i]?) ∧
    (∀ lsn data b, s.Legal (.fill lsn data) → s.buf.fill lsn data = .ok b →
      ∀ x, s.buf.startLsn ≤ x →
        s.buf.reuseLsn ≤ x + (s.buf.reservedBufferSize - s.buf.availableBufferSize) →
        x < s.buf.reuseLsn + s.buf.availableBufferSize → ¬(lsn ≤ x ∧ x < lsn + data.length) →
        b.dataBuf (b.pos x) = s.buf.dataBuf (s.buf.pos x)) ∧
    (∀ lsn data size b, s.Legal (.fillPaddingBody lsn data size) →
      s.buf.fillPaddingBody lsn data size = .ok b → ∀ x, s.buf.startLsn ≤ x →
        s.buf.reuseLsn ≤ x + (s.buf.reservedBufferSize - s.buf.availableBufferSize) →
        x < s.buf.reuseLsn + s.buf.availableBufferSize → ¬(lsn ≤ x ∧ x < lsn + size) →
        b.dataBuf (b.pos x) = s.buf.dataBuf (s.buf.pos x)) := by
  have h := inv_of_reachable hs
  have havail := h.available
  refine ⟨fun lsn n bytes hread i hi => h.readData hread hi, ?_, ?_⟩
  · intro lsn data b (hreuse : s.buf.reuseLsn ≤ lsn) hfill x hx hlow hhigh hout
    unfold LogGroupBuffer.fill at hfill
    cases hcheck : s.buf.checkFill lsn (lsn + data.length) with
    | error e => rw [hcheck] at hfill; exact nomatch hfill
    | ok p =>
    obtain ⟨-, hstart, -, hend, rfl⟩ := checkFill_eq_ok.mp hcheck
    rw [hcheck] at hfill
    obtain ⟨⟩ := hfill
    exact (fills_write h.reserved hstart (by omega)).window h.reserved havail hstart hreuse hend hx
      hlow hhigh hout
  intro lsn data size b ⟨hreuse, hdata⟩ hfill x hx hlow hhigh hout
  unfold LogGroupBuffer.fillPaddingBody at hfill
  cases hcheck : s.buf.checkFill lsn (lsn + size) with
  | error e => rw [hcheck] at hfill; exact nomatch hfill
  | ok p =>
  obtain ⟨-, hstart, -, hend, rfl⟩ := checkFill_eq_ok.mp hcheck
  rw [hcheck] at hfill
  obtain ⟨⟩ := hfill
  have hbody : (paddingBody data size).length = size := by simp [paddingBody, hdata]
  exact (fills_padding h.reserved hstart hdata (by omega)).window h.reserved havail hstart hreuse
    (hbody.symm ▸ hend) hx hlow hhigh (hbody.symm ▸ hout)

/-- A byte is filled, the buffer is truncated to the last of the 41943040 cells, and two bytes are
filled there, of which the second one overwrites the first byte. -/
def wrapped : GroupBufferRun :=
  (((GroupBufferRun.step ⟨.init 0, fun _ => none⟩ (.fill 0 [1])).step (.truncate 41943039)).step
    (.fill 41943039 [7, 8])).step (.incUpdateReuseLsn 41943041)

theorem readData_eq_filled_wrapped :
    wrapped.buf.readData 41943039 5 = .ok [7, 8] ∧ wrapped.filled 41943040 = some 8 := by
  have hs : groupBuffer.Reachable wrapped := by
    refine .step (.step (.step (.step (.init ⟨0, rfl⟩) ⟨.fill 0 [1], Nat.zero_le _, rfl⟩)
      ⟨.truncate 41943039, trivial, rfl⟩) ⟨.fill 41943039 [7, 8], le_rfl, rfl⟩)
      ⟨.incUpdateReuseLsn 41943041, fun x hlow hx => ?_, rfl⟩
    obtain rfl | rfl : x = 41943039 ∨ x = 41943040 := by
      change 41943039 ≤ x at hlow
      omega
    · rfl
    · rfl
  have hread : wrapped.buf.readData 41943039 5 = .ok [7, 8] := by decide +kernel
  exact ⟨hread, (readData_eq_filled hs).1 _ 5 _ hread 1 (by decide)⟩

end Main

end OceanBase.Palf
