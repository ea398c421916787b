import OceanBase.Palf.LogGroup

/-!
# The checksum of a group that wraps around

A leader computes the checksum of a group over the group buffer, a ring in which the bytes may lie
in two pieces. The walk keeps its position from one piece to the next, and puts the header of an
entry together if the ring ends inside it. A follower walks over the contiguous bytes it has
received.

Both see the same entries: what lies behind the position of the leader, across the pieces, is what
lies behind that of the follower.

## Main results

* `calculateLogChecksum_eq`
-/

namespace OceanBase.Palf

open List

/-! ## Bytes -/

/-- `encode_i16`, `encode_i32` and `encode_i64`: `w` bytes, the most significant one first. -/
def encodeInt : ℕ → ℕ → List UInt8
  | 0, _ => []
  | w + 1, n => UInt8.ofNat (n / 256 ^ w) :: encodeInt w n

/-- `decode_i16`, `decode_i32` and `decode_i64`, with the bytes behind. -/
def decodeInt (w : ℕ) (buf : List UInt8) : ℕ × List UInt8 :=
  ((buf.take w).foldl (fun a b => a * 256 + b.toNat) 0, buf.drop w)

variable {w n : ℕ} {buf : List UInt8}

@[simp] theorem length_encodeInt : (encodeInt w n).length = w := by
  induction w with
  | zero => rfl
  | succ w ih => simp [encodeInt, ih]

theorem foldl_encodeInt (a : ℕ) :
    (encodeInt w n).foldl (fun a b => a * 256 + b.toNat) a = a * 256 ^ w + n % 256 ^ w := by
  induction w generalizing a with
  | zero => simp [encodeInt, Nat.mod_one]
  | succ w ih =>
  rw [encodeInt, foldl_cons, ih, Nat.mod_pow_succ (b := 256), UInt8.toNat_ofNat']
  ring

theorem decodeInt_encodeInt (h : n < 256 ^ w) : decodeInt w (encodeInt w n ++ buf) = (n, buf) := by
  rw [decodeInt, take_left' length_encodeInt, drop_left' length_encodeInt, foldl_encodeInt,
    Nat.mod_eq_of_lt h, Nat.zero_mul, Nat.zero_add]

/-- `parity_check`: there is an odd number of ones. -/
def parityCheck {w : ℕ} (x : BitVec w) : Bool := x.toNat.bits.count true % 2 == 1

/-! ## Headers -/

structure LogEntryHeader where
  magic : BitVec 16
  version : BitVec 16
  logSize : BitVec 32
  scn : BitVec 64
  dataChecksum : BitVec 64
  flag : BitVec 64

namespace LogEntryHeader

variable (h : LogEntryHeader)

def magicNumber : BitVec 16 := 0x4C48

/-- `get_data_len`, of a header with a positive size. -/
def dataLen : ℕ := h.logSize.toInt.toNat

def isValid : Bool := h.magic = magicNumber ∧ 0 < h.logSize.toInt ∧ scnIsValid h.scn.toNat

/-- `get_header_parity_check_res_`: the lowest bit of the flag is left out. -/
def headerParity : Bool :=
  parityCheck h.magic ^^ parityCheck h.version ^^ parityCheck h.logSize ^^ parityCheck h.scn ^^
    parityCheck h.dataChecksum ^^ parityCheck (h.flag &&& ~~~1)

def checkHeaderChecksum : Bool := h.headerParity == (h.flag &&& 1 == 1)

def checkHeaderIntegrity : Bool := h.isValid && h.checkHeaderChecksum

def isPaddingLog : Bool := h.flag &&& 2 != 0

/-- `check_integrity`: of the data of a padding log only the base header counts. -/
def checkIntegrity (crc : List UInt8 → BitVec 64) (data : List UInt8) : Bool :=
  !data.isEmpty && h.magic == magicNumber && h.checkHeaderChecksum && h.dataChecksum ==
    crc (if h.isPaddingLog then data.take (paddingLogEntrySize - logEntryHeaderSerSize) else data)

def serialize : List UInt8 :=
  encodeInt 2 h.magic.toNat ++ (encodeInt 2 h.version.toNat ++ (encodeInt 4 h.logSize.toNat ++
    (encodeInt 8 h.scn.toNat ++ (encodeInt 8 h.dataChecksum.toNat ++ encodeInt 8 h.flag.toNat))))

def transformMax (scn : ℕ) : ℕ := if scn = 2 ^ 63 - 1 then maxScn else scn

def deserialize (buf : List UInt8) : Option LogEntryHeader :=
  let magic := decodeInt 2 buf
  let version := decodeInt 2 magic.2
  let logSize := decodeInt 4 version.2
  let scn := decodeInt 8 logSize.2
  let dataChecksum := decodeInt 8 scn.2
  let flag := decodeInt 8 dataChecksum.2
  let h : LogEntryHeader := ⟨.ofNat _ magic.1, .ofNat _ version.1, .ofNat _ logSize.1,
    .ofNat _ (transformMax scn.1), .ofNat _ dataChecksum.1, .ofNat _ flag.1⟩
  if buf.length < logEntryHeaderSerSize then none
  else if h.checkHeaderIntegrity then some h else none

variable {h}

@[simp] theorem length_serialize : h.serialize.length = logEntryHeaderSerSize := by
  simp [serialize, logEntryHeaderSerSize]

theorem deserialize_serialize (hi : h.checkHeaderIntegrity = true) (buf : List UInt8) :
    deserialize (h.serialize ++ buf) = some h := by
  have hscn : transformMax h.scn.toNat = h.scn.toNat := by
    have hvalid : scnIsValid h.scn.toNat :=
      (of_decide_eq_true (Bool.and_eq_true_iff.mp hi).1).2.2
    unfold scnIsValid maxScn at hvalid
    exact if_neg (by omega)
  have hlen : ¬ (h.serialize ++ buf).length < logEntryHeaderSerSize := by simp
  unfold deserialize
  simp only [if_neg hlen]
  simp only [serialize, append_assoc]
  rw [decodeInt_encodeInt (w := 2) h.magic.isLt, decodeInt_encodeInt (w := 2) h.version.isLt,
    decodeInt_encodeInt (w := 4) h.logSize.isLt, decodeInt_encodeInt (w := 8) h.scn.isLt,
    decodeInt_encodeInt (w := 8) h.dataChecksum.isLt, decodeInt_encodeInt (w := 8) h.flag.isLt]
  simp only [hscn, BitVec.ofNat_toNat, BitVec.setWidth_eq, hi, if_true]

end LogEntryHeader

/-- `LogEntry`: a header and the data it was made for. -/
structure WrittenEntry (crc : List UInt8 → BitVec 64) where
  header : LogEntryHeader
  data : List UInt8
  dataLen : header.dataLen = data.length
  valid : header.checkHeaderIntegrity = true
  intact : header.checkIntegrity crc data = true

/-- `LogEntry::serialize`, of consecutive entries. -/
def bytesOf {crc : List UInt8 → BitVec 64} (es : List (WrittenEntry crc)) : List UInt8 :=
  es.flatMap fun e => e.header.serialize ++ e.data

/-! ## The two walks -/

open LogEntryHeader (deserialize deserialize_serialize length_serialize)

/-- The bytes a header is read from, and where the walk is behind it. -/
structure Located where
  bytes : List UInt8
  curr : List UInt8
  rest : List (List UInt8)
  pos : ℕ

/-- The next header from `pos` in the piece `curr` on. There is none at the end of the last piece;
the outer `none` is a failed assertion. -/
def locate (curr : List UInt8) (rest : List (List UInt8)) (pos : ℕ) : Option (Option Located) :=
  if curr.length ≤ pos then
    match rest with
    | [] => some none
    | next :: rest =>
      if pos - curr.length = next.length then some none
      else if pos - curr.length < next.length then
        some (some ⟨next.drop (pos - curr.length), next, rest,
          pos - curr.length + logEntryHeaderSerSize⟩)
      else none
  else if curr.length - pos < logEntryHeaderSerSize then
    -- the first part of the header is copied from this piece, the second part from the next one
    match rest with
    | [] => none
    | next :: rest =>
      some (some ⟨curr.drop pos ++ next.take (logEntryHeaderSerSize - (curr.length - pos)), next,
        rest, logEntryHeaderSerSize - (curr.length - pos)⟩)
  else some (some ⟨curr.drop pos, curr, rest, pos + logEntryHeaderSerSize⟩)

section

variable (crc : List UInt8 → BitVec 64) (crc64 : BitVec 64 → BitVec 64 → BitVec 64)

def calculateLoop : ℕ → List UInt8 → List (List UInt8) → ℕ → BitVec 64 → Option (BitVec 64)
  | 0, _, _, _, _ => none
  | fuel + 1, curr, rest, pos, sum => (locate curr rest pos).bind fun
    | none => some sum
    | some l => (deserialize l.bytes).bind fun h =>
      calculateLoop fuel l.curr l.rest (l.pos + h.dataLen) (crc64 sum h.dataChecksum)

/-- `calculate_log_checksum_` over the pieces of a buffer. -/
def calculateLogChecksum (isPaddingLog : Bool) (dataLen : ℕ) :
    List (List UInt8) → Option (BitVec 64)
  | [] => none
  | curr :: rest =>
    if isPaddingLog then some 0
    else if dataLen + logGroupEntryHeaderSize ≠ (curr :: rest).flatten.length then none
    else calculateLoop crc64 (dataLen + 1) curr rest logGroupEntryHeaderSize 0

/-- The loop of `check_log_checksum_`, over the bytes that are left. -/
def checkLoop : ℕ → List UInt8 → BitVec 64 → Option (BitVec 64)
  | 0, _, _ => none
  | fuel + 1, buf, sum =>
    if buf.isEmpty then some sum
    else (deserialize buf).bind fun h =>
      if buf.length - logEntryHeaderSerSize < h.dataLen then none
      else if h.checkIntegrity crc ((buf.drop logEntryHeaderSerSize).take h.dataLen) then
        checkLoop fuel (buf.drop (logEntryHeaderSerSize + h.dataLen)) (crc64 sum h.dataChecksum)
      else none

/-- `check_log_checksum_` over a contiguous body. -/
def checkGroupChecksum (isPaddingLog : Bool) (buf : List UInt8) : Option (BitVec 64) :=
  if isPaddingLog then some 0 else checkLoop crc crc64 (buf.length + 1) buf 0

end

variable {crc : List UInt8 → BitVec 64} {crc64 : BitVec 64 → BitVec 64 → BitVec 64}
  {es : List (WrittenEntry crc)} {curr : List UInt8} {rest : List (List UInt8)} {pos fuel : ℕ}
  {sum : BitVec 64}

def sumOf (crc64 : BitVec 64 → BitVec 64 → BitVec 64) (sum : BitVec 64)
    (es : List (WrittenEntry crc)) : BitVec 64 :=
  es.foldl (fun a e => crc64 a e.header.dataChecksum) sum

theorem length_le_bytesOf : es.length ≤ (bytesOf es).length := by
  induction es with
  | nil => exact le_rfl
  | cons e es ih =>
  simp only [bytesOf, flatMap_cons, length_append, length_cons, length_serialize]
    at ih ⊢
  unfold logEntryHeaderSerSize
  omega

section

variable (e : WrittenEntry crc)
include e

theorem bytesOf_cons :
    bytesOf (e :: es) = e.header.serialize ++ (e.data ++ bytesOf es) := by
  simp [bytesOf]

theorem not_isEmpty_bytesOf : ¬ (bytesOf (e :: es)).isEmpty = true := by
  rw [bytesOf_cons, List.isEmpty_iff]
  exact append_ne_nil_of_left_ne_nil (ne_nil_of_length_pos (by rw [length_serialize]; decide)) _

theorem deserialize_bytesOf :
    deserialize (bytesOf (e :: es)) = some e.header := by
  rw [bytesOf_cons, deserialize_serialize e.valid]

theorem drop_header_bytesOf :
    (bytesOf (e :: es)).drop logEntryHeaderSerSize = e.data ++ bytesOf es := by
  rw [bytesOf_cons, drop_left' length_serialize]

theorem drop_bytesOf :
    (bytesOf (e :: es)).drop (logEntryHeaderSerSize + e.header.dataLen) = bytesOf es := by
  rw [← drop_drop, drop_header_bytesOf, drop_left' e.dataLen.symm]

end

theorem checkLoop_eq :
    checkLoop crc crc64 (fuel + es.length + 1) (bytesOf es) sum = some (sumOf crc64 sum es) := by
  induction es generalizing sum with
  | nil => rfl
  | cons e es ih =>
  have hfits : ¬ (bytesOf (e :: es)).length - logEntryHeaderSerSize < e.header.dataLen := by
    rw [← length_drop, drop_header_bytesOf, length_append, e.dataLen]
    omega
  rw [checkLoop, if_neg (not_isEmpty_bytesOf e), deserialize_bytesOf, Option.bind_some,
    if_neg hfits, drop_bytesOf, drop_header_bytesOf, take_left' e.dataLen.symm, if_pos e.intact]
  exact ih

/-- **The next header is found**, in one piece or in two. -/
theorem locate_eq (hrest : rest = [] ∨ ∃ next, rest = [next]) {hdr tail : List UInt8}
    (hlen : hdr.length = logEntryHeaderSerSize)
    (h : (curr ++ rest.flatten).drop pos = hdr ++ tail) :
    ∃ l, locate curr rest pos = some (some l) ∧ (∃ more, l.bytes = hdr ++ more) ∧
      (l.rest = [] ∨ ∃ next, l.rest = [next]) ∧ (l.curr ++ l.rest.flatten).drop l.pos = tail := by
  have hpos : 0 < hdr.length := by rw [hlen]; decide
  have hlong := congrArg length h
  rw [length_drop, length_append, length_append] at hlong
  unfold locate
  by_cases hend : curr.length ≤ pos
  · rw [if_pos hend]
    rcases hrest with rfl | ⟨next, rfl⟩
    · rw [flatten_nil, length_nil] at hlong
      omega
    rw [flatten_singleton] at h hlong
    rw [drop_append, drop_eq_nil_of_le hend, nil_append] at h
    dsimp only
    rw [if_neg (by omega), if_pos (by omega)]
    refine ⟨_, rfl, ⟨tail, h⟩, .inl rfl, ?_⟩
    rw [flatten_nil, append_nil, ← drop_drop, h, drop_left' hlen]
  rw [if_neg hend]
  have hdrop := h
  rw [drop_append_of_le_length (not_le.mp hend).le] at hdrop
  have htake := congrArg (take logEntryHeaderSerSize) hdrop
  by_cases hwrap : curr.length - pos < logEntryHeaderSerSize
  · rw [if_pos hwrap]
    rcases hrest with rfl | ⟨next, rfl⟩
    · rw [flatten_nil, length_nil] at hlong
      omega
    -- the two parts of the header are the first bytes of what lies behind the position
    have htail := congrArg (List.drop logEntryHeaderSerSize) hdrop
    have hshort : (curr.drop pos).length ≤ logEntryHeaderSerSize := by rw [length_drop]; omega
    rw [flatten_singleton] at htake htail
    rw [take_append, length_drop, take_left' hlen, take_of_length_le hshort] at htake
    rw [drop_append, length_drop, drop_left' hlen, drop_eq_nil_of_le hshort, nil_append] at htail
    refine ⟨_, rfl, ⟨[], ?_⟩, .inl rfl, ?_⟩
    · rw [append_nil]
      exact htake
    · rw [flatten_nil, append_nil]
      exact htail
  · rw [if_neg hwrap]
    refine ⟨_, rfl, ⟨(curr.drop pos).drop logEntryHeaderSerSize, ?_⟩, hrest, ?_⟩
    · rw [take_append_of_le_length (by rw [length_drop]; omega), take_left' hlen] at htake
      rw [← htake, take_append_drop]
    · rw [← drop_drop, h, drop_left' hlen]

theorem calculateLoop_eq (hrest : rest = [] ∨ ∃ next, rest = [next])
    (hpos : pos ≤ (curr ++ rest.flatten).length)
    (h : (curr ++ rest.flatten).drop pos = bytesOf es) :
    calculateLoop crc64 (fuel + es.length + 1) curr rest pos sum = some (sumOf crc64 sum es) := by
  induction es generalizing curr rest pos sum with
  | nil =>
    have hend : pos = (curr ++ rest.flatten).length := le_antisymm hpos (drop_eq_nil_iff.mp h)
    rw [length_append] at hend
    have hnone : locate curr rest pos = some none := by
      unfold locate
      rw [if_pos (by omega)]
      rcases hrest with rfl | ⟨next, rfl⟩
      · rfl
      rw [flatten_singleton] at hend
      exact if_pos (by omega)
    rw [calculateLoop, hnone]
    rfl
  | cons e es ih =>
  rw [bytesOf_cons] at h
  obtain ⟨l, hl, ⟨more, hbytes⟩, hrest', htail⟩ := locate_eq hrest length_serialize h
  rw [calculateLoop, hl]
  simp only [Option.bind_some, hbytes, deserialize_serialize e.valid]
  have hdata : 0 < e.data.length := by
    have hi := e.intact
    simp only [LogEntryHeader.checkIntegrity, Bool.and_eq_true, Bool.not_eq_true'] at hi
    exact length_pos_of_ne_nil fun hnil => by simp [hnil] at hi
  have hlong : (l.curr ++ l.rest.flatten).length - l.pos = e.data.length + (bytesOf es).length := by
    rw [← length_drop, htail, length_append]
  refine ih hrest' (by rw [e.dataLen]; omega) ?_
  rw [← drop_drop, htail, drop_left' e.dataLen.symm]

theorem checkGroupChecksum_eq (es : List (WrittenEntry crc)) :
    checkGroupChecksum crc crc64 false (bytesOf es) = some (sumOf crc64 0 es) := by
  obtain ⟨fuel, hfuel⟩ := Nat.exists_eq_add_of_le' (@length_le_bytesOf crc es)
  rw [checkGroupChecksum, if_neg Bool.false_ne_true, hfuel]
  exact checkLoop_eq

theorem calculateLogChecksum_pieces {header : List UInt8}
    (hheader : header.length = logGroupEntryHeaderSize) {bufs : List (List UInt8)}
    (hbufs : bufs.flatten = header ++ bytesOf es) (hcnt : bufs.length = 1 ∨ bufs.length = 2) :
    calculateLogChecksum crc64 false (bytesOf es).length bufs = some (sumOf crc64 0 es) := by
  obtain ⟨fuel, hfuel⟩ := Nat.exists_eq_add_of_le' (@length_le_bytesOf crc es)
  obtain ⟨curr, rest, rfl, hrest⟩ : ∃ curr rest, bufs = curr :: rest ∧
      (rest = [] ∨ ∃ next, rest = [next]) := by
    rcases hcnt with h | h
    · obtain ⟨a, rfl⟩ := length_eq_one_iff.mp h
      exact ⟨a, [], rfl, .inl rfl⟩
    · obtain ⟨a, b, rfl⟩ := length_eq_two.mp h
      exact ⟨a, [b], rfl, .inr ⟨b, rfl⟩⟩
  have hlen := congrArg length hbufs
  rw [length_append, hheader] at hlen
  rw [calculateLogChecksum, if_neg Bool.false_ne_true, if_neg (by omega), hfuel]
  rw [flatten_cons] at hbufs hlen
  exact calculateLoop_eq hrest (by omega) (by rw [hbufs, drop_left' hheader])

/-- **Leader and follower compute the same checksum**: for every sequence of entries behind a group
header, and every way to split the buffer into one or two pieces, the checksum over the pieces is
the one over the contiguous body. -/
theorem calculateLogChecksum_eq (es : List (WrittenEntry crc)) (header : List UInt8)
    (hheader : header.length = logGroupEntryHeaderSize) {bufs : List (List UInt8)}
    (hbufs : bufs.flatten = header ++ bytesOf es) (hcnt : bufs.length = 1 ∨ bufs.length = 2) :
    ∃ sum, calculateLogChecksum crc64 false (bytesOf es).length bufs = some sum ∧
      checkGroupChecksum crc crc64 false (bytesOf es) = some sum :=
  ⟨_, calculateLogChecksum_pieces hheader hbufs hcnt, checkGroupChecksum_eq es⟩

def singleByte : WrittenEntry (BitVec.ofNat 64 ·.length) where
  header := ⟨LogEntryHeader.magicNumber, 1, 1, 9, 1, 0⟩
  data := [7]
  dataLen := by decide
  valid := by decide +kernel
  intact := by decide +kernel

theorem calculateLogChecksum_eq_wrapped : ∃ sum, calculateLogChecksum (· + ·) false 66
        [replicate 56 0 ++ (bytesOf [singleByte, singleByte]).take 40,
          (bytesOf [singleByte, singleByte]).drop 40] = some sum ∧
      checkGroupChecksum (BitVec.ofNat 64 ·.length) (· + ·) false (bytesOf [singleByte, singleByte])
        = some sum :=
  calculateLogChecksum_eq [singleByte, singleByte] (replicate 56 0) (by decide)
    (by decide +kernel) (.inr rfl)

end OceanBase.Palf
