import OceanBase.Lib.LexCode

/-!
# The sort key encoder for strings

`ENCODE_SORTKEY` turns the columns of a row into one string, so that rows can be compared by
`memcmp`. Each column starts with a byte for its nullness. A string is coded in one of two ways:
where strings compare byte by byte, a 0 byte is escaped and the code ends with two 0 bytes; where
they compare as if padded with spaces, trailing spaces are dropped, a run of spaces is coded by what
follows it and its length, and the code ends with two spaces. The bytes of a descending column are
complemented.

A read outside the string is an error of its own here, `outOfBounds`. The columns are nullable, as
`eval_encode_sortkey` makes them, and are not all types and collations: numbers, and the collations
that go through `ObCharset::sortkey_var_len`, are left out.
-/

namespace OceanBase.Sortkey

open LexCode

abbrev Byte := Fin 256

instance neZero256 : NeZero 256 := ⟨by decide⟩

inductive EncErr
  /-- `OB_BUF_NOT_ENOUGH` -/
  | bufNotEnough
  /-- a byte outside the string is read -/
  | outOfBounds
  deriving DecidableEq

/-- The collations of the two codes. -/
inductive CollationType
  | collationFree
  | binary
  | utf8mb4Bin
  | gbkBin
  | gb18030Bin
  | gb180302022Bin
  deriving DecidableEq

structure EncParam where
  csType : CollationType
  isAsc : Bool
  isNullFirst : Bool
  isMemcmp : Bool

/-- The collations without padding. -/
def CollationType.isBinary (cs : CollationType) : Bool := cs = .collationFree ∨ cs = .binary

/-- The byte `*(str + i)`. -/
def readByte (str : List Byte) (i : ℕ) : Except EncErr Byte :=
  match str[i]? with
  | some b => .ok b
  | none => .error .outOfBounds

/-- `convert_ob_charset_utf8mb4_bin`: its loop reads one byte after the other. -/
def convertObCharsetUtf8mb4Bin : List Byte → List Byte
  | [] => [0x00, 0x00]
  | b :: str => (if b = 0x00 then [b, 0x01] else [b]) ++ convertObCharsetUtf8mb4Bin str

section Sp

variable (str : List Byte)

/-- The loop that drops trailing spaces, from the end `n` on. It reads `*(d_e - 1)` before it
compares `d_e - 1` with `data`. -/
def trimEnd : ℕ → Except EncErr ℕ
  | 0 => .error .outOfBounds
  | n + 1 => do
    let b ← readByte str n
    if b = 0x20 then trimEnd n else .ok (n + 1)

/-- The loop over a run of spaces at `data`: its length in 16 bits, and where it ends. -/
def countSpaces (dE : ℕ) : ℕ → ℕ → ℕ → Except EncErr (ℕ × ℕ)
  | 0, _, _ => .error .outOfBounds
  | fuel + 1, data, spCnt => do
    let b ← readByte str data
    if b = 0x20 then
      countSpaces dE fuel (data + 1) (if data + 1 = dE then 0 else (spCnt + 1) % 2 ^ 16)
    else .ok (spCnt, data)

/-- The code of a run of spaces before the byte `b`: the side of `b`, and the length, complemented
on the side above the space. -/
def spaceCode (spCnt : ℕ) (b : Byte) : List Byte :=
  let spCntMask := if 0x20 < b then 0xFFFF else 0
  let spCnt := (spCnt ^^^ spCntMask) ^^^ 0x8000
  [0x20, if 0x20 < b then 0x21 else 0x19, Fin.ofNat 256 (spCnt / 256), Fin.ofNat 256 spCnt]

def spLoop (dE : ℕ) : ℕ → ℕ → Except EncErr (List Byte)
  | 0, _ => .error .outOfBounds
  | fuel + 1, data =>
    if data < dE then do
      let b ← readByte str data
      if b = 0x20 then
        let (spCnt, data) ← countSpaces str dE (str.length + 1) data 0
        let b ← readByte str data
        let out ← spLoop dE fuel (data + 1)
        .ok (spaceCode spCnt b ++ b :: out)
      else
        let out ← spLoop dE fuel (data + 1)
        .ok (b :: out)
    else .ok [0x20, 0x20]

def convertObCharsetUtf8mb4BinSp : Except EncErr (List Byte) := do
  let dE ← trimEnd str str.length
  spLoop str dE (dE + 1) 0

end Sp

def encodeTails (isMem : Bool) (cs : CollationType) (withEmptyStr : Bool) : List Byte :=
  (if withEmptyStr then [0x00] else []) ++
    if cs.isBinary then [0x00, 0x00]
    else if isMem then [0x00, 0x00] else [0x20, 0x20]

/-- `encode_from_string_varlen`, where `toLen` bytes are there already. -/
def encodeFromStringVarlen (str : List Byte) (maxBufLen toLen : ℕ) (param : EncParam) :
    Except EncErr (List Byte) :=
  if maxBufLen < toLen + 7 * str.length + 20 then .error .bufNotEnough
  else if str = [] ∨ str = [0x00] then
    if maxBufLen < toLen + 8 then .error .bufNotEnough
    else .ok (encodeTails param.isMemcmp param.csType (str = [0x00]))
  else if param.csType.isBinary then .ok (convertObCharsetUtf8mb4Bin str)
  else if param.isMemcmp then .ok (convertObCharsetUtf8mb4Bin str)
  else convertObCharsetUtf8mb4BinSp str

def processDecrease (out : List Byte) : List Byte := out.map (· ^^^ 0xFF)

/-- The byte for the nullness of a column. -/
def nullByte (param : EncParam) (data : Option (List Byte)) : Byte :=
  if data.isNone then if param.isNullFirst then 0x00 else 0x02 else 0x01

def processKeyConditioning (data : Option (List Byte)) (maxBufLen : ℕ) (param : EncParam) :
    Except EncErr (List Byte) :=
  if maxBufLen < 1 then .error .bufNotEnough
  else
    match data with
    | none => .ok [nullByte param none]
    | some str => do
      let out ← encodeFromStringVarlen str maxBufLen 1 param
      if maxBufLen < 1 + out.length then .error .bufNotEnough
      else .ok (nullByte param (some str) :: if param.isAsc then out else processDecrease out)

abbrev Row := List (Option (List Byte))

/-- The loop over the columns in `eval_encode_sortkey`, in a buffer of `maxLen` bytes. -/
def encodeRow (maxLen : ℕ) : List EncParam → Row → ℕ → Except EncErr (List Byte)
  | param :: params, data :: row, dataLen => do
    let out ← processKeyConditioning data (maxLen - dataLen) param
    let rest ← encodeRow maxLen params row (dataLen + out.length)
    .ok (out ++ rest)
  | _, _, _ => .ok []

/-- `eval_encode_sortkey`: the buffer is doubled as long as it is too small. -/
def evalEncodeSortkey (params : List EncParam) (row : Row) : ℕ → ℕ → Except EncErr (List Byte)
  | 0, _ => .error .bufNotEnough
  | fuel + 1, maxLen =>
    match encodeRow maxLen params row 0 with
    | .error .bufNotEnough => evalEncodeSortkey params row fuel (maxLen * 2)
    | result => result

/-! ## The order of rows -/

/-- Spaces compared with a string that is padded with spaces. -/
def spacesCmp : List Byte → Ordering
  | [] => .eq
  | b :: t => (cmp 0x20 b).then (spacesCmp t)

/-- Strings compared as if both were padded with spaces. -/
def padCmp : List Byte → List Byte → Ordering
  | [], t => spacesCmp t
  | a :: s, [] => (cmp a 0x20).then (padCmp s [])
  | a :: s, b :: t => (cmp a b).then (padCmp s t)

/-- Whether a column compares byte by byte. -/
def EncParam.bytewise (param : EncParam) : Bool := param.isMemcmp || param.csType.isBinary

def EncParam.strCmp (param : EncParam) (v w : List Byte) : Ordering :=
  if param.bytewise then lexCmp v w else padCmp v w

def EncParam.colCmp (param : EncParam) : Option (List Byte) → Option (List Byte) → Ordering
  | none, none => .eq
  | none, some _ => if param.isNullFirst then .lt else .gt
  | some _, none => if param.isNullFirst then .gt else .lt
  | some v, some w => if param.isAsc then param.strCmp v w else (param.strCmp v w).swap

def rowCmp : List EncParam → Row → Row → Ordering
  | param :: params, v :: r, w :: r' => (param.colCmp v w).then (rowCmp params r r')
  | _, _, _ => .eq

end OceanBase.Sortkey
