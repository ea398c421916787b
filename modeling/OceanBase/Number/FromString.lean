import OceanBase.Number.ObNumber

/-!
# Numbers from strings

`from_v3_` reads a decimal string in three passes. `find_point_range_` finds the sign, the integer
digits without leading zeros and the decimal digits. `construct_digits_` packs the digits in groups
of nine from the point outwards, into at most ten words, and computes the exponent of the first one.
The exponent goes into its seven bits, the words are rounded, and only then the exponent is checked.

Here the two ranges are the characters themselves and not their positions in the string. The
precision and scale that `find_point_range_` can report on the side are left out.
-/

namespace OceanBase.Number

def obCalcBufferSize : ℕ := 10

def isSpace (c : Char) : Bool :=
  c = ' ' ∨ c = '\t' ∨ c = '\n' ∨ c = '\x0b' ∨ c = '\x0c' ∨ c = '\r'

structure PointRange where
  negative : Bool
  /-- `[start_idx, floating_point)` -/
  ints : List Char
  /-- `[floating_point + 1, end_idx)` -/
  decs : List Char
  /-- `warning` is `OB_INVALID_NUMERIC` -/
  invalidNumeric : Bool

/-- The part of `find_point_range_` after the sign: leading zeros are ignored, then come the integer
digits, and after a point the decimal digits. -/
def findDigits (negative : Bool) (str : List Char) : PointRange :=
  let str := str.dropWhile (· = '0')
  let ints := str.takeWhile Char.isDigit
  match str.dropWhile Char.isDigit with
  | [] => ⟨negative, ints, [], false⟩
  | c :: rest =>
    if c = '.' then
      ⟨negative, ints, rest.takeWhile Char.isDigit, (rest.dropWhile Char.isDigit).isEmpty = false⟩
    else ⟨negative, ints, [], true⟩

def findPointRange (str : List Char) : Except NumErr PointRange :=
  if str.length = 0 then .error .invalidArgument
  else
    match (str.dropWhile isSpace).rdropWhile isSpace with
    | [] => .ok ⟨false, [], [], true⟩
    | c :: rest =>
      .ok <| if c = '+' then findDigits false rest
        else if c = '-' then findDigits true rest
        else findDigits false (c :: rest)

/-- `atoi_positive_unchecked`; its at most nine digits do not overflow 32 bits. -/
def atoiPositiveUnchecked (s : List Char) : ℕ :=
  s.foldl (fun r c => r * 10 + (c.toNat - '0'.toNat)) 0

/-- The loop over the integer digits, for at most `room` words; the first word has `step` digits. -/
def intLoop : ℕ → ℕ → List Char → List ℕ
  | 0, _, _ => []
  | room + 1, step, s =>
    if s = [] then []
    else atoiPositiveUnchecked (s.take step) :: intLoop room digitLen (s.drop step)

/-- The loop over the decimal digits. A last word with fewer digits is filled up with zeros. -/
def decLoop : ℕ → ℕ → List Char → List ℕ
  | 0, _, _ => []
  | room + 1, step, s =>
    if s = [] then []
    else
      (if step < s.length then atoiPositiveUnchecked (s.take step)
        else atoiPositiveUnchecked s * 10 ^ (step - s.length)) :: decLoop room digitLen
          (s.drop step)

/-- `construct_digits_`: the words, without zeros at their end, and the exponent of the first
one. -/
def constructDigits (ints decs : List Char) (len : ℕ) : List ℕ × ℤ :=
  if ints = [] then
    if decs = [] then ([], 0)
    else
      let rest := decs.dropWhile (· = '0')
      let zeros := decs.length - rest.length
      (trimZeros (decLoop len (digitLen - zeros % digitLen) rest), -(zeros / digitLen + 1 : ℕ))
  else
    let words := intLoop len ((ints.length - 1) % digitLen + 1) ints
    (trimZeros (words ++ decLoop (len - words.length) digitLen decs),
      ((ints.length - 1) / digitLen : ℕ))

def fromV3 (str : List Char) (doRounding : Bool) : Except NumErr ObNumber := do
  let range ← findPointRange str
  let (digits, exp) := constructDigits range.ints range.decs obCalcBufferSize
  let d : ObNumber := ⟨range.negative, calcExp range.negative exp, digits⟩
  if d.digits.length = 0 then return zero
  else if doRounding then (d.roundScaleV3 floatingScale true).checked
  else d.checked

/-! ## Decimal strings -/

/-- An optional sign, digits, and optionally a point with digits. -/
structure Literal where
  /-- `some true` is a minus sign -/
  sign : Option Bool
  ints : List (Fin 10)
  decs : Option (List (Fin 10))

namespace Literal

def digitChar (d : Fin 10) : Char := Char.ofNat ('0'.toNat + d)

section

variable (l : Literal)

def text : List Char :=
  (match l.sign with
    | none => []
    | some false => ['+']
    | some true => ['-']) ++
  l.ints.map digitChar ++
  match l.decs with
  | none => []
  | some ds => '.' :: ds.map digitChar

def negative : Bool := l.sign = some true

def decDigits : List ℕ := (l.decs.getD []).map Fin.val

def magnitude : ℚ :=
  natVal 10 (l.ints.map Fin.val ++ l.decDigits) / 10 ^ l.decDigits.length

/-- **The number that the string denotes.** -/
def value : ℚ := (if l.negative then -1 else 1) * l.magnitude

end

end Literal

end OceanBase.Number
