import OceanBase.Lib.RadixWords

/-!
# Numbers in base 10⁹

An `ObNumber` is a sign, an exponent and at most nine words of nine decimal digits. The exponent of
the first word is kept in seven bits: shifted by 64, and complemented for a negative number, so that
descriptors compare as numbers do. A calculation leaves up to ten words, and `round_scale_v3_`
brings them to 72 digits. This is the behaviour in MySQL mode; an allocation of words does not fail
here.
-/

namespace OceanBase.Number

def base : ℕ := 1000000000

def maxValuedDigit : ℕ := base - 1

/-- `DIGIT_LEN`, and `MAX_STORE_LEN` -/
def digitLen : ℕ := 9

def floatingScale : ℤ := 72

def maxIntegerExp : ℤ := 14

def maxDecimalExp : ℤ := 15

def expZero : ℤ := 64

/-- A number. The length `len_` is the number of words, and the seven bits of `exp_` wrap around. -/
structure ObNumber where
  /-- `sign_` is `NEGATIVE` -/
  negative : Bool
  exp : BitVec 7
  digits : List ℕ
  deriving DecidableEq

inductive NumErr
  /-- `OB_INVALID_ARGUMENT` -/
  | invalidArgument
  /-- `OB_INTEGER_PRECISION_OVERFLOW` -/
  | integerPrecisionOverflow
  /-- `OB_DECIMAL_PRECISION_OVERFLOW` -/
  | decimalPrecisionOverflow
  /-- `OB_ERROR_OUT_OF_RANGE` -/
  | errorOutOfRange
  deriving DecidableEq

/-! ## The descriptor -/

def zero : ObNumber := ⟨false, 0, []⟩

/-- The exponent field of an exponent: `0x7f & (uint8_t)(EXP_ZERO + exp)`, complemented for a
negative number. -/
def calcExp (negative : Bool) (exp : ℤ) : BitVec 7 :=
  let field := BitVec.ofInt 7 (expZero + exp)
  if negative then ~~~field + 1 else field

section

variable (x : ObNumber)

/-- `get_decode_exp`; on the 64 bits of `e`, `0x7f & ~e` is `127 - e`. -/
def ObNumber.getDecodeExp : ℤ :=
  let e : ℤ := x.exp.toNat
  (if x.negative ∧ e ≠ expZero then 127 - e + 1 else e) - expZero

def ObNumber.isLt1 : Prop :=
  x.negative = true ∧ expZero < x.exp.toNat ∨
    x.negative = false ∧ 0 < x.exp.toNat ∧ (x.exp.toNat : ℤ) < expZero
  deriving Decidable

def ObNumber.isGe1 : Prop :=
  x.negative = true ∧ (x.exp.toNat : ℤ) ≤ expZero ∨ x.negative = false ∧ expZero ≤ x.exp.toNat
  deriving Decidable

def ObNumber.expCheck : Except NumErr Unit :=
  let exp := |(x.exp.toNat : ℤ) - expZero|
  if x.isGe1 ∧ maxIntegerExp < exp then .error .integerPrecisionOverflow
  else if maxDecimalExp < exp ∧ x.isLt1 then .error .decimalPrecisionOverflow
  else .ok ()

/-- What the callers of `exp_check_` do: a decimal overflow is replaced by zero, and an integer
overflow is returned. -/
def ObNumber.checked : Except NumErr ObNumber :=
  match x.expCheck with
  | .ok () => .ok x
  | .error .decimalPrecisionOverflow => .ok zero
  | .error e => .error e

/-- The number that the words stand for: the first one has the exponent of the descriptor. -/
def ObNumber.value : ℚ :=
  (if x.negative then -1 else 1) * (fracVal base x.digits * (base : ℚ) ^ x.getDecodeExp)

end

/-! ## Rounding -/

def obFastDigits10 (v : ℕ) : ℕ :=
  if v < 10 then 1
  else if v < 100 then 2
  else if v < 1000 then 3
  else if v < 100000000 then
    if v < 1000000 then
      if v < 10000 then 4 else if 100000 ≤ v then 6 else 5
    else if 10000000 ≤ v then 8 else 7
  else 9

def getDigitLenV2 (d : ℕ) : ℕ := if base ≤ d then 0 else obFastDigits10 d

def roundPows : List ℕ :=
  [1000000000, 100000000, 10000000, 1000000, 100000, 10000, 1000, 100, 10, 1000000000]

def trimZeros (ws : List ℕ) : List ℕ := ws.rdropWhile (· = 0)

/-- The loop that carries one into the words before the rounded one, the last of them first. It ends
at a word that is not full; without one, no word is left. -/
def carryUp : List ℕ → List ℕ
  | [] => []
  | w :: ws => if w = maxValuedDigit then carryUp ws else (w + 1) :: ws

/-- What `round_scale_v3_` decides to do from the position of the point. -/
inductive RoundAt
  | nothing
  | setZero
  | setOne
  /-- round the word `digitId` by `ROUND_POWS[powId]`, after `len_` is set to `len` -/
  | digit (len digitId powId : ℤ)

/-- The decision for the scale `floatingScale`, in its three signs. Of the words, `integerLength`
stand before the point, `validIntegerLength` of them in `len`, and `decimalLength` behind it. -/
def roundAtScale (floatingScale exprValue : ℤ) (digit0 : ℕ)
    (len integerLength validIntegerLength validDecimalLength decimalLength : ℤ) : RoundAt :=
  if 0 < floatingScale then
    let roundLength := floatingScale / digitLen
    if decimalLength ≤ roundLength then .nothing
    else if validDecimalLength < decimalLength ∧
      roundLength < decimalLength - validDecimalLength then .setZero
    else
      let len := len - (decimalLength - (roundLength + 1))
      .digit len (len - 1) (floatingScale - roundLength * digitLen)
  else if floatingScale < 0 then
    let floatingScale := 0 - floatingScale
    let roundLength := floatingScale / digitLen
    let round := floatingScale - roundLength * digitLen
    let roundIntegerLength := roundLength + if round = 0 then 0 else 1
    if integerLength < roundIntegerLength then .setZero
    else if validIntegerLength < integerLength ∧
        roundIntegerLength ≤ integerLength - validIntegerLength then .nothing
    else
      let len := integerLength - roundIntegerLength + 1
      .digit len (len - 1) (9 - round)
  else if decimalLength = 0 then .nothing
  else if 0 < validIntegerLength then .digit validIntegerLength validIntegerLength 0
  else if base / 2 ≤ digit0 ∧ exprValue = -1 then .setOne
  else .setZero

/-- The decision, for `len` words with the exponent `exprValue` that start with the word
`digit0`. -/
def roundAt (scale : ℤ) (usingFloatingScale : Bool) (exprValue : ℤ) (digit0 : ℕ) (len : ℤ) :
    RoundAt :=
  let integerLength := if 0 ≤ exprValue then exprValue + 1 else 0
  let validIntegerLength := if integerLength < len then integerLength else len
  let integerCount :=
    if 0 < validIntegerLength then getDigitLenV2 digit0 + (integerLength - 1) * digitLen else 0
  let validDecimalLength := if integerLength < len then len - integerLength else 0
  let decimalLength := validDecimalLength +
    if integerLength = 0 ∧ usingFloatingScale = false then 0 - exprValue - 1 else 0
  let floatingScale :=
    if usingFloatingScale = true ∧ 0 < validIntegerLength then scale - integerCount else scale
  roundAtScale floatingScale exprValue digit0 len integerLength validIntegerLength
    validDecimalLength decimalLength

/-- The second half of `round_scale_v3_`: the word `digitId` becomes a multiple of `pow`, and `len`
words are kept. When all words before it are full, one word 1 remains and the exponent field is
counted up or down, in its seven bits. -/
def roundDigit (x : ObNumber) (len digitId pow : ℕ) : ObNumber :=
  let digitValue := x.digits.getD digitId 0
  let residue := digitValue % pow
  if pow / 2 ≤ residue then
    let digitValue := digitValue + (pow - residue)
    if digitValue = base then
      match carryUp (x.digits.take digitId).reverse with
      | [] => ⟨x.negative, if x.negative then x.exp - 1 else x.exp + 1, [1]⟩
      | w :: ws => { x with digits := (w :: ws).reverse }
    else { x with digits := (x.digits.set digitId digitValue).take len }
  else
    let digitValue := digitValue - residue
    let digits := (x.digits.set digitId digitValue).take len
    if digitValue = 0 then
      if trimZeros digits = [] then zero else { x with digits := trimZeros digits }
    else { x with digits }

def ObNumber.roundScaleV3 (x : ObNumber) (scale : ℤ) (usingFloatingScale : Bool) : ObNumber :=
  match x.digits with
  | [] => x
  | digit0 :: _ =>
    match roundAt scale usingFloatingScale x.getDecodeExp digit0 x.digits.length with
    | .nothing => x
    | .setZero => zero
    | .setOne => ⟨x.negative, 64, [1]⟩
    | .digit len digitId powId =>
      roundDigit x len.toNat digitId.toNat (roundPows.getD powId.toNat 0)

end OceanBase.Number
