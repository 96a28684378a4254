import Mathlib.Data.Nat.Digits.Defs
import Nupkux.Strings

/-!
# Formatted text

`vsprintf`, with the characters it writes as its result and without the NUL after them. An argument
is a machine word or a string, and a conversion that finds none of its kind has no result. What `%n`
stores is not kept.
-/

namespace Nupkux

/-- An argument after the format. -/
inductive PrintArgument where
  | word (value : Nat)
  | text (s : Option CString)
  deriving DecidableEq

namespace Vsprintf

/-- `is_digit`. -/
def isDigit (c : UInt8) : Bool := 48 ≤ c && c ≤ 57

/-- `skip_atoi`, from a number on: the number, and where it ends. -/
def skipAtoi : Int → CString → Int × CString
  | i, [] => (i, [])
  | i, c :: s => if isDigit c then skipAtoi (toInt (i * 10 + c.toNat - 48)) s else (i, c :: s)

/-- The flags `ZEROPAD` to `SMALL`. -/
structure Flags where
  zeropad : Bool := false
  sign : Bool := false
  plus : Bool := false
  space : Bool := false
  left : Bool := false
  special : Bool := false
  small : Bool := false

/-- `digits[d]`. -/
def digit (small : Bool) (d : Nat) : UInt8 :=
  if d < 10 then UInt8.ofNat (48 + d)
  else if small then UInt8.ofNat (87 + d) else UInt8.ofNat (55 + d)

/-- The loop of `number` that divides: the digits, the last one first. -/
def divideLoop (base : Nat) : Nat → Nat → List Nat
  | 0, _ => []
  | steps + 1, num => if num ≠ 0 then num % base :: divideLoop base steps (num / base) else []

/-- `number`, for a base it knows. -/
def number (num : Int) (base : Nat) (size precision : Int) (type : Flags) : CString :=
  let zeropad := type.zeropad && !type.left
  let c : UInt8 := if zeropad then 48 else 32
  let negative := type.sign && decide (num < 0)
  let sign : CString :=
    if negative then [45] else if type.plus then [43] else if type.space then [32] else []
  let num := if negative then toInt (-num) else num
  let size := size - sign.length
  let special : CString :=
    if type.special then
      if base = 16 then [48, digit type.small 33] else if base = 8 then [48] else []
    else []
  let size := size - special.length
  let tmp :=
    if num = 0 then [48] else (divideLoop base 32 (toUint num)).map (digit type.small)
  let precision := max precision tmp.length
  let size := size - precision
  (if zeropad || type.left then [] else List.replicate size.toNat 32) ++ sign ++ special ++
    (if zeropad && !type.left then List.replicate size.toNat c else []) ++
    List.replicate (precision - tmp.length).toNat 48 ++ tmp.reverse ++
    if type.left then List.replicate size.toNat 32 else []

/-- The flags in front of a conversion, and what is left of the format. -/
def skipFlags : Flags → CString → Flags × CString
  | flags, [] => (flags, [])
  | flags, c :: fmt =>
    if c = 45 then skipFlags { flags with left := true } fmt
    else if c = 43 then skipFlags { flags with plus := true } fmt
    else if c = 32 then skipFlags { flags with space := true } fmt
    else if c = 35 then skipFlags { flags with special := true } fmt
    else if c = 48 then skipFlags { flags with zeropad := true } fmt
    else (flags, c :: fmt)

/-- `va_arg` for a number or a pointer that is printed as one. -/
def argWord : List PrintArgument → Option (Nat × List PrintArgument)
  | .word value :: args => some (value, args)
  | _ => none

/-- `va_arg` for a string. -/
def argText : List PrintArgument → Option (Option CString × List PrintArgument)
  | .text s :: args => some (s, args)
  | _ => none

/-- A conversion while it is read: its flags, width and precision, what is left of the format, and
the arguments. -/
structure Conversion where
  flags : Flags := {}
  fieldWidth : Int := -1
  precision : Int := -1
  fmt : CString
  args : List PrintArgument

/-- The field width. The star is not skipped. -/
def getWidth (c : Conversion) : Option Conversion :=
  if isDigit (c.fmt.headD 0) then
    let (width, fmt) := skipAtoi 0 c.fmt
    some { c with fieldWidth := width, fmt }
  else if c.fmt.headD 0 = 42 then do
    let (value, args) ← argWord c.args
    let width := toInt value
    if width < 0 then
      some { c with fieldWidth := toInt (-width), flags := { c.flags with left := true }, args }
    else some { c with fieldWidth := width, args }
  else some c

/-- The precision, after its point. The star is not skipped. -/
def readPrecision (c : Conversion) : Option Conversion :=
  if isDigit (c.fmt.headD 0) then
    let (precision, fmt) := skipAtoi 0 c.fmt
    some { c with precision, fmt }
  else if c.fmt.headD 0 = 42 then do
    let (value, args) ← argWord c.args
    some { c with precision := toInt value, args }
  else some c

/-- The precision, which is not negative when there is a point. -/
def getPrecision (c : Conversion) : Option Conversion :=
  if c.fmt.headD 0 = 46 then
    (readPrecision { c with fmt := c.fmt.tail }).map fun c =>
      { c with precision := max c.precision 0 }
  else some c

/-- The qualifier, which nothing reads. -/
def skipQualifier (c : Conversion) : Conversion :=
  if c.fmt.headD 0 = 104 ∨ c.fmt.headD 0 = 108 ∨ c.fmt.headD 0 = 76 then
    { c with fmt := c.fmt.tail }
  else c

/-- A character in its field. -/
def charField (c : Conversion) (chr : UInt8) : CString :=
  let pad := List.replicate (c.fieldWidth - 1).toNat 32
  if c.flags.left then chr :: pad else pad ++ [chr]

/-- A string in its field. -/
def textField (c : Conversion) : Option CString → CString
  | none => []
  | some s =>
    let len : Int := if c.precision < 0 then s.length else min s.length c.precision
    let pad := List.replicate (c.fieldWidth - len).toNat 32
    if c.flags.left then s.take len.toNat ++ pad else pad ++ s.take len.toNat

/-- A conversion of a number. -/
def numberField (c : Conversion) (base : Nat) : Option (CString × Conversion) := do
  let (value, args) ← argWord c.args
  some (number (toInt value) base c.fieldWidth c.precision c.flags, { c with args })

/-- The conversion itself: what it prints, and what is left. -/
def convert (c : Conversion) : Option (CString × Conversion) :=
  match c.fmt with
  | [] => some ([37], c)
  | chr :: fmt =>
    let c := { c with fmt }
    if chr = 99 then do
      let (value, args) ← argWord c.args
      some (charField c (UInt8.ofNat value), { c with args })
    else if chr = 115 then do
      let (s, args) ← argText c.args
      some (textField c s, { c with args })
    else if chr = 111 then numberField c 8
    else if chr = 112 then
      if c.fieldWidth = -1 then
        numberField { c with fieldWidth := 8, flags := { c.flags with zeropad := true } } 16
      else numberField c 16
    else if chr = 120 then numberField { c with flags := { c.flags with small := true } } 16
    else if chr = 88 then numberField c 16
    else if chr = 100 ∨ chr = 105 then
      numberField { c with flags := { c.flags with sign := true } } 10
    else if chr = 117 then numberField c 10
    else if chr = 110 then do
      let (_, args) ← argWord c.args
      some ([], { c with args })
    else some (if chr = 37 then [37] else [37, chr], c)

/-- The loop of `vsprintf`. -/
def formatLoop : Nat → CString → List PrintArgument → Option CString
  | _, [], _ => some []
  | 0, _ :: _, _ => none
  | steps + 1, c :: fmt, args =>
    if c ≠ 37 then (formatLoop steps fmt args).map (c :: ·)
    else do
      let (flags, fmt) := skipFlags {} fmt
      let conversion ← getWidth { flags, fmt, args }
      let conversion ← getPrecision conversion
      let (out, conversion) ← convert (skipQualifier conversion)
      (formatLoop steps conversion.fmt conversion.args).map (out ++ ·)

end Vsprintf

/-- `vsprintf`. A round takes a character of the format at least. -/
def vsprintf (fmt : CString) (args : List PrintArgument) : Option CString :=
  Vsprintf.formatLoop fmt.length fmt args

/-- The decimal digits of a number. -/
def decimalDigits (n : Nat) : CString :=
  if n = 0 then [48] else (Nat.digits 10 n).reverse.map (Vsprintf.digit false)

/-- A number as `%d` prints it. -/
def decimalText (n : Int) : CString :=
  if n < 0 then 45 :: decimalDigits n.natAbs else decimalDigits n.natAbs

namespace Vsprintf

/-- A format and its arguments give a text, in any number of rounds that is large enough. -/
def Formats (fmt : CString) (args : List PrintArgument) (out : CString) : Prop :=
  ∀ steps, fmt.length ≤ steps → formatLoop steps fmt args = some out

variable {fmt out own : CString} {args : List PrintArgument} {c : UInt8} {s : Option CString}
  {base steps num value : Nat}

/-- The loop of `number` gives the digits. -/
theorem divideLoop_eq (large : 1 < base) (enough : num < base ^ steps) :
    divideLoop base steps num = base.digits num := by
  induction steps generalizing num with
  | zero =>
    obtain rfl : num = 0 := by
      rw [pow_zero] at enough
      omega
    rw [Nat.digits_zero]
    rfl
  | succ steps ih =>
    by_cases zero : num = 0
    · rw [zero, Nat.digits_zero]
      rfl
    · have smaller : num / base < base ^ steps := by
        apply Nat.div_lt_of_lt_mul
        rwa [← pow_succ']
      rw [divideLoop, if_pos zero, ih smaller, Nat.digits_def' large (Nat.pos_of_ne_zero zero)]

/-- Without a width, a precision or another flag, `number` prints a sign and the digits. -/
theorem number_plain (num : Int) (base : Nat) :
    number num base (-1) (-1) { sign := true } =
      (if num < 0 then [45] else []) ++
        (if (if num < 0 then toInt (-num) else num) = 0 then [48]
          else (divideLoop base 32 (toUint (if num < 0 then toInt (-num) else num))).map
            (digit false)).reverse := by
  simp only [number, Bool.false_and, Bool.true_and, Bool.or_self, decide_eq_true_eq]
  generalize (if (if num < 0 then toInt (-num) else num) = 0 then [48] else
    (divideLoop base 32 (toUint (if num < 0 then toInt (-num) else num))).map (digit false)) = tmp
  have widest : max (-1) (tmp.length : Int) = tmp.length := by omega
  rw [widest]
  simp

/-- `number` prints a signed number in decimal. -/
theorem number_decimal (value : Nat) :
    number (toInt value) 10 (-1) (-1) { sign := true } = decimalText (toInt value) := by
  have range : -2147483648 ≤ toInt value ∧ toInt value < 2147483648 := by
    unfold toInt
    omega
  generalize toInt value = n at *
  have magnitude : toUint (if n < 0 then toInt (-n) else n) = n.natAbs := by
    unfold toUint toInt
    split <;> omega
  have zero : (if n < 0 then toInt (-n) else n) = 0 ↔ n.natAbs = 0 := by
    unfold toInt
    split <;> omega
  have small : n.natAbs < 10 ^ 32 :=
    Nat.lt_of_lt_of_le (by omega : n.natAbs < 4294967296) (by norm_num)
  have digits : (if (if n < 0 then toInt (-n) else n) = 0 then [48]
      else (divideLoop 10 32 (toUint (if n < 0 then toInt (-n) else n))).map
        (digit false)).reverse = decimalDigits n.natAbs := by
    rw [magnitude, divideLoop_eq (by decide) small, decimalDigits, List.map_reverse]
    simp only [zero]
    split <;> rfl
  rw [number_plain, digits, decimalText]
  split
  · rw [List.singleton_append]
  · rw [List.nil_append]

/-- Nothing is left of a format. -/
theorem Formats.nil : Formats [] args [] := fun _ _ => by
  rw [formatLoop]

/-- A character that is copied. -/
theorem Formats.char (later : Formats fmt args out) (plain : c ≠ 37) :
    Formats (c :: fmt) args (c :: out) := by
  intro steps enough
  cases steps with
  | zero => cases enough
  | succ steps =>
    rw [formatLoop, if_pos plain, later steps (Nat.le_of_succ_le_succ enough)]
    rfl

/-- Literal text is copied. -/
theorem Formats.literal (later : Formats fmt args out) (plain : (37 : UInt8) ∉ own) :
    Formats (own ++ fmt) args (own ++ out) := by
  induction own with
  | nil => exact later
  | cons c own ih =>
    have rest : (37 : UInt8) ∉ own := fun member => plain (List.mem_cons_of_mem _ member)
    exact (ih rest).char fun same => plain (same ▸ List.mem_cons_self)

/-- `%s` copies its argument whole, and nothing for the null pointer. -/
theorem Formats.string (later : Formats fmt args out) :
    Formats (37 :: 115 :: fmt) (.text s :: args) (s.getD [] ++ out) := by
  intro steps enough
  have field : textField { fmt := fmt, args := .text s :: args } s = s.getD [] := by
    cases s with
    | none => rfl
    | some s => simp [textField]
  cases steps with
  | zero => cases enough
  | succ steps =>
    have rest := later steps (by simp only [List.length_cons] at enough; omega)
    have run : formatLoop (steps + 1) (37 :: 115 :: fmt) (.text s :: args) =
        (formatLoop steps fmt args).map
          (textField { fmt := fmt, args := .text s :: args } s ++ ·) := rfl
    rw [run, rest, field]
    rfl

/-- `%d` prints its argument in decimal. -/
theorem Formats.decimal (later : Formats fmt args out) :
    Formats (37 :: 100 :: fmt) (.word value :: args) (decimalText (toInt value) ++ out) := by
  intro steps enough
  cases steps with
  | zero => cases enough
  | succ steps =>
    have rest := later steps (by simp only [List.length_cons] at enough; omega)
    have run : formatLoop (steps + 1) (37 :: 100 :: fmt) (.word value :: args) =
        (formatLoop steps fmt args).map
          (number (toInt value) 10 (-1) (-1) { sign := true } ++ ·) := rfl
    rw [run, rest, number_decimal]
    rfl

/-- What `vsprintf` gives. -/
theorem Formats.vsprintf (formats : Formats fmt args out) : vsprintf fmt args = some out :=
  formats _ (Nat.le_refl _)

end Vsprintf

end Nupkux
