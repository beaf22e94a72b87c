import FieldWire.Decimal.Binary64
import FieldWire.Text.Numeral
import FieldWire.Toml.Basic

/-!
# TOML numbers, dates and truth values

These values are words without quotes. Digits may be grouped by underscores between them; a whole
number fits a signed word of 64 bits and may be written in base sixteen, eight or two; a number with
a fraction or an exponent is no larger than the largest binary one, however small; a date and a time
may stand together with a separator and an offset.
-/

namespace FieldWire.Toml

/-- Whether a character is a digit of a radix. -/
def isDigitOf (radix : Nat) (c : Char) : Bool :=
  ((Text.digitValue? c).map (decide <| · < radix)).getD false

/-- The digits behind one that was read, without the underscores between digits. -/
def ungroupRest? (radix : Nat) : List Char → Option (List Char)
  | [] => some []
  | '_' :: c :: rest =>
    if isDigitOf radix c then (ungroupRest? radix rest).map (c :: ·) else none
  | c :: rest => if isDigitOf radix c then (ungroupRest? radix rest).map (c :: ·) else none

/-- Digits of a radix without the underscores between them, if every underscore stands between two
digits and there is a digit. -/
def ungroup? (radix : Nat) : List Char → Option (List Char)
  | [] => none
  | c :: rest => if isDigitOf radix c then (ungroupRest? radix rest).map (c :: ·) else none

/-- The value of digits of a radix. -/
def valueOf (radix : Nat) (digits : List Char) : Nat :=
  digits.foldl (fun n c => n * radix + (Text.digitValue? c).getD 0) 0

/-- A whole number that fits a signed word of 64 bits. -/
def word? (n : Int) : Option Value :=
  if Text.isInt64 n then some (.integer n) else none

/-- Digits of base ten without a needless zero in front. -/
def decimal? (cs : List Char) : Option (List Char) := do
  let digits ← ungroup? 10 cs
  if digits.length > 1 ∧ digits.head? = some '0' then none else some digits

/-- A whole number. -/
def integer? (cs : List Char) : Option Value :=
  match cs with
  | '0' :: 'x' :: rest => (ungroup? 16 rest).bind fun ds => word? (valueOf 16 ds)
  | '0' :: 'o' :: rest => (ungroup? 8 rest).bind fun ds => word? (valueOf 8 ds)
  | '0' :: 'b' :: rest => (ungroup? 2 rest).bind fun ds => word? (valueOf 2 ds)
  | cs =>
    let (negative, rest) := Text.splitSign cs
    (decimal? rest).bind fun ds =>
      let n : Int := valueOf 10 ds
      word? (if negative then -n else n)

/-- The number of an exponent, behind its mark. -/
def exponent? (cs : List Char) : Option Int :=
  let (negative, rest) := Text.splitSign cs
  (ungroup? 10 rest).map fun ds =>
    let n : Int := valueOf 10 ds
    if negative then -n else n

/-- The number of places before the point of the largest binary number. -/
def maxWholePlaces : Nat := 309

/-- Whether there is a binary number nearest to the one with these digits, of which the last counts
`10 ^ exponent`. -/
def hasNearest (digits : List Char) (exponent : Int) : Bool :=
  let digits := digits.dropWhile (· = '0')
  let places := digits.length + exponent
  if digits.isEmpty ∨ places < maxWholePlaces then true
  else if maxWholePlaces < places then false
  else
    (Binary64.nearest? (valueOf 10 digits * Nat.pow 10 exponent.toNat)
      (Nat.pow 10 (-exponent).toNat)).isSome

/-- A number with a fraction or an exponent, or one that is not finite. -/
def float? (cs : List Char) : Option Value :=
  let (negative, unsigned) := Text.splitSign cs
  let found := Value.float (String.ofList cs)
  let real? (digits : List Char) (exponent : Int) : Option Value :=
    if negative ∨ hasNearest digits exponent then some found else none
  if unsigned = ['i', 'n', 'f'] ∨ unsigned = ['n', 'a', 'n'] then some found
  else do
    let (whole, rest) := unsigned.span fun c => c.isDigit || c = '_'
    let digits ← decimal? whole
    match rest with
    | '.' :: rest =>
      let (fraction, rest) := rest.span fun c => c.isDigit || c = '_'
      let places ← ungroup? 10 fraction
      match rest with
      | [] => real? (digits ++ places) (-places.length)
      | mark :: rest =>
        if mark = 'e' ∨ mark = 'E' then
          real? (digits ++ places) ((← exponent? rest) - places.length)
        else none
    | mark :: rest =>
      if mark = 'e' ∨ mark = 'E' then real? digits (← exponent? rest) else none
    | [] => none

/-! ### Dates -/

/-- The number of exactly two digits. -/
def twoDigits? (a b : Char) : Option Nat :=
  if a.isDigit ∧ b.isDigit then some (valueOf 10 [a, b]) else none

/-- The number of days of a month. -/
def daysOfMonth (year month : Nat) : Nat :=
  if month = 2 then
    if year % 4 = 0 ∧ (year % 100 ≠ 0 ∨ year % 400 = 0) then 29 else 28
  else if month = 4 ∨ month = 6 ∨ month = 9 ∨ month = 11 then 30
  else 31

/-- Whether characters are a date. -/
def isDate : List Char → Bool
  | [a, b, c, d, '-', e, f, '-', g, h] =>
    match twoDigits? a b, twoDigits? c d, twoDigits? e f, twoDigits? g h with
    | some century, some year, some month, some day =>
      1 ≤ month && month ≤ 12 && 1 ≤ day && day ≤ daysOfMonth (century * 100 + year) month
    | _, _, _, _ => false
  | _ => false

/-- The rest of a text behind a time of day, if it starts with one. -/
def time? : List Char → Option (List Char)
  | a :: b :: ':' :: c :: d :: ':' :: e :: f :: rest =>
    match twoDigits? a b, twoDigits? c d, twoDigits? e f with
    | some hour, some minute, some second =>
      if hour ≤ 23 ∧ minute ≤ 59 ∧ second ≤ 60 then
        match rest with
        | '.' :: digits =>
          let (ds, rest) := digits.span Char.isDigit
          if ds.isEmpty then none else some rest
        | rest => some rest
      else none
    | _, _, _ => none
  | _ => none

/-- Whether characters are an offset from universal time, or none. -/
def isOffset : List Char → Bool
  | [] => true
  | ['Z'] | ['z'] => true
  | [sign, a, b, ':', c, d] =>
    match twoDigits? a b, twoDigits? c d with
    | some hour, some minute => (sign = '+' || sign = '-') && hour ≤ 23 && minute ≤ 59
    | _, _ => false
  | _ => false

/-- A date, a time, or both. -/
def date? (cs : List Char) : Option Value :=
  let found := some (Value.date (String.ofList cs))
  if isDate cs then found
  else if time? cs = some [] then found
  else
    match cs.drop 10 with
    | separator :: rest =>
      if isDate (cs.take 10) ∧ (separator = 'T' ∨ separator = 't' ∨ separator = ' ') then
        match time? rest with
        | some offset => if isOffset offset then found else none
        | none => none
      else none
    | [] => none

/-! ### Words -/

/-- The value of a word. -/
def scalar? (cs : List Char) : Option Value :=
  if cs = ['t', 'r', 'u', 'e'] then some (.boolean true)
  else if cs = ['f', 'a', 'l', 's', 'e'] then some (.boolean false)
  else ((date? cs).or (float? cs)).or (integer? cs)

/-- The characters of words. -/
def isWordChar (c : Char) : Bool :=
  c.isAlphanum || c = '_' || c = '-' || c = '+' || c = '.' || c = ':'

/-- Splits off the word at the front of a text. A blank behind a date belongs to the word when a
time follows. -/
def spanWord (cs : List Char) : List Char × List Char :=
  let (word, rest) := cs.span isWordChar
  match rest with
  | ' ' :: a :: b :: ':' :: _ =>
    if isDate word ∧ (twoDigits? a b).isSome then
      let (time, rest) := (rest.drop 1).span isWordChar
      (word ++ ' ' :: time, rest)
    else (word, rest)
  | _ => (word, rest)

/-- Reads a word, if there is one. -/
def parseScalar? (cs : List Char) : Option (Value × List Char) :=
  let (word, rest) := spanWord cs
  (scalar? word).map fun v => (v, rest)

end FieldWire.Toml
