import PiBlocks.Toml.Text
import PiBlocks.Toml.Value

/-!
# Numbers, truth values and dates of a configuration

A scalar without quotes is one run of letters, digits and a few signs. `scalar?` tells what
a run is. Integers are decimal without leading zeros, or hexadecimal, octal or binary, with
single underscores between digits, and fit 64 bits. A number with a fraction or an exponent
may be of any size below zero, but above it has to have a finite double (`roundsToInfinity`).
-/

namespace PiBlocks

namespace Toml

/-- Whether a character may stand in a scalar without quotes. -/
def isScalarPart (c : Char) : Bool :=
  c.isAlphanum || c = '_' || c = '+' || c = '-' || c = '.' || c = ':'

/-- Digits in a base, with single underscores between them, as a number. -/
def digitsFrom (base : Nat) (value : Nat) : List Char → Option Nat
  | [] => some value
  | '_' :: c :: rest => do
    let digit ← hexValue? c
    if digit < base then digitsFrom base (value * base + digit) rest else none
  | c :: rest => do
    let digit ← hexValue? c
    if digit < base then digitsFrom base (value * base + digit) rest else none

/-- At least one digit in a base. -/
def digits? (base : Nat) : List Char → Option Nat
  | [] => none
  | c :: rest => if c = '_' then none else digitsFrom base 0 (c :: rest)

/-- A decimal number without leading zeros. -/
def decimal? : List Char → Option Nat
  | ['0'] => some 0
  | '0' :: _ => none
  | chars => digits? 10 chars

/-- An integer that fits 64 bits. -/
def fits (value : Int) : Option Int :=
  if -(Nat.pow 2 63) ≤ value ∧ value < Nat.pow 2 63 then some value else none

/-- An integer. -/
def integer? : List Char → Option Int
  | '0' :: 'x' :: rest => (digits? 16 rest).bind fun n => fits n
  | '0' :: 'o' :: rest => (digits? 8 rest).bind fun n => fits n
  | '0' :: 'b' :: rest => (digits? 2 rest).bind fun n => fits n
  | '-' :: rest => (decimal? rest).bind fun n => fits (-(n : Int))
  | '+' :: rest => (decimal? rest).bind fun n => fits n
  | rest => (decimal? rest).bind fun n => fits n

/-- The characters without a sign in front. -/
def unsigned : List Char → List Char
  | '-' :: rest => rest
  | '+' :: rest => rest
  | rest => rest

/-- Whether the characters behind a point or the letter of an exponent are digits. -/
def areDigits (chars : List Char) : Bool := (digits? 10 chars).isSome

/-- Whether the double nearest to a number is infinite. The number is given by the digits
before its point and behind it and by its exponent. The largest double is `(2 ^ 53 - 1) * 2 ^
971` ; from the middle between it and `2 ^ 1024` on, numbers are rounded up. -/
def roundsToInfinity (whole fraction exponent : List Char) : Bool :=
  let places := (fraction.filter Char.isDigit).length
  let count := (whole.filter Char.isDigit).length + places
  let significand := (digits? 10 (whole ++ fraction)).getD 0
  let size := (digits? 10 (unsigned exponent)).getD 0
  let power : Int := (if exponent.head? = some '-' then -(size : Int) else size) - places
  if significand = 0 || decide (count + power ≤ 308) then false
  else if 308 < power then true
  else decide ((Nat.pow 2 54 - 1) * Nat.pow 2 970 * Nat.pow 10 (-power).toNat ≤
    significand * Nat.pow 10 power.toNat)

/-- Whether the characters are those of a number with a fraction or an exponent. -/
def isReal (chars : List Char) : Bool :=
  let size := unsigned chars
  if size = ['i', 'n', 'f'] || size = ['n', 'a', 'n'] then true
  else
    let isLetter (c : Char) : Bool := c = 'e' || c = 'E'
    let mantissa := size.takeWhile fun c => !isLetter c
    let exponent := size.dropWhile fun c => !isLetter c
    let whole := mantissa.takeWhile fun c => decide (c ≠ '.')
    let fraction := mantissa.dropWhile fun c => decide (c ≠ '.')
    (decimal? whole).isSome
      && (fraction.isEmpty || areDigits (fraction.drop 1))
      && (exponent.isEmpty || areDigits (unsigned (exponent.drop 1)))
      && !(fraction.isEmpty && exponent.isEmpty)
      && (chars.head? = some '-'
        || !roundsToInfinity whole (fraction.drop 1) (exponent.drop 1))

/-- A number of exactly so many digits. -/
def fixed? (count : Nat) (chars : List Char) : Option (Nat × List Char) :=
  let digits := chars.take count
  if digits.length = count && digits.all Char.isDigit then
    some (digits.foldl (fun n c => n * 10 + (c.toNat - 48)) 0, chars.drop count)
  else none

/-- The days of a month. -/
def daysIn (year month : Nat) : Nat :=
  if month = 2 then
    if year % 4 = 0 && (year % 100 ≠ 0 || year % 400 = 0) then 29 else 28
  else if month = 4 || month = 6 || month = 9 || month = 11 then 30
  else 31

/-- Takes one character. -/
def expect (wanted : Char) : List Char → Option (List Char)
  | [] => none
  | c :: rest => if c = wanted then some rest else none

/-- What follows a date. -/
def date? (chars : List Char) : Option (List Char) := do
  let (year, rest) ← fixed? 4 chars
  let rest ← expect '-' rest
  let (month, rest) ← fixed? 2 rest
  let rest ← expect '-' rest
  let (day, rest) ← fixed? 2 rest
  if 1 ≤ month && month ≤ 12 && 1 ≤ day && day ≤ daysIn year month then some rest else none

/-- What follows a time of day. -/
def time? (chars : List Char) : Option (List Char) := do
  let (hour, rest) ← fixed? 2 chars
  let rest ← expect ':' rest
  let (minute, rest) ← fixed? 2 rest
  let rest ← expect ':' rest
  let (second, rest) ← fixed? 2 rest
  if hour ≤ 23 && minute ≤ 59 && second ≤ 60 then
    match rest with
    | '.' :: c :: more =>
      if c.isDigit then some (more.dropWhile Char.isDigit) else none
    | '.' :: [] => none
    | _ => some rest
  else none

/-- Whether the characters are a distance from universal time. -/
def isOffset (chars : List Char) : Bool :=
  match chars with
  | ['Z'] | ['z'] => true
  | sign :: rest =>
    (sign = '+' || sign = '-') && (do
      let (hour, rest) ← fixed? 2 rest
      let rest ← expect ':' rest
      let (minute, rest) ← fixed? 2 rest
      if hour ≤ 23 && minute ≤ 59 && rest.isEmpty then some () else none).isSome
  | [] => false

/-- Whether the characters are a date, a time of day, or both. -/
def isMoment (chars : List Char) : Bool :=
  match date? chars with
  | some [] => true
  | some (separator :: rest) =>
    (separator = 'T' || separator = 't' || separator = ' ')
      && (match time? rest with
        | some [] => true
        | some offset => isOffset offset
        | none => false)
  | none => time? chars = some []

/-- What a run of characters without quotes is. -/
def scalar? (chars : List Char) : Option Toml :=
  if chars = ['t', 'r', 'u', 'e'] then some (.flag true)
  else if chars = ['f', 'a', 'l', 's', 'e'] then some (.flag false)
  else
    match integer? chars with
    | some value => some (.integer value)
    | none => if isReal chars || isMoment chars then some .other else none

/-- A scalar without quotes. A date and a time of day may have a space between them. -/
def scalar (chars : List Char) : Option (Toml × List Char) :=
  let run := chars.takeWhile isScalarPart
  let rest := chars.dropWhile isScalarPart
  match date? run, rest with
  | some [], ' ' :: c :: more =>
    if c.isDigit then
      let time := (c :: more).takeWhile isScalarPart
      (scalar? (run ++ ' ' :: time)).map fun value => (value, (c :: more).dropWhile isScalarPart)
    else (scalar? run).map fun value => (value, rest)
  | _, _ => (scalar? run).map fun value => (value, rest)

end Toml

end PiBlocks
