import PiBlocks.Json.Value

/-!
# Written JSON

The text of a JSON value, either without any space (`Json.compact`) or laid out with one
item a line, two spaces of indentation a level (`Json.pretty`). Both write the same tokens,
and a string is written the same everywhere : only the quote, the backslash and the
characters below the space are escaped.

A double is written with the fewest digits that read back as the same double. Its point
stands in place, with at least one digit behind it, from a hundred-thousandth up to ten
to the sixteenth ; beyond, an exponent is written.
-/

namespace PiBlocks

namespace Decimal

/-- The digits of a decimal with its point in place. `point` digits come before it. -/
def positional (digits : List Char) (point : Int) : List Char :=
  if point ≤ 0 then
    '0' :: '.' :: (List.replicate (-point).toNat '0' ++ digits)
  else if digits.length ≤ point.toNat then
    digits ++ List.replicate (point.toNat - digits.length) '0' ++ ['.', '0']
  else digits.take point.toNat ++ '.' :: digits.drop point.toNat

/-- One digit, a point and the other digits, and the exponent with its sign. -/
def scientific (digits : List Char) (exponent : Int) : List Char :=
  let mantissa := match digits with
    | [] => ['0']
    | [d] => [d]
    | d :: more => d :: '.' :: more
  mantissa ++ 'e' :: (if exponent < 0 then '-' else '+') :: Nat.toDigits 10 exponent.natAbs

/-- The text of a positive double. Exponents from -5 to 15 have their point in place. -/
def textOf (b : Binary) : List Char :=
  let found := b.shortest
  let digits := (stripZeros (Nat.toDigits 10 found.digits)).1
  let leading := (Nat.toDigits 10 found.digits).length - 1 + found.exponent
  if -5 ≤ leading && leading < 16 then positional digits (leading + 1)
  else scientific digits leading

end Decimal

/-- The text of a double. What no JSON number can hold has the text of the null value. -/
def Float.text (value : Float) : String :=
  let (negative, magnitude) := Decimal.ofBits value.toBits
  match magnitude with
  | some b => String.ofList (if negative then '-' :: Decimal.textOf b else Decimal.textOf b)
  | none =>
    if value.isFinite then (if negative then "-0.0" else "0.0") else "null"

/-- The text of a number. -/
def Number.text : Number → String
  | .integer value => toString value
  | .real value => Float.text value

namespace Json

/-- Two lower-case hexadecimal digits. -/
def hexDigits (n : Nat) : List Char := [Nat.digitChar (n / 16), Nat.digitChar (n % 16)]

/-- How a character is written inside a string. -/
def escape (c : Char) : List Char :=
  if c = '"' then ['\\', '"']
  else if c = '\\' then ['\\', '\\']
  else if c = '\n' then ['\\', 'n']
  else if c = '\r' then ['\\', 'r']
  else if c = '\t' then ['\\', 't']
  else if c.toNat = 8 then ['\\', 'b']
  else if c.toNat = 12 then ['\\', 'f']
  else if c.toNat < 32 then '\\' :: 'u' :: '0' :: '0' :: hexDigits c.toNat
  else [c]

/-- A string in quotes. -/
def quote (text : String) : List Char := '"' :: (text.toList.flatMap escape ++ ['"'])

/-- What goes between the tokens of a written value : the space after a colon, and the
line break before an item at some depth. -/
structure Layout where
  afterColon : List Char
  breakAt : Nat → List Char

/-- No space at all. -/
def Layout.compact : Layout := ⟨[], fun _ => []⟩

/-- One item a line, two spaces a level. -/
def Layout.pretty : Layout := ⟨[' '], fun depth => '\n' :: List.replicate (2 * depth) ' '⟩

mutual

/-- The characters of a value at some depth. -/
def chars (layout : Layout) (depth : Nat) : Json → List Char
  | .null => ['n', 'u', 'l', 'l']
  | .bool true => ['t', 'r', 'u', 'e']
  | .bool false => ['f', 'a', 'l', 's', 'e']
  | .number value => value.text.toList
  | .text value => quote value
  | .list [] => ['[', ']']
  | .list (item :: items) =>
    '[' :: (layout.breakAt (depth + 1) ++ chars layout (depth + 1) item
      ++ itemChars layout (depth + 1) items ++ layout.breakAt depth ++ [']'])
  | .object [] => ['{', '}']
  | .object ((name, value) :: members) =>
    '{' :: (layout.breakAt (depth + 1) ++ quote name ++ ':' :: layout.afterColon
      ++ chars layout (depth + 1) value
      ++ memberChars layout (depth + 1) members ++ layout.breakAt depth ++ ['}'])

/-- The items after the first, each behind a comma. -/
def itemChars (layout : Layout) (depth : Nat) : List Json → List Char
  | [] => []
  | item :: items =>
    ',' :: (layout.breakAt depth ++ chars layout depth item ++ itemChars layout depth items)

/-- The members after the first, each behind a comma. -/
def memberChars (layout : Layout) (depth : Nat) : List (String × Json) → List Char
  | [] => []
  | (name, value) :: members =>
    ',' :: (layout.breakAt depth ++ quote name ++ ':' :: layout.afterColon
      ++ chars layout depth value ++ memberChars layout depth members)

end

/-- The value's text without spaces. -/
def compact (value : Json) : String := String.ofList (chars .compact 0 value)

/-- The value's text with one item a line. -/
def pretty (value : Json) : String := String.ofList (chars .pretty 0 value)

end Json

end PiBlocks
