import PiBlocks.Json.Fault

/-!
# Tokens of a JSON text

`Token.scan` cuts a text into tokens, one character at a time : a `Scan` is what the
scanner remembers between two characters, `Scan.step` takes it over one character and
`Scan.finish` over the end of the text. The last token is always `finish` or `broken`.

Texts and numbers are read in two ways. A reader that wants the value is told when it is
no value (a surrogate that stands alone, a number too large) ; a reader that skips it only
needs the token to be well-formed. So these tokens carry their value or the error that
replaces it, and `broken` carries the errors of both readers.

A number is collected the way it is computed. Digits join a 64-bit significand while they
fit ; a digit before the point that does not fit scales the number by ten, one behind the
point is dropped. The double is the significand, rounded, times or divided by a power of
ten, rounded again.
-/

namespace PiBlocks

namespace Json

/-! ## Numerals -/

/-- A number while its digits come in : `significand · 10 ^ (scale ± exponent)`. -/
structure Numeral where
  negative : Bool := false
  significand : Nat := 0
  /-- a digit has not fit into the significand -/
  full : Bool := false
  scale : Int := 0
  /-- a point or an exponent was seen -/
  real : Bool := false
  negativeExponent : Bool := false
  exponent : Nat := 0
  /-- where the exponent became too large to be counted -/
  overflow : Option Nat := none
deriving DecidableEq, Repr

namespace Numeral

/-- Takes a digit before the point. -/
def wholeDigit (n : Numeral) (digit : Nat) : Numeral :=
  let significand := n.significand * 10 + digit
  if n.full || decide (Nat.pow 2 64 ≤ significand) then { n with full := true, scale := n.scale + 1 }
  else { n with significand := significand }

/-- Takes the point. -/
def point (n : Numeral) : Numeral := { n with real := true, full := false }

/-- Takes a digit behind the point. -/
def fractionDigit (n : Numeral) (digit : Nat) : Numeral :=
  let significand := n.significand * 10 + digit
  if n.full || decide (Nat.pow 2 64 ≤ significand) then { n with full := true }
  else { n with significand := significand, scale := n.scale - 1 }

/-- Takes a digit of the exponent ; `past` is the offset behind it. -/
def exponentDigit (n : Numeral) (digit past : Nat) : Numeral :=
  let exponent := n.exponent * 10 + digit
  if n.overflow.isSome then n
  else if Nat.pow 2 31 ≤ exponent then { n with overflow := some past }
  else { n with exponent := exponent }

/-- A power of ten as a double. -/
def tenTo (n : Nat) : Float := Float.ofScientific 1 false n

/-- Divides by a power of ten. What is left after two divisions by the largest power is zero. -/
def divideTenTo (value : Float) (n : Nat) : Float :=
  if n ≤ 308 then value / tenTo n
  else if n ≤ 616 then value / tenTo 308 / tenTo (n - 308)
  else 0.0

/-- The double of the numeral, without its sign ; `none` when it is too large. -/
def magnitude (n : Numeral) : Option Float :=
  let value := Float.ofNat n.significand
  let power := if n.negativeExponent then n.scale - n.exponent else n.scale + n.exponent
  if power < 0 then some (divideTenTo value (-power).toNat)
  else if power ≤ 308 then
    let scaled := value * tenTo power.toNat
    if scaled.isFinite then some scaled else none
  else if n.significand = 0 then some 0.0 else none

/-- The number, or where it turned out to be too large. `stop` is the offset behind it. -/
def value (n : Numeral) (stop : Nat) : Except JsonError Number :=
  if n.real || n.full then
    match n.overflow with
    | some past =>
      if n.significand ≠ 0 ∧ n.negativeExponent = false then .error ⟨.numberOutOfRange, past⟩
      else .ok (.real (if n.negative then -0.0 else 0.0))
    | none =>
      match n.magnitude with
      | some size => .ok (.real (if n.negative then -size else size))
      | none => .error ⟨.numberOutOfRange, stop⟩
  else if n.negative then
    if n.significand = 0 ∨ Nat.pow 2 63 < n.significand then .ok (.real (-(Float.ofNat n.significand)))
    else .ok (.integer (-(n.significand : Int)))
  else .ok (.integer n.significand)

end Numeral

/-! ## Lexemes and tokens -/

/-- Brackets and separators. -/
inductive Mark where
  | openList
  | closeList
  | openObject
  | closeObject
  | comma
  | colon
deriving DecidableEq, Repr

/-- What a token is. -/
inductive Lexeme where
  | mark (mark : Mark)
  | null
  | bool (value : Bool)
  | number (value : Except JsonError Number)
  | text (value : Except JsonError String)
  /-- a character that begins no token -/
  | stray
  /-- a token that breaks off ; `quoted` tells a text from a number or a word -/
  | broken (quoted : Bool) (wanted skipped : JsonError)
  /-- the end of the text -/
  | finish

/-- A token and the byte offsets of its ends. -/
structure Token where
  start : Nat
  stop : Nat
  lexeme : Lexeme

/-- The offset a reader reports that has looked at the token's first byte. -/
def Token.peek (token : Token) : Nat :=
  match token.lexeme with
  | .finish => token.start
  | _ => token.start + 1

/-! ## Scanning -/

/-- How far a number has come. -/
inductive Stage where
  /-- behind the minus sign -/
  | sign
  /-- behind a leading zero -/
  | zero
  | whole
  /-- behind the point -/
  | point
  | fraction
  /-- behind the letter of the exponent -/
  | letter
  /-- behind the sign of the exponent -/
  | letterSign
  | exponent
deriving DecidableEq, Repr

/-- How far a text has come. `high` is a high surrogate that waits for its low one. -/
inductive Inside where
  | plain (high : Option Nat)
  | escape (high : Option Nat)
  /-- behind the letter `u`, with the bytes taken so far and the number they spell -/
  | code (high : Option Nat) (taken : Nat) (number : Option Nat)
deriving DecidableEq, Repr

/-- A text while its characters come in, the last one first. `fault` is the first error
that only a reader of the value meets. -/
structure Quotation where
  chars : List Char := []
  fault : Option JsonError := none
deriving DecidableEq, Repr

/-- What the scanner remembers between two characters. -/
inductive Scan where
  | between
  | word (start : Nat) (lexeme : Lexeme) (due : Char) (rest : List Char)
  | number (start : Nat) (numeral : Numeral) (stage : Stage)
  | text (start : Nat) (quotation : Quotation) (inside : Inside)
  | over

/-- The value of a decimal digit. -/
def digit? (c : Char) : Option Nat :=
  if '0' ≤ c ∧ c ≤ '9' then some (c.toNat - '0'.toNat) else none

/-- The value of a hexadecimal digit. -/
def hexDigit? (c : Char) : Option Nat :=
  if '0' ≤ c ∧ c ≤ '9' then some (c.toNat - '0'.toNat)
  else if 'a' ≤ c ∧ c ≤ 'f' then some (c.toNat - 'a'.toNat + 10)
  else if 'A' ≤ c ∧ c ≤ 'F' then some (c.toNat - 'A'.toNat + 10)
  else none

/-- The space that may stand between tokens. -/
def isGap (c : Char) : Bool := c = ' ' || c = '\n' || c = '\t' || c = '\r'

/-- The bracket or separator a character is. -/
def mark? (c : Char) : Option Mark :=
  if c = '[' then some .openList
  else if c = ']' then some .closeList
  else if c = '\x7b' then some .openObject
  else if c = '\x7d' then some .closeObject
  else if c = ',' then some .comma
  else if c = ':' then some .colon
  else none

/-- A token that ends the scan. -/
def stopAt (start stop : Nat) (lexeme : Lexeme) : List Token × Scan :=
  ([⟨start, stop, lexeme⟩], .over)

/-- Takes the first character of a token, or space before one. -/
def begin (here : Nat) (c : Char) : List Token × Scan :=
  if isGap c then ([], .between)
  else if c = '"' then ([], .text here {} (.plain none))
  else if c = '-' then ([], .number here { negative := true } .sign)
  else if c = 'n' then ([], .word here .null 'u' ['l', 'l'])
  else if c = 't' then ([], .word here (.bool true) 'r' ['u', 'e'])
  else if c = 'f' then ([], .word here (.bool false) 'a' ['l', 's', 'e'])
  else
    match digit? c, mark? c with
    | some digit, _ =>
      ([], .number here (Numeral.wholeDigit {} digit) (if digit = 0 then .zero else .whole))
    | none, some mark => ([⟨here, here + 1, .mark mark⟩], .between)
    | none, none => stopAt here (here + c.utf8Size) .stray

/-- A number with a character that cannot go on with it. -/
def malformed (start here : Nat) : List Token × Scan :=
  stopAt start here (.broken false ⟨.malformedNumber, here + 1⟩ ⟨.malformedNumber, here + 1⟩)

/-- Ends a number before a character and takes the character as the start of what follows. -/
def endNumber (start here : Nat) (numeral : Numeral) (c : Char) : List Token × Scan :=
  let (tokens, scan) := begin here c
  (⟨start, here, .number (numeral.value here)⟩ :: tokens, scan)

/-- Goes behind the point or the letter of an exponent, or ends the number. -/
def afterWhole (start here : Nat) (numeral : Numeral) (c : Char) : List Token × Scan :=
  if c = '.' then ([], .number start numeral.point .point)
  else if c = 'e' ∨ c = 'E' then ([], .number start { numeral with real := true } .letter)
  else endNumber start here numeral c

/-- Takes a character of a number. -/
def stepNumber (start here : Nat) (numeral : Numeral) (stage : Stage) (c : Char) :
    List Token × Scan :=
  match stage, digit? c with
  | .sign, some digit =>
    ([], .number start (numeral.wholeDigit digit) (if digit = 0 then .zero else .whole))
  | .sign, none => malformed start here
  | .zero, some _ => malformed start here
  | .zero, none => afterWhole start here numeral c
  | .whole, some digit => ([], .number start (numeral.wholeDigit digit) .whole)
  | .whole, none => afterWhole start here numeral c
  | .point, some digit => ([], .number start (numeral.fractionDigit digit) .fraction)
  | .point, none => malformed start here
  | .fraction, some digit => ([], .number start (numeral.fractionDigit digit) .fraction)
  | .fraction, none =>
    if c = 'e' ∨ c = 'E' then ([], .number start numeral .letter)
    else endNumber start here numeral c
  | .letter, some digit => ([], .number start (numeral.exponentDigit digit (here + 1)) .exponent)
  | .letter, none =>
    if c = '+' then ([], .number start numeral .letterSign)
    else if c = '-' then
      ([], .number start { numeral with negativeExponent := true } .letterSign)
    else malformed start here
  | .letterSign, some digit =>
    ([], .number start (numeral.exponentDigit digit (here + 1)) .exponent)
  | .letterSign, none => malformed start here
  | .exponent, some digit => ([], .number start (numeral.exponentDigit digit (here + 1)) .exponent)
  | .exponent, none => endNumber start here numeral c

namespace Quotation

/-- Notes an error that only a reader of the value meets. -/
def note (q : Quotation) (fault : Fault) (offset : Nat) : Quotation :=
  { q with fault := q.fault.or (some ⟨fault, offset⟩) }

/-- Adds a character. -/
def push (q : Quotation) (c : Char) : Quotation := { q with chars := c :: q.chars }

/-- The text, or the error that replaces it. -/
def value (q : Quotation) : Except JsonError String :=
  match q.fault with
  | some error => .error error
  | none => .ok (String.ofList q.chars.reverse)

/-- The broken token of a text that ends with a fault. An earlier error of the value wins
for a reader of the value. -/
def brokenOff (q : Quotation) (wanted skipped : JsonError) : Lexeme :=
  .broken true (q.fault.getD wanted) skipped

/-- Notes a high surrogate that is not followed by another escape by number. -/
def noteOpen (q : Quotation) (high : Option Nat) (here : Nat) : Quotation :=
  if high.isSome then q.note .openSurrogate (here + 1) else q

/-- Takes the number of an escape, which ends before `past`. -/
def code (q : Quotation) (high : Option Nat) (number past : Nat) : Quotation × Option Nat :=
  match high with
  | some first =>
    if 0xDC00 ≤ number ∧ number ≤ 0xDFFF then
      (q.push (Char.ofNat ((first - 0xD800) * 0x400 + (number - 0xDC00) + 0x10000)), none)
    else (q.note .straySurrogate past, none)
  | none =>
    if 0xDC00 ≤ number ∧ number ≤ 0xDFFF then (q.note .straySurrogate past, none)
    else if 0xD800 ≤ number ∧ number ≤ 0xDBFF then (q, some number)
    else (q.push (Char.ofNat number), none)

end Quotation

/-- The character an escape letter stands for. -/
def unescape? (c : Char) : Option Char :=
  if c = '"' ∨ c = '\\' ∨ c = '/' then some c
  else if c = 'b' then some '\x08'
  else if c = 'f' then some '\x0c'
  else if c = 'n' then some '\n'
  else if c = 'r' then some '\r'
  else if c = 't' then some '\t'
  else none

/-- Takes a character of a text. -/
def stepText (start here : Nat) (q : Quotation) (inside : Inside) (c : Char) :
    List Token × Scan :=
  match inside with
  | .plain high =>
    if c = '\\' then ([], .text start q (.escape high))
    else
      let q := q.noteOpen high here
      if c = '"' then ([⟨start, here + 1, .text q.value⟩], .between)
      else if c.toNat < 32 then
        stopAt start here
          (q.brokenOff ⟨.controlCharacter, here + 1⟩ ⟨.controlCharacter, here⟩)
      else ([], .text start (q.push c) (.plain none))
  | .escape high =>
    if c = 'u' then ([], .text start q (.code high 0 (some 0)))
    else
      let q := q.noteOpen high here
      match unescape? c with
      | some char => ([], .text start (q.push char) (.plain none))
      | none =>
        stopAt start here (q.brokenOff ⟨.unknownEscape, here + 1⟩ ⟨.unknownEscape, here + 1⟩)
  | .code high taken spelled =>
    let digits := match spelled, hexDigit? c with
      | some n, some digit => some (n * 16 + digit)
      | _, _ => none
    let count := taken + c.utf8Size
    if count < 4 then ([], .text start q (.code high count digits))
    else
      let past := here + (4 - taken)
      match digits with
      | some n =>
        let (q, high) := q.code high n past
        ([], .text start q (.plain high))
      | none => stopAt start here (q.brokenOff ⟨.unknownEscape, past⟩ ⟨.unknownEscape, past⟩)

namespace Scan

/-- Takes the character at an offset. -/
def step (scan : Scan) (here : Nat) (c : Char) : List Token × Scan :=
  match scan with
  | .between => begin here c
  | .word start lexeme due rest =>
    if c = due then
      match rest with
      | [] => ([⟨start, here + 1, lexeme⟩], .between)
      | next :: rest => ([], .word start lexeme next rest)
    else
      stopAt start here (.broken false ⟨.unknownWord, here + 1⟩ ⟨.unknownWord, here + 1⟩)
  | .number start numeral stage => stepNumber start here numeral stage c
  | .text start q inside => stepText start here q inside c
  | .over => ([], .over)

/-- Takes the end of the text. -/
def finish (scan : Scan) (here : Nat) : List Token :=
  match scan with
  | .between => [⟨here, here, .finish⟩]
  | .word start _ _ _ => [⟨start, here, .broken false ⟨.endInValue, here⟩ ⟨.endInValue, here⟩⟩]
  | .number start numeral stage =>
    match stage with
    | .zero | .whole | .fraction | .exponent =>
      [⟨start, here, .number (numeral.value here)⟩, ⟨here, here, .finish⟩]
    | _ => [⟨start, here, .broken false ⟨.endInValue, here⟩ ⟨.malformedNumber, here⟩⟩]
  | .text start q _ => [⟨start, here, q.brokenOff ⟨.endInText, here⟩ ⟨.endInText, here⟩⟩]
  | .over => []

end Scan

/-- The tokens of the characters from an offset on. -/
def scanFrom (scan : Scan) (here : Nat) : List Char → List Token
  | [] => scan.finish here
  | c :: rest => (scan.step here c).1 ++ scanFrom (scan.step here c).2 (here + c.utf8Size) rest

/-- The tokens of a text. -/
def scan (source : String) : List Token := scanFrom .between 0 source.toList

end Json

end PiBlocks
