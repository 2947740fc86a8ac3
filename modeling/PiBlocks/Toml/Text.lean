/-!
# Strings of a configuration

A string stands in quotes, with escapes, or in apostrophes, as it is ; three of either make
a string that may go over lines. Each reader takes the characters behind the opening quotes
and gives the string and what follows the closing ones, or nothing if the string is
malformed.
-/

namespace PiBlocks

namespace Toml

/-- Adds a character before a string that was read. -/
def before (c : Char) (taken : Option (List Char × List Char)) : Option (List Char × List Char) :=
  taken.map fun (chars, rest) => (c :: chars, rest)

/-- Whether a character may stand in a string on one line. -/
def isPrintable (c : Char) : Bool := c = '\t' || (32 ≤ c.toNat && c.toNat ≠ 127)

/-- The value of a hexadecimal digit. -/
def hexValue? (c : Char) : Option Nat :=
  if c.isDigit then some (c.toNat - 48)
  else if 'a' ≤ c ∧ c ≤ 'f' then some (c.toNat - 87)
  else if 'A' ≤ c ∧ c ≤ 'F' then some (c.toNat - 55)
  else none

/-- The character with the number that hexadecimal digits spell. -/
def charOf? (digits : List Char) : Option Char := do
  let number ← digits.foldlM (fun n c => (hexValue? c).map fun digit => n * 16 + digit) 0
  if h : number.isValidChar then some (Char.ofNatAux number h) else none

/-- The character a letter behind a backslash stands for. -/
def unescape? (c : Char) : Option Char :=
  if c = 'b' then some '\x08'
  else if c = 't' then some '\t'
  else if c = 'n' then some '\n'
  else if c = 'f' then some '\x0c'
  else if c = 'r' then some '\r'
  else if c = '"' then some '"'
  else if c = '\\' then some '\\'
  else none

/-- A string in quotes. -/
def quotedText : List Char → Option (List Char × List Char)
  | [] => none
  | '"' :: rest => some ([], rest)
  | '\\' :: 'u' :: a :: b :: c :: d :: rest => do
    let char ← charOf? [a, b, c, d]
    before char (quotedText rest)
  | '\\' :: 'U' :: a :: b :: c :: d :: e :: f :: g :: h :: rest => do
    let char ← charOf? [a, b, c, d, e, f, g, h]
    before char (quotedText rest)
  | '\\' :: c :: rest => do
    let char ← unescape? c
    before char (quotedText rest)
  | c :: rest => if isPrintable c then before c (quotedText rest) else none

/-- A string in apostrophes. -/
def plainText : List Char → Option (List Char × List Char)
  | [] => none
  | c :: rest =>
    if c = '\'' then some ([], rest)
    else if isPrintable c then before c (plainText rest)
    else none

/-- Takes away a line break. -/
def lineBreak? : List Char → Option (List Char)
  | '\n' :: rest => some rest
  | '\r' :: '\n' :: rest => some rest
  | _ => none

/-- Takes away spaces and tabs. -/
def skipBlanks : List Char → List Char
  | [] => []
  | c :: rest => if c = ' ' || c = '\t' then skipBlanks rest else c :: rest

/-- Takes away spaces, tabs and line breaks. -/
def skipSpace : List Char → List Char
  | ' ' :: rest => skipSpace rest
  | '\t' :: rest => skipSpace rest
  | '\n' :: rest => skipSpace rest
  | '\r' :: '\n' :: rest => skipSpace rest
  | rest => rest

/-- The quotes at the front, at most five, and what follows. A long string ends with three of
them, and up to two before those belong to it. -/
def countQuotes (quote : Char) (most : Nat) : List Char → Nat × List Char
  | [] => (0, [])
  | c :: rest =>
    match most with
    | 0 => (0, c :: rest)
    | most + 1 =>
      if c = quote then
        let (count, rest) := countQuotes quote most rest
        (count + 1, rest)
      else (0, c :: rest)

/-- The characters of a long string up to `fuel` of them. `escapes` tells whether a backslash
means something in it. -/
def longChars (quote : Char) (escapes : Bool) : Nat → List Char → Option (List Char × List Char)
  | 0, _ => none
  | fuel + 1, chars =>
    match chars with
    | [] => none
    | c :: rest =>
      if c = quote then
        let (count, after) := countQuotes quote 5 (c :: rest)
        if 3 ≤ count then some (List.replicate (count - 3) quote, after)
        else
          (longChars quote escapes fuel after).map fun (chars, rest) =>
            (List.replicate count quote ++ chars, rest)
      else if escapes && c = '\\' then
        match rest with
        | 'u' :: a :: b :: c :: d :: rest => do
          let char ← charOf? [a, b, c, d]
          before char (longChars quote escapes fuel rest)
        | 'U' :: a :: b :: c :: d :: e :: f :: g :: h :: rest => do
          let char ← charOf? [a, b, c, d, e, f, g, h]
          before char (longChars quote escapes fuel rest)
        | _ =>
          match lineBreak? (skipBlanks rest) with
          | some rest => longChars quote escapes fuel (skipSpace rest)
          | none =>
            match rest with
            | [] => none
            | c :: rest => do
              let char ← unescape? c
              before char (longChars quote escapes fuel rest)
      else
        match lineBreak? (c :: rest) with
        | some rest => before '\n' (longChars quote escapes fuel rest)
        | none => if isPrintable c then before c (longChars quote escapes fuel rest) else none

/-- A string that may go over lines. A line break right behind the opening quotes is no part
of it. -/
def longText (quote : Char) (escapes : Bool) (chars : List Char) : Option (List Char × List Char) :=
  longChars quote escapes (chars.length + 1) ((lineBreak? chars).getD chars)

/-- A string, whatever quotes it has. -/
def string : List Char → Option (String × List Char)
  | '"' :: '"' :: '"' :: rest =>
    (longText '"' true rest).map fun (chars, rest) => (String.ofList chars, rest)
  | '"' :: rest => (quotedText rest).map fun (chars, rest) => (String.ofList chars, rest)
  | '\'' :: '\'' :: '\'' :: rest =>
    (longText '\'' false rest).map fun (chars, rest) => (String.ofList chars, rest)
  | '\'' :: rest => (plainText rest).map fun (chars, rest) => (String.ofList chars, rest)
  | _ => none

end Toml

end PiBlocks
