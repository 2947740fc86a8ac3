import PiBlocks.Toml.Scalar

/-!
# Configuration files

The grammar of a TOML document over the readers for strings and scalars, and the values it
assigns (`Toml.parse`). A document that breaks a rule has no value ; why is not told.

Values are nested in each other, so their reader counts down : each value and each entry of
a list or table takes at least one character, and the length of the text is enough. Brackets
and braces may be open in each other to a depth of 79, and a key has at most 79 parts
(`maxDepth`).
-/

namespace PiBlocks

namespace Toml

/-- How many brackets and braces may be open at once, and how many parts a key may have. -/
def maxDepth : Nat := 79

/-- Whether a character may stand in a key without quotes. -/
def isKeyPart (c : Char) : Bool := c.isAlphanum || c = '_' || c = '-'

/-- One part of a key. -/
def keyPart (chars : List Char) : Option (String × List Char) :=
  match chars with
  | '"' :: rest => (quotedText rest).map fun (chars, rest) => (String.ofList chars, rest)
  | '\'' :: rest => (plainText rest).map fun (chars, rest) => (String.ofList chars, rest)
  | chars =>
    match chars.takeWhile isKeyPart with
    | [] => none
    | part => some (String.ofList part, chars.dropWhile isKeyPart)

/-- A key with its parts, at most so many, and the blanks around it. -/
def key : Nat → List Char → Option (List String × List Char)
  | 0, _ => none
  | fuel + 1, chars => do
    let (part, rest) ← keyPart (skipBlanks chars)
    match skipBlanks rest with
    | '.' :: rest =>
      let (parts, rest) ← key fuel rest
      return (part :: parts, rest)
    | rest => return ([part], rest)

/-- The last part of a key and what stands before it. -/
def splitLast : List String → Option (List String × String)
  | [] => none
  | [part] => some ([], part)
  | part :: parts => (splitLast parts).map fun (path, last) => (part :: path, last)

/-- Takes away a comment. -/
def skipComment : List Char → Option (List Char)
  | '#' :: rest =>
    let comment := rest.takeWhile fun c => decide (c ≠ '\n')
    let body := if comment.getLast? = some '\r' && rest.any (fun c => decide (c = '\n'))
      then comment.dropLast else comment
    if body.all isPrintable then some (rest.drop body.length) else none
  | rest => some rest

/-- Takes away blanks, comments and line breaks, at most so many. -/
def skipFiller : Nat → List Char → Option (List Char)
  | 0, chars => some chars
  | fuel + 1, chars => do
    let rest ← skipComment (skipBlanks chars)
    match lineBreak? rest with
    | some rest => skipFiller fuel rest
    | none => return rest

mutual

/-- A value in which so many more brackets and braces may be opened. -/
def value : Nat → Nat → List Char → Option (Toml × List Char)
  | 0, _, _ => none
  | fuel + 1, room, chars =>
    match chars, room with
    | '[' :: _, 0 | '\x7b' :: _, 0 => none
    | '[' :: rest, room + 1 => do
      let (items, rest) ← values fuel room rest
      return (.list items, rest)
    | '\x7b' :: rest, room + 1 =>
      match skipBlanks rest with
      | '\x7d' :: rest => some (.inline [], rest)
      | rest => do
        let (entries, rest) ← inlineEntries fuel room [] rest
        return (.inline entries, rest)
    | '"' :: _, _ | '\'' :: _, _ =>
      (string chars).map fun (found, rest) => (.text found, rest)
    | _, _ => scalar chars

/-- The values of a list up to its closing bracket. -/
def values : Nat → Nat → List Char → Option (List Toml × List Char)
  | 0, _, _ => none
  | fuel + 1, room, chars => do
    match ← skipFiller chars.length chars with
    | ']' :: rest => return ([], rest)
    | chars =>
      let (item, rest) ← value fuel room chars
      match ← skipFiller rest.length rest with
      | ',' :: rest =>
        let (items, rest) ← values fuel room rest
        return (item :: items, rest)
      | ']' :: rest => return ([item], rest)
      | _ => none

/-- The entries of a table in braces up to its closing brace. -/
def inlineEntries : Nat → Nat → Entries → List Char → Option (Entries × List Char)
  | 0, _, _, _ => none
  | fuel + 1, room, entries, chars => do
    let (parts, rest) ← key maxDepth chars
    let (path, last) ← splitLast parts
    let rest ← expect '=' rest
    let (item, rest) ← value fuel room (skipBlanks rest)
    let entries ← assign path last item false entries
    match skipBlanks rest with
    | ',' :: rest => inlineEntries fuel room entries rest
    | '\x7d' :: rest => return (entries, rest)
    | _ => none

end

/-- Takes away what may stand behind an entry or a header, up to the next line. -/
def endLine (chars : List Char) : Option (List Char) := do
  match ← skipComment (skipBlanks chars) with
  | [] => return []
  | rest => lineBreak? rest

/-- The lines of a document from one on, added to what was read. `header` is what they
stand under. -/
def document : Nat → List String → Entries → List Char → Option Entries
  | 0, _, _, _ => none
  | fuel + 1, header, entries, chars =>
    match skipBlanks chars with
    | [] => some entries
    | '[' :: '[' :: rest => do
      let (parts, rest) ← key maxDepth rest
      let rest ← expect ']' rest
      let rest ← expect ']' rest
      let (path, last) ← splitLast parts
      let entries ← openElement path last entries
      document fuel parts entries (← endLine rest)
    | '[' :: rest => do
      let (parts, rest) ← key maxDepth rest
      let rest ← expect ']' rest
      let (path, last) ← splitLast parts
      let entries ← openTable path last entries
      document fuel parts entries (← endLine rest)
    | rest =>
      if rest.head? = some '#' || (lineBreak? rest).isSome then do
        document fuel header entries (← endLine rest)
      else do
        let (parts, rest) ← key maxDepth rest
        let (path, last) ← splitLast parts
        let rest ← expect '=' rest
        let (item, rest) ← value rest.length maxDepth (skipBlanks rest)
        let entries ← assignIn header path last item entries
        document fuel header entries (← endLine rest)

/-- The entries of a document ; nothing if it is malformed. -/
def parse (text : String) : Option Entries :=
  let chars := match text.toList with
    | c :: rest => if c.toNat = 0xFEFF then rest else c :: rest
    | [] => []
  document (chars.length + 1) [] [] chars

end Toml

end PiBlocks
