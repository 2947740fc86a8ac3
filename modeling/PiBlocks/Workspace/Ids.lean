import PiBlocks.OrderedMap
import PiBlocks.Text.Blank
import PiBlocks.Text.Offset

/-!
# Where ids are written

A save file is text that somebody may look at, so a report about a block points at the
block's id in it. `idSpans` finds every place where the text reads `"id"`, a colon and a
string, with white space around the colon, and notes the contents of the string up to the
next quote. Of several places with the same contents the first one counts.
-/

namespace PiBlocks

namespace IdSpan

/-- The characters behind white space, and the offset at which they begin. -/
def afterSpace (offset : Nat) : List Char → Nat × List Char
  | [] => (offset, [])
  | c :: rest =>
    if Text.isSpace c then afterSpace (offset + c.utf8Size) rest else (offset, c :: rest)

/-- The characters before the next quote, and the offset of the quote. -/
def untilQuote (offset : Nat) : List Char → Option (List Char × Nat)
  | [] => none
  | c :: rest =>
    if c = '"' then some ([], offset)
    else (untilQuote (offset + c.utf8Size) rest).map fun (chars, stop) => (c :: chars, stop)

/-- The string that follows an `"id"` that ends at an offset. -/
def value? (offset : Nat) (rest : List Char) : Option (String × Text.Span) :=
  match afterSpace offset rest with
  | (offset, ':' :: rest) =>
    match afterSpace (offset + 1) rest with
    | (offset, '"' :: rest) =>
      (untilQuote (offset + 1) rest).map fun (chars, stop) =>
        (String.ofList chars, ⟨offset + 1, stop⟩)
    | _ => none
  | _ => none

/-- The strings behind every `"id"`, from an offset on. -/
def all (offset : Nat) : List Char → List (String × Text.Span)
  | '"' :: 'i' :: 'd' :: '"' :: rest =>
    match value? (offset + 4) rest with
    | some found => found :: all (offset + 4) rest
    | none => all (offset + 4) rest
  | c :: rest => all (offset + c.utf8Size) rest
  | [] => []

end IdSpan

/-- Where each id is first written. -/
def idSpans (source : String) : List (String × Text.Span) :=
  IdSpan.all 0 source.toList

end PiBlocks
