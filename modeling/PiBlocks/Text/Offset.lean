/-!
# Offsets, lines and columns

Places in a source text are byte offsets of its UTF-8 form. A report names a place by
the number of its line, from one, and the bytes since the line's first one (`position`).
`offsetOf` goes the other way : it takes a one-based column, so a place named by
`position` comes back one byte earlier, unless it begins its line.
-/

namespace PiBlocks.Text

/-- Length in bytes. -/
def byteLength (chars : List Char) : Nat :=
  match chars with
  | [] => 0
  | c :: rest => c.utf8Size + byteLength rest

/-- Line and column of the place `remaining` bytes ahead, counted on from a line and column. -/
def positionFrom (line column : Nat) : Nat → List Char → Nat × Nat
  | _, [] => (line, column)
  | remaining, c :: rest =>
    if remaining = 0 then (line, column)
    else if remaining < c.utf8Size then (line, column + remaining)
    else if c = '\n' then positionFrom (line + 1) 0 (remaining - 1) rest
    else positionFrom line (column + c.utf8Size) (remaining - c.utf8Size) rest

/-- One-based line of a byte offset, and the bytes between the start of that line and it. -/
def position (source : String) (offset : Nat) : Nat × Nat :=
  positionFrom 1 0 offset source.toList

/-- Where the given line starts, counted on from `offset`. A line that holds nothing, not
even a line feed, does not exist. -/
def lineStart? (offset : Nat) : Nat → List Char → Option Nat
  | _, [] => none
  | 0, _ :: _ => none
  | 1, _ :: _ => some offset
  | line + 2, c :: rest =>
    if c = '\n' then lineStart? (offset + 1) (line + 1) rest
    else lineStart? (offset + c.utf8Size) (line + 2) rest

/-- The byte offset of a one-based line and column, never past the end of the source. -/
def offsetOf (source : String) (line column : Nat) : Nat :=
  match lineStart? 0 line source.toList with
  | some start => min (start + (column - 1)) (byteLength source.toList)
  | none => byteLength source.toList

/-- A half-open range of byte offsets. -/
structure Span where
  start : Nat
  stop : Nat
deriving DecidableEq, Repr

end PiBlocks.Text
