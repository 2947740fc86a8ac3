import PiBlocks.Text.Lines

/-!
# Lines of a program

A generated text is made of lines, each of which defines a process or belongs to the
program. `Line.order` lays them out with the definitions first, each followed by a blank
line, and keeps the order inside both groups. `Line.ofText` tells the kind of a line from
its text alone, by the equals sign after a space that only definitions have.
-/

namespace PiBlocks

/-- What a line is for. -/
inductive LineKind where
  | definition
  | program
deriving DecidableEq, Repr

/-- A line of a generated text. -/
structure Line where
  text : String
  kind : LineKind
deriving DecidableEq, Repr

namespace Line

/-- What marks a line as a definition. -/
def marker : String := " ="

/-- The line with a text, its kind told by the marker. -/
def ofText (text : String) : Line :=
  ⟨text, if Text.contains text marker then .definition else .program⟩

/-- The texts of the lines of a kind that are not empty. -/
def textsOf (kind : LineKind) (lines : List Line) : List String :=
  (lines.filter fun line => !line.text.isEmpty && decide (line.kind = kind)).map Line.text

/-- The text of lines, definitions first. -/
def order (lines : List Line) : String :=
  match textsOf .definition lines, textsOf .program lines with
  | [], program => Text.join "\n" program
  | definitions, [] => Text.join "\n\n" definitions
  | definitions, program =>
    Text.join "\n\n" definitions ++ "\n\n" ++ Text.join "\n" program

/-- The text of lines in their own order. -/
def raw (lines : List Line) : String := Text.join "\n" (lines.map Line.text)

/-- The text with its definitions first. -/
def canonical (text : String) : String :=
  order (((Text.lines text).filter fun line => !line.isEmpty).map ofText)

end Line

end PiBlocks
