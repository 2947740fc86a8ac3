import PiBlocks.Diagnostic.Basic
import PiBlocks.Text.Lines
import PiBlocks.Text.Width

/-!
# Diagnostics on a terminal

A report is a headline, for each place it points at the line of the source with carets
under the place, and the notes. Line numbers stand left of a rule ; everything without a
number is indented to the width of the number.

Tabs are shown up to the next stop of four columns and wide characters take two, so the
carets are put character by character : each character the place touches gets as many
carets as it takes columns (`Layout.carets`).
-/

namespace PiBlocks

namespace Layout

/-- The lines of a source with the offsets at which they begin. The last one may be empty. -/
def splitLines (start : Nat) : List Char → List (Nat × List Char)
  | [] => [(start, [])]
  | c :: rest =>
    if c = '\n' then (start, []) :: splitLines (start + 1) rest
    else
      match splitLines (start + c.utf8Size) rest with
      | [] => [(start, [c])]
      | (_, line) :: more => (start, c :: line) :: more

/-- The number, offset and characters of the line an offset lies in. -/
def lineAt (source : String) (offset : Nat) : Nat × Nat × List Char :=
  let before := (splitLines 0 source.toList).zipIdx.filter fun line => line.1.1 ≤ offset
  match before.getLast? with
  | some ((start, line), index) => (index + 1, start, line)
  | none => (1, 0, [])

/-- The characters of a line without the line ends and null characters behind it. -/
def trimLine (line : List Char) : List Char :=
  (line.reverse.dropWhile fun c => c = '\n' || c = '\r' || c = '\x00').reverse

/-- How many characters end at or before a distance in bytes. -/
def charsWithin (distance : Nat) : List Char → Nat
  | [] => 0
  | c :: rest =>
    if c.utf8Size ≤ distance then 1 + charsWithin (distance - c.utf8Size) rest else 0

/-- The columns a character takes that begins at a column. -/
def columns (column : Nat) (c : Char) : Nat :=
  if c = '\t' then 4 - column % 4 else Text.displayWidth c

/-- A line with its tabs expanded. -/
def expandTabs (column : Nat) : List Char → List Char
  | [] => []
  | c :: rest =>
    (if c = '\t' then List.replicate (columns column c) ' ' else [c])
      ++ expandTabs (column + columns column c) rest

/-- What stands under a character that takes some bytes and columns : carets if the place
touches it, spaces before that, nothing behind. -/
def mark (place : Text.Span) (offset bytes width : Nat) : List Char :=
  if max place.start offset < min place.stop (offset + bytes) then List.replicate width '^'
  else if offset < place.stop then List.replicate width ' '
  else []

/-- The carets under a line. Behind its last character there is room for one more. -/
def carets (place : Text.Span) (offset column : Nat) : List Char → List Char
  | [] => mark place offset 1 1
  | c :: rest =>
    mark place offset c.utf8Size (columns column c)
      ++ carets place (offset + c.utf8Size) (column + columns column c) rest

/-- Spaces in place of a line number. -/
def gutter (width : Nat) : String := String.ofList (List.replicate (width + 1) ' ')

/-- The lines of a report that show one place. `name` is the name of the file. -/
def snippet (name : String) (label : Label) (width number start : Nat) (line : List Char) :
    List String :=
  let shown := trimLine line
  let column := charsWithin (label.span.start - start) line + 1
  let place : Text.Span :=
    ⟨label.span.start - start, max (label.span.stop - start) (label.span.start - start + 1)⟩
  let numeral := toString number
  [ gutter width ++ "┌─ " ++ name ++ ":" ++ numeral ++ ":" ++ toString column,
    gutter width ++ "│",
    numeral ++ " │ " ++ String.ofList (expandTabs 0 shown),
    gutter width ++ "│ " ++ String.ofList (carets place 0 0 shown),
    gutter width ++ "│" ]

/-- The lines of a note : the first behind an equals sign, the others in line with it. -/
def noteLines (width : Nat) (note : String) : List String :=
  match Text.lines note with
  | [] => []
  | first :: more =>
    (gutter width ++ "= " ++ first) :: more.map fun line => gutter width ++ "  " ++ line

/-- The word for the gravity of a report. -/
def severityWord : Severity → String
  | .error => "error"
  | .warning => "warning"

end Layout

/-- A report as it is shown, about one source with a name. -/
def Diagnostic.layout (name source : String) (diagnostic : Diagnostic) : String :=
  let headline := Layout.severityWord diagnostic.severity ++ ": " ++ diagnostic.message
  let places := diagnostic.labels.map fun label => (label, Layout.lineAt source label.span.start)
  let width := (places.map fun place => (toString place.2.1).length).foldl max 0
  let snippets := places.flatMap fun (label, number, start, line) =>
    Layout.snippet name label width number start line
  let notes := diagnostic.notes.flatMap (Layout.noteLines width)
  String.join ((headline :: (snippets ++ notes ++ [""])).map fun line => line ++ "\n")

end PiBlocks
