import PiBlocks.Text.Offset

/-!
# Diagnostics

A report to the user about a source : how grave it is, what it says, the places it points
at and further notes. How it looks on a terminal is the business of
`PiBlocks.Diagnostic.Layout`.
-/

namespace PiBlocks

/-- How grave a report is. -/
inductive Severity where
  | error
  | warning
deriving DecidableEq, Repr

/-- A place in a file. -/
structure Label where
  file : Nat
  span : Text.Span
deriving DecidableEq, Repr

/-- A report. -/
structure Diagnostic where
  severity : Severity
  message : String
  labels : List Label
  notes : List String
deriving DecidableEq, Repr

end PiBlocks
