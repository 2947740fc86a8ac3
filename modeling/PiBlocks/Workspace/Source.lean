import PiBlocks.Diagnostic.Basic
import PiBlocks.Text.Blank
import PiBlocks.Workspace.Format
import PiBlocks.Workspace.Ids
import PiBlocks.Workspace.Tree

/-!
# Loading a workspace

A save file is either what an editor saves by itself (the blocks at the top) or a combined
document with the blocks under `workspace` ; if a text has both, `workspace` wins. A blank
text is an empty workspace.

`Source.load` reads the text, builds the tree and notes where its ids are written. What can
go wrong is a text that is no save file and an id that comes twice (`LoadError`).
-/

namespace PiBlocks

/-- A text to load and the number by which reports name its file. -/
structure Source where
  text : String
  file : Nat := 0

/-- Why a source cannot be loaded. -/
inductive LoadError where
  | unreadable (error : JsonError)
  | repeatedId (id : String)
deriving DecidableEq, Repr

namespace LoadError

/-- The error in words. -/
def message (source : Source) : LoadError → String
  | .unreadable error => "invalid workspace: " ++ error.message source.text
  | .repeatedId id => "duplicate block id '" ++ id ++ "'"

/-- The place the error points at. An id that comes twice has none. -/
def span? (source : Source) : LoadError → Option Text.Span
  | .unreadable error =>
    let place := error.place source.text
    let offset := Text.offsetOf source.text place.1 place.2
    some ⟨offset, offset⟩
  | .repeatedId _ => none

/-- The file the error points at. -/
def file (source : Source) : LoadError → Nat
  | .unreadable _ => source.file
  | .repeatedId _ => 0

/-- What the user should know besides. -/
def notes : LoadError → List String
  | .unreadable _ => ["expected an editor save or a \x7b\"workspace\", \"state\"\x7d document"]
  | .repeatedId _ => []

/-- The error as a report. -/
def diagnostic (source : Source) (error : LoadError) : Diagnostic where
  severity := .error
  message := error.message source
  labels := ((error.span? source).map fun span => ⟨error.file source, span⟩).toList
  notes := error.notes

end LoadError

/-- What a save file holds of interest here. -/
structure SaveFile where
  workspace : Option SavedWorkspace := none
  blocks : Option SavedWorkspace := none

/-- The fields of a save file. -/
def SaveFile.record : Json.Record SaveFile where
  title := "struct SaveFile"
  fields := [
    { name := "workspace"
      read := fun node => do
        let workspace ← Json.Read.optional SavedWorkspace.record.read node
        return fun file => { file with workspace := workspace } },
    { name := "blocks"
      read := fun node => do
        let blocks ← Json.Read.optional SavedWorkspace.blocksRecord.read node
        return fun file => { file with blocks := blocks } }]
  blank := {}

namespace Source

/-- The saved blocks of a source. -/
def workspace (source : Source) : Except LoadError SavedWorkspace :=
  if Text.isBlank source.text then .ok {}
  else
    match (Json.Document.parse source.text).read SaveFile.record.read with
    | .ok file => .ok ((file.workspace.or file.blocks).getD {})
    | .error error => .error (.unreadable error)

/-- The tree of a source. -/
def load (source : Source) : Except LoadError Tree := do
  let workspace ← source.workspace
  match Tree.ofSaved workspace.blocks with
  | .ok tree => return { tree with file := source.file, spans := idSpans source.text }
  | .error id => throw (.repeatedId id)

end Source

end PiBlocks
