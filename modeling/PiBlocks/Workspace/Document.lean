import PiBlocks.Scope.Format
import PiBlocks.Scope.Scopes
import PiBlocks.Text.Blank
import PiBlocks.Workspace.Format
import PiBlocks.Workspace.Tree

/-!
# Combined documents

A combined document holds the blocks of a workspace and the snapshot of the last finished
run. It is written by `Tree.save`. Its state can be read by itself (`Snapshot.ofSource`),
whatever else the text holds, and so can the whole document (`SaveDocument.parse`).
-/

namespace PiBlocks

/-- A workspace and, if there is one, the snapshot of its last run. -/
structure SaveDocument where
  workspace : SavedWorkspace
  state : Option Snapshot := none

namespace SaveDocument

/-- The fields of a combined document. -/
def record : Json.Record SaveDocument where
  title := "struct SavedWorkspace"
  fields := [
    { name := "workspace"
      required := true
      read := fun node => do
        let workspace ← SavedWorkspace.record.read node
        return fun document => { document with workspace := workspace } },
    { name := "state"
      read := fun node => do
        let state ← Json.Read.optional Snapshot.record.read node
        return fun document => { document with state := state } }]
  blank := { workspace := {} }

/-- Reads a combined document. -/
def parse (source : String) : Except JsonError SaveDocument :=
  (Json.Document.parse source).read record.read

/-- A combined document as JSON. A missing state is written as null. -/
def toJson (document : SaveDocument) : Json :=
  .object [("workspace", document.workspace.toJson),
    ("state", match document.state with
      | some snapshot => snapshot.toJson
      | none => .null)]

end SaveDocument

/-- The field of a document that holds its state. -/
def Snapshot.stateRecord : Json.Record (Option Snapshot) where
  title := "struct StateOnly"
  fields := [
    { name := "state"
      read := fun node => do
        let state ← Json.Read.optional Snapshot.record.read node
        return fun _ => state }]
  blank := none

/-- The snapshot a source holds, if any. A blank source holds none. -/
def Snapshot.ofSource (source : String) : Except JsonError (Option Snapshot) :=
  if Text.isBlank source then .ok none
  else (Json.Document.parse source).read Snapshot.stateRecord.read

/-- How an unreadable state is reported. -/
def stateMessage (source : String) (error : JsonError) : String :=
  "invalid saved state: " ++ error.message source

/-- Makes the snapshot a source holds the committed one, and tells whether there was one. -/
def Scopes.restoreFrom (scopes : Scopes) (source : String) : Except JsonError (Bool × Scopes) := do
  match ← Snapshot.ofSource source with
  | some snapshot => return (true, scopes.restore snapshot)
  | none => return (false, scopes)

/-- The combined document of a tree and the committed snapshot. -/
def Tree.save (tree : Tree) (scopes : Scopes) : String :=
  (SaveDocument.toJson ⟨tree.toSaved, some scopes.committed⟩).pretty

end PiBlocks
