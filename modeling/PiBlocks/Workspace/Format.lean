import PiBlocks.Json.Record
import PiBlocks.Workspace.Saved

/-!
# The save format

Saved blocks as JSON, in both directions. `SavedBlock.toJson` leaves out what is not there ;
`SavedBlock.read` takes back what was left out as absent, so what was written is read
unchanged.

Blocks are nested in each other to any depth. The reader counts down the depth of the value
it is given : a value with no list or object left in it is no block, whatever else it is.
-/

namespace PiBlocks

open Json (Reader Field Record)

/-! ## Reading -/

/-- The fields of a link. -/
def Link.record {α : Type} (inner : Reader α) : Record (Link α) where
  title := "struct Connection"
  fields := [
    { name := "block"
      read := fun node => do
        let block ← Json.Read.optional inner node
        return fun link => { link with block := block } },
    { name := "shadow"
      read := fun node => do
        let shadow ← Json.Read.optional inner node
        return fun link => { link with shadow := shadow } }]
  blank := {}

namespace SavedBlock

/-- The fields of a saved block, given a reader for the blocks inside it. -/
def record (inner : Reader SavedBlock) : Record SavedBlock where
  title := "struct BlockSpec"
  fields := [
    { name := "type"
      required := true
      read := fun node => do
        let kind ← Json.Read.variant Kind.named node
        return fun block => { block with kind := kind } },
    { name := "id"
      read := fun node => do
        let id ← Json.Read.optional Json.Read.text node
        return fun block => { block with id := id } },
    { name := "x"
      read := fun node => do
        let x ← Json.Read.optional Json.Read.real node
        return fun block => { block with x := x } },
    { name := "y"
      read := fun node => do
        let y ← Json.Read.optional Json.Read.real node
        return fun block => { block with y := y } },
    { name := "fields"
      read := fun node => do
        let fields ← Json.Read.map Json.Read.text node
        return fun block => { block with fields := fields } },
    { name := "inputs"
      read := fun node => do
        let inputs ← Json.Read.map (Link.record inner).read node
        return fun block => { block with inputs := inputs } },
    { name := "next"
      read := fun node => do
        let next ← Json.Read.optional (Link.record inner).read node
        return fun block => { block with next := next } }]
  blank := ofKind .main

/-- Reads a saved block in which lists and objects are nested at most so deep. -/
def readWithin : Nat → Reader SavedBlock
  | 0 => fun node => .error (node.mismatch "struct BlockSpec")
  | depth + 1 => (record (readWithin depth)).read

/-- Reads a saved block. -/
def read : Reader SavedBlock := fun node => readWithin node.depth node

end SavedBlock

namespace SavedWorkspace

/-- The fields that hold the blocks and the version. -/
def blocksRecord : Record SavedWorkspace where
  title := "struct TopBlocks"
  fields := [
    { name := "languageVersion"
      read := fun node => do
        let version ← Json.Read.word node
        return fun workspace => { workspace with version := version } },
    { name := "blocks"
      read := fun node => do
        let blocks ← Json.Read.list SavedBlock.read node
        return fun workspace => { workspace with blocks := blocks } }]
  blank := {}

/-- The fields of a workspace. -/
def record : Record SavedWorkspace where
  title := "struct WorkspaceSpec"
  fields := [
    { name := "blocks"
      read := fun node => do
        let workspace ← blocksRecord.read node
        return fun _ => workspace }]
  blank := {}

end SavedWorkspace

/-! ## Writing -/

mutual

/-- A saved block as JSON. -/
def SavedBlock.toJson : SavedBlock → Json
  | ⟨kind, id, x, y, fields, inputs, next⟩ =>
    .object (("type", .text kind.typeName)
      :: ((id.map fun id => ("id", Json.text id)).toList
      ++ (x.map fun x => ("x", Json.number (.real x))).toList
      ++ (y.map fun y => ("y", Json.number (.real y))).toList
      ++ (if fields.isEmpty then []
          else [("fields", .object (fields.map fun field => (field.1, .text field.2)))])
      ++ (if inputs.isEmpty then [] else [("inputs", .object (SavedBlock.inputsToJson inputs))])
      ++ SavedBlock.nextToJson next))

/-- The link behind a block as JSON. -/
def SavedBlock.nextToJson : Option (Link SavedBlock) → List (String × Json)
  | none => []
  | some ⟨block, shadow⟩ =>
    [("next", .object (SavedBlock.attachedToJson "block" block
      ++ SavedBlock.attachedToJson "shadow" shadow))]

/-- Inputs as JSON. -/
def SavedBlock.inputsToJson : List (String × Link SavedBlock) → List (String × Json)
  | [] => []
  | (slot, ⟨block, shadow⟩) :: inputs =>
    (slot, .object (SavedBlock.attachedToJson "block" block
      ++ SavedBlock.attachedToJson "shadow" shadow)) :: SavedBlock.inputsToJson inputs

/-- What a link carries, as JSON. -/
def SavedBlock.attachedToJson (name : String) : Option SavedBlock → List (String × Json)
  | none => []
  | some block => [(name, SavedBlock.toJson block)]

end

/-- A workspace as JSON. -/
def SavedWorkspace.toJson (workspace : SavedWorkspace) : Json :=
  .object [("blocks", .object [
    ("languageVersion", .number (.integer workspace.version)),
    ("blocks", .list (workspace.blocks.map SavedBlock.toJson))])]

end PiBlocks
