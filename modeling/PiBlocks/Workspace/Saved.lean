import PiBlocks.Block.Kind
import PiBlocks.OrderedMap

/-!
# Saved blocks

The form in which an editor saves blocks. A saved block may lack its id ; its slots are
inputs, each linked to one block, and the rest of a chain hangs off the `next` link of its
head. A link can carry a block, a shadow that stands in while no block is attached, both
or neither ; the block wins (`Link.target`).

Saved blocks are also how a workspace is written down by hand : `SavedBlock.ofKind` and the
functions after it build one step by step.
-/

namespace PiBlocks

/-- What is attached at an input or behind a block. -/
structure Link (α : Type) where
  block : Option α := none
  shadow : Option α := none
deriving Repr

/-- The attached block, or else the shadow. -/
def Link.target {α : Type} (link : Link α) : Option α := link.block.or link.shadow

/-- A link that carries a block. -/
def Link.of {α : Type} (block : α) : Link α := ⟨some block, none⟩

/-- A block as an editor saves it. -/
structure SavedBlock where
  kind : Kind
  id : Option String := none
  x : Option Float := none
  y : Option Float := none
  fields : OrderedMap String := []
  inputs : List (String × Link SavedBlock) := []
  next : Option (Link SavedBlock) := none

/-- The blocks of a workspace. `version` is the editor's mark on the format. -/
structure SavedWorkspace where
  version : Nat := 0
  blocks : List SavedBlock := []

namespace SavedBlock

/-- A block with nothing on it. -/
def ofKind (kind : Kind) : SavedBlock := { kind := kind }

/-- Sets the id. -/
def withId (block : SavedBlock) (id : String) : SavedBlock := { block with id := some id }

/-- Sets the place on the canvas. -/
def placed (block : SavedBlock) (x y : Float) : SavedBlock :=
  { block with x := some x, y := some y }

/-- Sets a field. -/
def withField (block : SavedBlock) (name value : String) : SavedBlock :=
  { block with fields := block.fields.insert name value }

/-- Links blocks one behind the other and returns the head. What was behind a block before
is dropped. -/
def chain : List SavedBlock → Option SavedBlock
  | [] => none
  | block :: rest => some { block with next := (chain rest).map .of }

/-- Puts one block into a slot. -/
def withValue (block : SavedBlock) (slot : String) (child : SavedBlock) : SavedBlock :=
  { block with inputs := OrderedMap.insert slot (.of child) block.inputs }

/-- Puts a chain into a slot. An empty chain empties the slot. -/
def withStatements (block : SavedBlock) (slot : String) (children : List SavedBlock) :
    SavedBlock :=
  match chain children with
  | some head => block.withValue slot head
  | none => { block with inputs := OrderedMap.erase slot block.inputs }

end SavedBlock

end PiBlocks
