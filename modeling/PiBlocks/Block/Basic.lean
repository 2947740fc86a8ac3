import PiBlocks.Block.Kind
import PiBlocks.OrderedMap

/-!
# Blocks

A block has an id, a kind, text fields and slots. A slot holds a chain : the blocks of a
list, one after the other. A single child is a chain of one.

Everything that hangs off a block is part of it, so the tree is a plain inductive type,
and what is done to it is done by recursion on it. What a block needs to know of its
surroundings (the block before it, the owner of its slot) is no part of it ; see
`PiBlocks.Block.Site`.
-/

namespace PiBlocks

/-- A block with everything that hangs off it. -/
inductive Block where
  | mk (id : String) (kind : Kind) (fields : OrderedMap String)
      (slots : List (String × List Block))
deriving Repr

namespace Block

/-- The id an editor knows the block by. -/
def id : Block → String
  | .mk id _ _ _ => id

/-- The kind of the block. -/
def kind : Block → Kind
  | .mk _ kind _ _ => kind

/-- The fields in order. -/
def fields : Block → OrderedMap String
  | .mk _ _ fields _ => fields

/-- The slots in order. -/
def slots : Block → List (String × List Block)
  | .mk _ _ _ slots => slots

@[simp] theorem id_mk (id kind fields slots) : (Block.mk id kind fields slots).id = id := rfl

@[simp] theorem kind_mk (id kind fields slots) : (Block.mk id kind fields slots).kind = kind := rfl

@[simp] theorem fields_mk (id kind fields slots) :
    (Block.mk id kind fields slots).fields = fields := rfl

@[simp] theorem slots_mk (id kind fields slots) :
    (Block.mk id kind fields slots).slots = slots := rfl

/-- A field, if the block has it. -/
def field? (block : Block) (name : String) : Option String := OrderedMap.get? name block.fields

/-- A field, empty if the block does not have it. -/
def field (block : Block) (name : String) : String := (block.field? name).getD ""

/-- The chain in a slot, empty if the slot is. -/
def chain (block : Block) (slot : String) : List Block :=
  (OrderedMap.get? slot block.slots).getD []

/-- The non-empty values of a field along a chain. -/
def namesIn (field : String) (chain : List Block) : List String :=
  (chain.map fun block => block.field field).filter fun name => !name.isEmpty

end Block

end PiBlocks
