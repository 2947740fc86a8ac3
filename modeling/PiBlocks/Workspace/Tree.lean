import PiBlocks.Block.Site
import PiBlocks.Text.Offset
import PiBlocks.Workspace.Saved

/-!
# Trees

A tree is a workspace ready for use : the chains of its top level, in the order of the
file, with their places on the canvas. `Tree.ofSaved` makes one from saved blocks. A block
without an id is given one that tells its index among the sites of the tree, and a
workspace in which an id comes twice is refused.

Text is generated from the chains in reading order (`Tree.ordered`) : from top to bottom
along rows that lean by three degrees, so that of two blocks at one height the left one
comes first. `Tree.toSaved` writes the tree down again in that order.
-/

namespace PiBlocks

/-- A chain of the top level. Its place is known when both coordinates were saved. -/
structure Root where
  head : Block
  rest : List Block
  place : Option (Float × Float)
deriving Repr

/-- The blocks of the chain. -/
def Root.chain (root : Root) : List Block := root.head :: root.rest

/-- A workspace ready for use. `spans` tells where in the source an id is written. -/
structure Tree where
  /-- the chains of the top level in the order of the file -/
  roots : List Root := []
  /-- the file that reports name -/
  file : Nat := 0
  spans : List (String × Text.Span) := []
deriving Repr

/-! ## From saved blocks -/

mutual

/-- The chain that begins with a saved block. The state counts the blocks so far. -/
def SavedBlock.toChain : SavedBlock → StateM Nat (Block × List Block)
  | ⟨kind, id, _, _, fields, inputs, next⟩ => do
    let index ← modifyGet fun count => (count, count + 1)
    let slots ← SavedBlock.toSlots inputs
    let rest ← SavedBlock.toRest next
    return (.mk (id.getD ("block-" ++ toString index)) kind fields slots, rest)

/-- The blocks behind a block. -/
def SavedBlock.toRest : Option (Link SavedBlock) → StateM Nat (List Block)
  | some ⟨some block, _⟩ => do
    let (head, rest) ← SavedBlock.toChain block
    return head :: rest
  | some ⟨none, some shadow⟩ => do
    let (head, rest) ← SavedBlock.toChain shadow
    return head :: rest
  | some ⟨none, none⟩ => return []
  | none => return []

/-- The chains of the inputs that carry something. -/
def SavedBlock.toSlots :
    List (String × Link SavedBlock) → StateM Nat (List (String × List Block))
  | [] => return []
  | (slot, ⟨some block, _⟩) :: inputs => do
    let (head, rest) ← SavedBlock.toChain block
    let slots ← SavedBlock.toSlots inputs
    return (slot, head :: rest) :: slots
  | (slot, ⟨none, some shadow⟩) :: inputs => do
    let (head, rest) ← SavedBlock.toChain shadow
    let slots ← SavedBlock.toSlots inputs
    return (slot, head :: rest) :: slots
  | (_, ⟨none, none⟩) :: inputs => SavedBlock.toSlots inputs

end

/-- The place on the canvas, if both coordinates are known. -/
def SavedBlock.place (block : SavedBlock) : Option (Float × Float) :=
  match block.x, block.y with
  | some x, some y => some (x, y)
  | _, _ => none

/-- The chains of the top level. -/
def Root.ofSaved : List SavedBlock → StateM Nat (List Root)
  | [] => return []
  | block :: blocks => do
    let (head, rest) ← block.toChain
    let roots ← Root.ofSaved blocks
    return ⟨head, rest, block.place⟩ :: roots

namespace Tree

/-- All sites, in the order of the file. -/
def sites (tree : Tree) : List Site := tree.roots.flatMap fun root => Block.sitesOf [] root.chain

/-- All ids, in the order of the file. -/
def ids (tree : Tree) : List String := tree.sites.map fun site => site.block.id

/-- The site of the block with an id. -/
def find? (tree : Tree) (id : String) : Option Site :=
  tree.sites.find? fun site => site.block.id = id

/-- Where the id of a block is written in the source. -/
def span? (tree : Tree) (id : String) : Option Text.Span := OrderedMap.get? id tree.spans

end Tree

/-- The first entry that equals an earlier one. -/
def firstRepeated (seen : List String) : List String → Option String
  | [] => none
  | id :: rest => if seen.contains id then some id else firstRepeated (id :: seen) rest

/-- The tree of saved blocks, or the first id that comes a second time. -/
def Tree.ofSaved (blocks : List SavedBlock) : Except String Tree :=
  let tree : Tree := { roots := ((Root.ofSaved blocks).run 0).1 }
  match firstRepeated [] tree.ids with
  | some id => .error id
  | none => .ok tree

/-! ## Reading order -/

/-- The sine of three degrees, by which rows lean. -/
def rowSlant : Float := 0.05233595624294383

/-- Where a chain comes in reading order. A chain without a place counts as standing at the
origin. -/
def Root.key (root : Root) : Float :=
  match root.place with
  | some (x, y) => y + rowSlant * x
  | none => 0.0

/-- An integer that orders doubles as their bit patterns do, negative zero before zero. Arithmetic
leaves open which sign a NaN gets. There is one here, without a sign, behind all numbers, so of keys
that are not numbers the order says nothing. -/
def Float.rank (value : Float) : Int :=
  let bits := value.toBits.toNat
  if bits < Nat.pow 2 63 then bits else -((bits - Nat.pow 2 63 : Nat) : Int) - 1

/-- Puts a chain before the first one with a larger key. -/
def Root.insertSorted (root : Root) : List Root → List Root
  | [] => [root]
  | other :: rest =>
    if Float.rank root.key < Float.rank other.key then root :: other :: rest
    else other :: Root.insertSorted root rest

/-- Chains in reading order ; chains with equal keys keep their order. -/
def Root.sort (roots : List Root) : List Root :=
  roots.foldl (fun sorted root => Root.insertSorted root sorted) []

/-- The chains of the top level in reading order. -/
def Tree.ordered (tree : Tree) : List Root := Root.sort tree.roots

/-! ## Back to saved blocks -/

mutual

/-- A block as a saved block, with the saved rest of its chain behind it. -/
def Block.saveBefore (next : Option SavedBlock) : Block → SavedBlock
  | .mk id kind fields slots => {
      kind := kind
      id := some id
      fields := fields
      inputs := Block.saveSlots slots
      next := next.map .of }

/-- A chain as a saved block, with the rest of the chain behind it. -/
def Block.saveChain : List Block → Option SavedBlock
  | [] => none
  | block :: rest => some (Block.saveBefore (Block.saveChain rest) block)

/-- Chains in slots as inputs. -/
def Block.saveSlots : List (String × List Block) → List (String × Link SavedBlock)
  | [] => []
  | (slot, chain) :: slots =>
    match Block.saveChain chain with
    | some head => (slot, .of head) :: Block.saveSlots slots
    | none => Block.saveSlots slots

end

/-- A chain of the top level as a saved block. -/
def Root.toSaved (root : Root) : SavedBlock :=
  { Block.saveBefore (Block.saveChain root.rest) root.head with
    x := root.place.map Prod.fst
    y := root.place.map Prod.snd }

/-- The workspace as it would be saved, in reading order. -/
def Tree.toSaved (tree : Tree) : SavedWorkspace := { blocks := tree.ordered.map Root.toSaved }

end PiBlocks
