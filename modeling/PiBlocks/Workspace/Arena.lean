import PiBlocks.Workspace.Tree

/-!
# Arenas

An arena holds all blocks of a workspace in one vector. A node is known by its place in the
vector, and its links to other nodes are places : the owner of its slot, the node before it
in its chain, the one behind it and the heads of the chains in its slots. `Arena.find?` leads
from an id to a place.

`Arena.ofSaved` fills an arena from saved blocks, each block before what hangs at its inputs
and that before what is behind it. When a node is added it has no slots and nothing behind
it. These links are written into the vector later, once the node they lead to is there
(`Arena.setSlot`, `Arena.setNext`).

`Tree.ofSaved` makes a tree of the same blocks, and the arena is that of the tree
(`Arena.ofSaved_eq_map`).
-/

namespace PiBlocks

/-- A block in a vector of nodes. -/
structure Arena.Node where
  id : String
  kind : Kind
  fields : OrderedMap String
  /-- the heads of the chains in its slots -/
  slots : OrderedMap Nat := []
  /-- the node whose slot holds the chain -/
  owner : Option Nat
  /-- the node before it in its chain -/
  previous : Option Nat
  /-- the node behind it in its chain -/
  next : Option Nat := none
deriving DecidableEq, Repr

/-- All blocks of a workspace. -/
structure Arena where
  nodes : Array Arena.Node := #[]
  /-- the heads of the chains of the top level in reading order -/
  roots : List Nat := []
  /-- the node with an id -/
  byId : OrderedMap Nat := []
  /-- where heads of the top level stand on the canvas, the newest first -/
  places : List (Nat × Float × Float) := []
deriving Repr

namespace Arena

/-! ## From saved blocks -/

/-- Building goes on until an id comes a second time. -/
abbrev Build := StateT Arena (Except String)

/-- Adds a node for a saved block, with no slots and nothing behind it, and tells its place. -/
def addNode (saved : SavedBlock) (owner previous : Option Nat) : Build Nat := do
  let arena ← get
  let place := arena.nodes.size
  let id := saved.id.getD ("block-" ++ toString place)
  if OrderedMap.contains id arena.byId then
    throw id
  set { arena with
    nodes := arena.nodes.push
      { id := id, kind := saved.kind, fields := saved.fields, owner := owner, previous := previous }
    byId := OrderedMap.insert id place arena.byId }
  return place

/-- Writes which node is behind a node. -/
def setNext (node next : Nat) : Build Unit :=
  modify fun arena =>
    { arena with nodes := arena.nodes.modify node fun node => { node with next := some next } }

/-- Writes which node is the head of the chain in a slot of a node. -/
def setSlot (node : Nat) (slot : String) (head : Nat) : Build Unit :=
  modify fun arena =>
    { arena with nodes := arena.nodes.modify node fun node =>
        { node with slots := OrderedMap.insert slot head node.slots } }

/-- Writes where the head of a chain of the top level stands, if that is known. -/
def setPlace (head : Nat) : Option (Float × Float) → Build Unit
  | some place => modify fun arena => { arena with places := (head, place) :: arena.places }
  | none => return

mutual

/-- Adds the chain that begins with a saved block and tells the place of its head. -/
def insertChain (owner : Option Nat) : SavedBlock → Build Nat
  | ⟨kind, id, x, y, fields, inputs, next⟩ => do
    let head ← addNode ⟨kind, id, x, y, fields, inputs, next⟩ owner none
    insertInputs head inputs
    insertBehind owner head next
    return head

/-- Adds what is linked behind a node. -/
def insertBehind (owner : Option Nat) (previous : Nat) : Option (Link SavedBlock) → Build Unit
  | some ⟨some block, _⟩ => insertNext owner previous block
  | some ⟨none, some shadow⟩ => insertNext owner previous shadow
  | some ⟨none, none⟩ => return
  | none => return

/-- Adds a saved block behind a node, and then what is behind that. -/
def insertNext (owner : Option Nat) (previous : Nat) : SavedBlock → Build Unit
  | ⟨kind, id, x, y, fields, inputs, next⟩ => do
    let node ← addNode ⟨kind, id, x, y, fields, inputs, next⟩ owner (some previous)
    insertInputs node inputs
    setNext previous node
    insertBehind owner node next

/-- Adds the chains at the inputs that carry something, as slots of a node. -/
def insertInputs (node : Nat) : List (String × Link SavedBlock) → Build Unit
  | [] => return
  | (slot, ⟨some block, _⟩) :: inputs => do
    let head ← insertChain (some node) block
    setSlot node slot head
    insertInputs node inputs
  | (slot, ⟨none, some shadow⟩) :: inputs => do
    let head ← insertChain (some node) shadow
    setSlot node slot head
    insertInputs node inputs
  | (_, ⟨none, none⟩) :: inputs => insertInputs node inputs

end

/-- A chain of the top level that is still to be put in order. -/
structure Entry where
  key : Float
  /-- the place of the chain in the file -/
  order : Nat
  head : Nat
deriving Repr

/-- Whether one chain may come before another : by their keys, and for equal keys by the file. -/
def Entry.le (entry other : Entry) : Bool :=
  Float.rank entry.key < Float.rank other.key ||
    Float.rank entry.key = Float.rank other.key && entry.order ≤ other.order

/-- Where a chain of the top level comes in reading order. A chain without a place counts as
standing at the origin. -/
def key (arena : Arena) (head : Nat) : Float :=
  let (x, y) := (arena.places.lookup head).getD (0.0, 0.0)
  y + rowSlant * x

/-- Adds the chains of the top level and tells where each comes in the file and by its key. -/
def insertRoots : Nat → List SavedBlock → Build (List Entry)
  | _, [] => return []
  | order, block :: blocks => do
    let head ← insertChain none block
    setPlace head block.place
    let key := (← get).key head
    let entries ← insertRoots (order + 1) blocks
    return ⟨key, order, head⟩ :: entries

/-- The arena of saved blocks, or the first id that comes a second time. -/
def ofSaved (blocks : List SavedBlock) : Except String Arena := do
  let (entries, arena) ← (insertRoots 0 blocks).run {}
  return { arena with roots := (entries.mergeSort Entry.le).map Entry.head }

/-! ## Links -/

variable (arena : Arena)

/-- The node with an id. -/
def find? (id : String) : Option Nat := OrderedMap.get? id arena.byId

/-- The node behind a node. -/
def next? (node : Nat) : Option Nat := arena.nodes[node]?.bind Node.next

/-- The node before a node. -/
def previous? (node : Nat) : Option Nat := arena.nodes[node]?.bind Node.previous

/-- The node whose slot holds the chain a node belongs to. -/
def enclosing? (node : Nat) : Option Nat := arena.nodes[node]?.bind Node.owner

/-- What an editor takes for the parent : the node before, or else the owner. -/
def parent? (node : Nat) : Option Nat :=
  arena.nodes[node]?.bind fun node => node.previous.or node.owner

/-- The head of the chain in a slot. -/
def slotHead? (node : Nat) (slot : String) : Option Nat :=
  arena.nodes[node]?.bind fun node => OrderedMap.get? slot node.slots

/-- The nodes from a cursor on along the links behind them, up to a number of them. -/
def walk : Nat → Option Nat → List Nat
  | _, none => []
  | 0, some _ => []
  | steps + 1, some node => node :: walk steps (arena.next? node)

/-- The nodes from a cursor on along the links behind them. In an arena of saved blocks the links
end before the steps do. -/
def chain (cursor : Option Nat) : List Nat := arena.walk arena.nodes.size cursor

/-- The chain in a slot. -/
def slotChildren (node : Nat) (slot : String) : List Nat :=
  arena.chain (arena.slotHead? node slot)

end Arena

end PiBlocks
