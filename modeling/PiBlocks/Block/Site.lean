import PiBlocks.Block.Basic

/-!
# Sites

A site is a place in a tree that a block stands at : the block, the blocks behind it in
its chain, and the trail back to the root. The trail takes one step at a time, to the
block before, or from the head of a chain to the block whose slot holds it. That is the
order in which an editor counts a block's ancestors, and `Site.parent` is its first step.

`Block.sitesOf` lists the sites of a chain : each block comes before what hangs off it,
and that before the next block of the chain.
-/

namespace PiBlocks

/-- One step back from a block. -/
inductive Step where
  /-- to the block before it in its chain -/
  | previous (block : Block)
  /-- from the head of a chain to the block that owns it -/
  | owner (block : Block)
deriving Repr

/-- The block a step leads to. -/
def Step.block : Step → Block
  | .previous block => block
  | .owner block => block

/-- A block in its place. -/
structure Site where
  block : Block
  /-- the blocks behind it in its chain -/
  followers : List Block
  /-- the way back to the root -/
  trail : List Step
deriving Repr

namespace Site

/-- The block the trail leads to first. -/
def parent (site : Site) : Option Block := site.trail.head?.map Step.block

/-- The block before it in its chain. -/
def previous (site : Site) : Option Block :=
  match site.trail with
  | .previous block :: _ => some block
  | _ => none

/-- The block behind it in its chain. -/
def next (site : Site) : Option Block := site.followers.head?

/-- The first owner on a trail. -/
def firstOwner : List Step → Option Block
  | [] => none
  | .previous _ :: trail => firstOwner trail
  | .owner block :: _ => some block

/-- The block whose slot holds the chain. -/
def owner (site : Site) : Option Block := firstOwner site.trail

end Site

namespace Block

mutual

/-- The sites of everything that hangs off a block. -/
def sitesBelow (trail : List Step) : Block → List Site
  | .mk id kind fields slots => sitesInSlots (.owner (.mk id kind fields slots) :: trail) slots

/-- The sites of the chains in slots. -/
def sitesInSlots (trail : List Step) : List (String × List Block) → List Site
  | [] => []
  | (_, chain) :: slots => sitesOf trail chain ++ sitesInSlots trail slots

/-- The sites of a chain : block, what hangs off it, next block. -/
def sitesOf (trail : List Step) : List Block → List Site
  | [] => []
  | block :: rest =>
    ⟨block, rest, trail⟩ :: (sitesBelow trail block ++ sitesOf (.previous block :: trail) rest)

end

end Block

end PiBlocks
