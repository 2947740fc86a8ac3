import PiBlocks.Block.Site

/-!
# Ancestry

The ancestry of a block lists the scopes it stands in, outermost first, as an editor finds
them : it walks the trail back to the root and notes every block that opens a scope. A
block is not its own ancestor. The branches of a fork stand one behind the other, so the
walk passes the branches before the one it started in ; they are skipped (`continuesRun`),
for the names of one branch are not visible in another.

A reference is resolved where the block that holds it stands (`Site.referenceAncestry`).
-/

namespace PiBlocks

namespace Ancestry

/-- Whether a block goes on with the run of branches that the walk is passing. -/
def continuesRun (last : Option Kind) (kind : Kind) : Bool :=
  (kind = .parallelBranch && last = some .parallelBranch)
    || (kind = .choiceBranch && last = some .choiceBranch)

/-- The ids of the scopes along a way back, the nearest first. `last` is the kind of the
block visited before. -/
def alongTrail (last : Option Kind) : List Block → List String
  | [] => []
  | block :: rest =>
    if block.kind.opensScope && !continuesRun last block.kind then
      block.id :: alongTrail (some block.kind) rest
    else alongTrail (some block.kind) rest

/-- The scopes a block stands in, outermost first, given the way back from it. -/
def ofBlock (block : Block) (wayBack : List Block) : List String :=
  (alongTrail none (if block.kind.opensScope then wayBack else block :: wayBack)).reverse

end Ancestry

namespace Site

/-- The scopes a block stands in, outermost first. -/
def ancestry (site : Site) : List String :=
  Ancestry.ofBlock site.block (site.trail.map Step.block)

/-- The scopes in which a reference is resolved : those of the block that holds it. -/
def referenceAncestry (site : Site) : List String :=
  match site.trail.map Step.block with
  | [] => []
  | holder :: wayBack => Ancestry.ofBlock holder wayBack

end Site

end PiBlocks
