import PiBlocks.Program.Render
import PiBlocks.Review.Check

/-!
# Passes

A pass over a workspace generates its text, commits what the walk has learnt about names
and checks the blocks against it. The outcome depends on the tree alone : the walk begins
with a fresh snapshot and reads no other.
-/

namespace PiBlocks

/-- The outcome of a pass. -/
structure Generation where
  text : String := ""
  warnings : List Warning := []
deriving DecidableEq, Repr

/-- Runs a pass. With `canonical` the definitions come first, without it lines keep the
order of the walk. -/
def Tree.pass (tree : Tree) (scopes : Scopes) (canonical : Bool) : Generation × Scopes :=
  let (lines, walked) := tree.generate scopes
  let text := if canonical then Line.order lines else Line.raw lines
  let scopes := walked.commit
  (⟨text, tree.warnings scopes.committed⟩, scopes)

end PiBlocks
