import PiBlocks.Diagnostic.Basic
import PiBlocks.Workspace.Tree

/-!
# Warnings

What a finished run has to say about single blocks. A warning never stops anything ; it
names the block it is about by its id, and as a report (`Warning.diagnostic`) it points at
that id in the source of a tree, if the tree has such a block.
-/

namespace PiBlocks

/-- What is wrong with a block. -/
inductive Problem where
  | nameNotInScope (name : String)
  | noNameSelected
  | noProcessSelected
  | unknownProcess (process : String)
  | arityMismatch (process : String) (expected got : Nat)
deriving DecidableEq, Repr

/-- A problem and the id of the block that has it. -/
structure Warning where
  problem : Problem
  block : String
deriving DecidableEq, Repr

/-- The problem in words. -/
def Problem.message : Problem → String
  | .nameNotInScope name => "name '" ++ name ++ "' is not in scope"
  | .noNameSelected => "no name selected"
  | .noProcessSelected => "no process selected"
  | .unknownProcess process => "unknown process '" ++ process ++ "'"
  | .arityMismatch _ expected got =>
    "expected " ++ toString expected ++ " argument" ++ (if expected = 1 then "" else "s")
      ++ ", but got " ++ toString got

namespace Warning

/-- The warning in words. -/
def message (warning : Warning) : String := warning.problem.message

/-- The warning as a report about a tree. -/
def diagnostic (warning : Warning) (tree : Tree) : Diagnostic where
  severity := .warning
  message := warning.message
  labels :=
    match tree.find? warning.block with
    | some _ => ((tree.span? warning.block).map fun span => ⟨tree.file, span⟩).toList
    | none => []
  notes :=
    match tree.find? warning.block with
    | some site => [site.block.kind.typeName ++ " '" ++ warning.block ++ "'"]
    | none => ["block '" ++ warning.block ++ "'"]

end Warning

end PiBlocks
