import PiBlocks.Block.Ancestry
import PiBlocks.Review.Warning
import PiBlocks.Scope.Snapshot

/-!
# Checking references and calls

After a run, every reference and every call of the tree is held against the snapshot the
run has left. A reference has to select a name that is visible where the block that holds
it stands ; a call has to select a known process and bring as many arguments as it has
parameters (`Tree.warnings`).

The same facts feed the menus of an editor : the names a reference can select
(`Site.nameChoices`) and the label of an argument (`Site.argumentLabel`).
-/

namespace PiBlocks

namespace Site

/-- The names a reference at a site can select, in the order of their declaration. -/
def visibleNames (site : Site) (snapshot : Snapshot) : List String :=
  (snapshot.visibleNames site.referenceAncestry).filter fun name => decide (name ≠ unresolved)

/-- What is wrong with a reference. -/
def referenceProblem (site : Site) (snapshot : Snapshot) : Option Problem :=
  let name := site.block.field FieldName.name
  if name.isEmpty || name = unresolved then some .noNameSelected
  else if (site.visibleNames snapshot).contains name then none
  else some (.nameNotInScope name)

/-- What is wrong with a call. -/
def callProblem (site : Site) (snapshot : Snapshot) : Option Problem :=
  let process := site.block.field FieldName.processName
  if process.isEmpty || process = unresolved then some .noProcessSelected
  else if !snapshot.hasProcess process then some (.unknownProcess process)
  else
    let expected := (snapshot.params process).length
    let got := (site.block.chain SlotName.args).length
    if expected = got then none else some (.arityMismatch process expected got)

/-- What is wrong with a block. -/
def problem (site : Site) (snapshot : Snapshot) : Option Problem :=
  match site.block.kind with
  | .reference => site.referenceProblem snapshot
  | .call => site.callProblem snapshot
  | _ => none

end Site

/-- The warnings about a tree, in the order of the file. -/
def Tree.warnings (tree : Tree) (snapshot : Snapshot) : List Warning :=
  tree.sites.filterMap fun site =>
    (site.problem snapshot).map fun problem => ⟨problem, site.block.id⟩

/-! ## Menus -/

/-- An entry of a menu : what it shows and what it selects. -/
structure Choice where
  label : String
  value : String
deriving DecidableEq, Repr

/-- What an argument of a call stands for. -/
inductive ArgumentLabel where
  | parameter (name : String)
  /-- one argument too many ; `position` counts from one -/
  | surplus (position expected : Nat)
deriving DecidableEq, Repr

/-- The label as an editor shows it. -/
def ArgumentLabel.text : ArgumentLabel → String
  | .parameter name => name ++ " ="
  | .surplus position expected =>
    "ERROR: Too Many Args " ++ toString position ++ "/" ++ toString expected

namespace Site

/-- The menu of a reference : nothing selected, then the visible names. -/
def nameChoices (site : Site) (snapshot : Snapshot) : List Choice :=
  ⟨"?", unresolved⟩ :: (site.visibleNames snapshot).map fun name => ⟨name, name⟩

/-- The label of an argument of a call, if the block is one and the call has a process. -/
def argumentLabel (site : Site) (snapshot : Snapshot) : Option ArgumentLabel := do
  let call ← site.owner
  if call.kind ≠ .call then none
  else
    let process ← call.field? FieldName.processName
    let index ← (call.chain SlotName.args).findIdx? fun block => block.id = site.block.id
    let params := snapshot.params process
    match params[index]? with
    | some name => some (.parameter name)
    | none => some (.surplus (index + 1) params.length)

/-- Whether a new main program is dropped : it is empty and there is one already. -/
def isSpareMain (site : Site) (snapshot : Snapshot) : Bool :=
  decide (site.block.kind = .main) && snapshot.declaredMain
    && (site.block.chain SlotName.main).isEmpty

end Site

end PiBlocks
