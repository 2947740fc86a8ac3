import PiBlocks.Scope.Snapshot

/-!
# Scopes of a run

`Scopes` holds two snapshots. A run writes into the active one only : it enters and leaves
scopes, declares names and registers processes. Questions are answered from the committed
one, which changes in one step, when a run is finished or a saved state is restored.

The outermost scope is never left, so the path of open scopes always begins with it.
-/

namespace PiBlocks

/-- The snapshot of the run in progress and that of the last finished one. -/
structure Scopes where
  active : Snapshot := {}
  committed : Snapshot := {}
deriving DecidableEq, Repr

namespace Scopes

/-- Starts with a snapshot that was saved earlier. -/
def resume (snapshot : Snapshot) : Scopes := { committed := snapshot }

/-- Begins a run with a fresh active snapshot. -/
def begin (scopes : Scopes) : Scopes := { scopes with active := {} }

/-- Makes the active snapshot the committed one. -/
def commit (scopes : Scopes) : Scopes := { committed := scopes.active }

/-- Makes a saved snapshot the committed one. -/
def restore (scopes : Scopes) (snapshot : Snapshot) : Scopes :=
  { scopes with committed := snapshot }

/-- Opens the scope of a block inside the innermost open one. -/
def enter (id : String) (kind : ScopeKind) (scopes : Scopes) : Scopes :=
  let active := { scopes.active with
    declaredMain := scopes.active.declaredMain || decide (kind = ScopeKind.main) }
  match active.current? with
  | none => { scopes with active := active }
  | some _ =>
    let opened := active.updateCurrent (Scope.openChild (Scope.key id) kind)
    { scopes with active := { opened with stack := opened.stack ++ [Scope.key id] } }

/-- Closes the innermost scope, unless it is the outermost one. -/
def leave (scopes : Scopes) : Scopes :=
  if scopes.active.stack.length ≤ 1 then scopes
  else { scopes with active := { scopes.active with stack := scopes.active.stack.dropLast } }

/-- Declares a name in the innermost open scope. The empty name and the mark of an
unresolved one are not declared. -/
def declare (name : String) (scopes : Scopes) : Scopes :=
  if name.isEmpty || name = unresolved then scopes
  else { scopes with active := scopes.active.updateCurrent (Scope.declare name) }

/-- Declares names one after the other. -/
def declareAll (names : List String) (scopes : Scopes) : Scopes :=
  names.foldl (fun scopes name => scopes.declare name) scopes

/-- Notes the signature of a process, opens its scope and declares its parameters there. -/
def register (id name : String) (params : List String) (scopes : Scopes) : Scopes :=
  let noted := { scopes with active := { scopes.active with
    processes := scopes.active.processes.insert name ⟨Scope.key id, id, params⟩ } }
  (noted.enter id .process).declareAll params

/-- The kind of the innermost open scope. -/
def currentKind (scopes : Scopes) : ScopeKind :=
  (scopes.active.current?.map Scope.kind).getD .global

/-- Whether a name is visible from the innermost open scope. -/
def isVisible (scopes : Scopes) (name : String) : Bool :=
  decide (name ≠ unresolved)
    && (scopes.active.global.namesAlong (scopes.active.stack.drop 1)).contains name

end Scopes

end PiBlocks
