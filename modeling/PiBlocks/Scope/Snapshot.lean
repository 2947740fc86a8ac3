import PiBlocks.Scope.Basic

/-!
# Snapshots

A snapshot is all that one run over a workspace learns about names : the scopes, the path
of the scopes that are open, the signatures of the processes, and whether a main program
was met. A fresh one has the outermost scope only.
-/

namespace PiBlocks

/-- The signature of a process definition : the key of its scope, the id of its block and
its parameters. -/
structure Signature where
  key : String
  block : String
  params : List String
deriving DecidableEq, Repr

/-- What a run over a workspace learns about names. -/
structure Snapshot where
  global : Scope := .empty .global
  /-- the keys of the open scopes, the outermost first -/
  stack : List String := [Scope.globalKey]
  processes : OrderedMap Signature := []
  declaredMain : Bool := false
deriving DecidableEq, Repr

namespace Snapshot

/-- The scope at the end of a path that begins with the outermost scope. -/
def scope? (snapshot : Snapshot) : List String → Option Scope
  | [] => none
  | first :: path => if first = Scope.globalKey then snapshot.global.at? path else none

/-- The innermost open scope. -/
def current? (snapshot : Snapshot) : Option Scope := snapshot.scope? snapshot.stack

/-- Changes the innermost open scope. -/
def updateCurrent (snapshot : Snapshot) (change : Scope → Scope) : Snapshot :=
  match snapshot.stack with
  | [] => snapshot
  | first :: path =>
    if first = Scope.globalKey then
      { snapshot with global := snapshot.global.updateAt change path }
    else snapshot

/-- The names visible along the scopes of blocks, hidden ones marked. -/
def visibleNames (snapshot : Snapshot) (ancestry : List String) : List String :=
  snapshot.global.namesAlong (ancestry.map Scope.key)

/-- The parameters of a process, none if it is unknown. -/
def params (snapshot : Snapshot) (process : String) : List String :=
  ((OrderedMap.get? process snapshot.processes).map Signature.params).getD []

/-- The parameters of the process a block defines. -/
def paramsOfBlock (snapshot : Snapshot) (id : String) : List String :=
  ((snapshot.processes.find? fun entry => entry.2.key = Scope.key id).map
    fun entry => entry.2.params).getD []

/-- The names of the processes in order. -/
def processNames (snapshot : Snapshot) : List String := OrderedMap.keys snapshot.processes

/-- Whether a process is known. -/
def hasProcess (snapshot : Snapshot) (name : String) : Bool :=
  OrderedMap.contains name snapshot.processes

/-- The id of the block that defines a process. -/
def blockOf? (snapshot : Snapshot) (process : String) : Option String :=
  (OrderedMap.get? process snapshot.processes).map Signature.block

end Snapshot

end PiBlocks
