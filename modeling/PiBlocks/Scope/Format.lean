import PiBlocks.Json.Record
import PiBlocks.Scope.Snapshot

/-!
# Snapshots as JSON

A scope is an object with its names and its kind ; every other member is a scope inside it,
under its key. So the members have to be set aside until the object ends, and only then are
they read as scopes (`Scope.ofJson`). An error among them is reported at the end of the
outermost object, for their own places are no longer known.
-/

namespace PiBlocks

open Json (Reader Key Node Tail Record)

/-! ## Reading scopes -/

/-- How messages name a value that was set aside. -/
def Json.found : Json → Found
  | .null => .null
  | .bool value => .bool value
  | .number value => .number value
  | .text value => .text value
  | .list _ => .list
  | .object _ => .object

/-- The names and the kind of a scope as far as they were read. -/
structure ScopeHeader where
  names : Option (List String) := none
  kind : Option ScopeKind := none

namespace ScopeHeader

/-- The kind, which has to be there. -/
def kind? (header : ScopeHeader) : Except Fault ScopeKind :=
  match header.kind with
  | some kind => .ok kind
  | none => .error (.missingField "type")

end ScopeHeader

namespace Scope

/-- Whether a member of a scope is not a scope itself. -/
def isReserved (name : String) : Bool := name = "names" || name = "type"

/-- Strings that were set aside. -/
def textsOfJson : List Json → Except Fault (List String)
  | [] => .ok []
  | .text value :: rest => do return value :: (← textsOfJson rest)
  | other :: _ => .error (.wrongType other.found "a string")

/-- Names that were set aside. -/
def namesOfJson : Json → Except Fault (List String)
  | .list items => textsOfJson items
  | other => .error (.wrongType other.found "a sequence")

/-- The kind a name stands for. -/
def kindNamed (name : String) : Except Fault ScopeKind :=
  match OrderedMap.get? name ScopeKind.named with
  | some kind => .ok kind
  | none => .error (.unknownVariant name (ScopeKind.named.map Prod.fst))

/-- A kind that was set aside : a string, or the only name of an object whose value is null. -/
def kindOfJson : Json → Except Fault ScopeKind
  | .text name => kindNamed name
  | .object [(name, value)] => do
    let kind ← kindNamed name
    match value with
    | .null => return kind
    | other => throw (.wrongType other.found "unit")
  | .object _ => .error .notSingleMember
  | other => .error (.wrongType other.found "string or map")

/-- The names and the kind among members that were set aside. -/
def headerOfJson (header : ScopeHeader) : List (String × Json) → Except Fault ScopeHeader
  | [] => .ok header
  | (name, value) :: rest =>
    if name = "names" then
      if header.names.isSome then .error (.repeatedField "names")
      else do
        let names ← namesOfJson value
        headerOfJson { header with names := some names } rest
    else if name = "type" then
      if header.kind.isSome then .error (.repeatedField "type")
      else do
        let kind ← kindOfJson value
        headerOfJson { header with kind := some kind } rest
    else headerOfJson header rest

mutual

/-- A scope that was set aside. -/
def ofJson : Json → Except Fault Scope
  | .object members => do
    let header ← headerOfJson {} members
    let kind ← header.kind?
    let children ← childrenOfJson [] members
    return .mk kind (header.names.getD []) children
  | .null => .error (.wrongType .null "struct ScopeNode")
  | .bool value => .error (.wrongType (.bool value) "struct ScopeNode")
  | .number value => .error (.wrongType (.number value) "struct ScopeNode")
  | .text value => .error (.wrongType (.text value) "struct ScopeNode")
  | .list _ => .error (.wrongType .list "struct ScopeNode")

/-- The scopes among members that were set aside. -/
def childrenOfJson (children : List (String × Scope)) :
    List (String × Json) → Except Fault (List (String × Scope))
  | [] => .ok children
  | (name, value) :: rest =>
    if isReserved name then childrenOfJson children rest
    else do
      let scope ← ofJson value
      childrenOfJson (OrderedMap.insert name scope children) rest

end

/-- Reads the members of the outermost scope ; those that are scopes are set aside, the last
one first. Gives the offset behind the object as well. -/
def readMembers (header : ScopeHeader) (aside : List (String × Json)) :
    List (Key × Node) → Tail → Except JsonError (ScopeHeader × List (String × Json) × Nat)
  | [], tail => do
    let stop ← Node.readTail tail
    return (header, aside.reverse, stop)
  | (key, node) :: members, tail => do
    let name ← key.name
    if name = "names" then
      if header.names.isSome then throw ⟨.repeatedField "names", key.past⟩
      let names ← Json.Read.list Json.Read.text node
      readMembers { header with names := some names } aside members tail
    else if name = "type" then
      if header.kind.isSome then throw ⟨.repeatedField "type", key.past⟩
      let kind ← Json.Read.variant ScopeKind.named node
      readMembers { header with kind := some kind } aside members tail
    else
      let value ← node.toJson
      readMembers header ((name, value) :: aside) members tail

/-- Reads the outermost scope. -/
def read : Reader Scope
  | .object _ members tail => do
    let (header, aside, stop) ← readMembers {} [] members tail
    let scope := do
      let kind ← header.kind?
      let children ← childrenOfJson [] aside
      return Scope.mk kind (header.names.getD []) children
    scope.mapError fun fault => ⟨fault, stop⟩
  | node => .error (node.mismatch "struct ScopeNode")

end Scope

/-! ## Reading snapshots -/

/-- The fields of a signature. -/
def Signature.record : Record Signature where
  title := "struct ProcessEntry"
  fields := [
    { name := "id"
      required := true
      read := fun node => do
        let key ← Json.Read.text node
        return fun signature => { signature with key := key } },
    { name := "rawId"
      required := true
      read := fun node => do
        let block ← Json.Read.text node
        return fun signature => { signature with block := block } },
    { name := "params"
      required := true
      read := fun node => do
        let params ← Json.Read.list Json.Read.text node
        return fun signature => { signature with params := params } }]
  blank := ⟨"", "", []⟩

namespace Snapshot

/-- The fields of the tree of scopes. -/
def scopesRecord : Record Scope where
  title := "struct ScopeTree"
  fields := [
    { name := "global"
      required := true
      read := fun node => do
        let scope ← Scope.read node
        return fun _ => scope }]
  blank := .empty .global

/-- The fields of a snapshot. -/
def record : Record Snapshot where
  title := "struct Snapshot"
  fields := [
    { name := "scopeTree"
      read := fun node => do
        let global ← scopesRecord.read node
        return fun snapshot => { snapshot with global := global } },
    { name := "scopeStack"
      read := fun node => do
        let stack ← Json.Read.list Json.Read.text node
        return fun snapshot => { snapshot with stack := stack } },
    { name := "processTable"
      otherName := some "processes"
      read := fun node => do
        let processes ← Json.Read.map Signature.record.read node
        return fun snapshot => { snapshot with processes := processes } },
    { name := "declaredMain"
      read := fun node => do
        let declaredMain ← Json.Read.flag node
        return fun snapshot => { snapshot with declaredMain := declaredMain } }]
  blank := {}

end Snapshot

/-! ## Writing -/

/-- Strings as a JSON list. -/
def Json.texts (values : List String) : Json := .list (values.map .text)

mutual

/-- A scope as JSON. -/
def Scope.toJson : Scope → Json
  | .mk kind names children =>
    .object (("names", Json.texts names) :: ("type", .text kind.typeName)
      :: Scope.childrenToJson children)

/-- Scopes under their keys as members. -/
def Scope.childrenToJson : List (String × Scope) → List (String × Json)
  | [] => []
  | (key, scope) :: rest => (key, Scope.toJson scope) :: Scope.childrenToJson rest

end

/-- A signature as JSON. -/
def Signature.toJson (signature : Signature) : Json :=
  .object [("id", .text signature.key), ("rawId", .text signature.block),
    ("params", Json.texts signature.params)]

/-- A snapshot as JSON. -/
def Snapshot.toJson (snapshot : Snapshot) : Json :=
  .object [
    ("scopeTree", .object [("global", snapshot.global.toJson)]),
    ("scopeStack", Json.texts snapshot.stack),
    ("processTable", .object (snapshot.processes.map fun entry => (entry.1, entry.2.toJson))),
    ("declaredMain", .bool snapshot.declaredMain)]

end PiBlocks
