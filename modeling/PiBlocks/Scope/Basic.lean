import PiBlocks.Block.Kind
import PiBlocks.Hash.Sha256
import PiBlocks.OrderedMap

/-!
# Scopes

A scope has a kind, the names declared in it in order, and the scopes inside it under their
keys. The key of a scope is a digest of the id of the block that opened it (`Scope.key`) ;
the outermost scope is found under `Scope.globalKey`. A path of keys leads to a scope.

Which names are visible along a path is answered by `Scope.namesAlong`. A name that is
declared again further inside hides the earlier one, whose place is taken by a mark that
is no name.
-/

namespace PiBlocks

/-- A scope with everything inside it. -/
inductive Scope where
  | mk (kind : ScopeKind) (names : List String) (children : List (String × Scope))
deriving Repr

namespace Scope

/-- What block opened the scope. -/
def kind : Scope → ScopeKind
  | .mk kind _ _ => kind

/-- The names declared in the scope, in order. -/
def names : Scope → List String
  | .mk _ names _ => names

/-- The scopes directly inside, in the order in which they were first opened. -/
def children : Scope → List (String × Scope)
  | .mk _ _ children => children

/-- A scope with nothing in it. -/
def empty (kind : ScopeKind) : Scope := .mk kind [] []

/-- The key of the outermost scope. -/
def globalKey : String := "global"

/-- The key of the scope a block opens. -/
def key (id : String) : String := Sha256.hexDigest id

/-- The scope directly inside under a key. -/
def child? (scope : Scope) (key : String) : Option Scope := OrderedMap.get? key scope.children

/-- The scope a path of keys leads to. -/
def at? (scope : Scope) : List String → Option Scope
  | [] => some scope
  | key :: path =>
    match scope.child? key with
    | some child => child.at? path
    | none => none

/-- Changes the value under a key, if there is one. -/
def adjust (key : String) (change : Scope → Scope) :
    List (String × Scope) → List (String × Scope)
  | [] => []
  | (k, scope) :: rest =>
    if k = key then (k, change scope) :: rest else (k, scope) :: adjust key change rest

/-- Changes the scope a path leads to, if it leads to one. -/
def updateAt (change : Scope → Scope) : List String → Scope → Scope
  | [], scope => change scope
  | key :: path, .mk kind names children =>
    .mk kind names (adjust key (updateAt change path) children)

/-- The scope with a name declared in it. -/
def declare (name : String) : Scope → Scope
  | .mk kind names children => .mk kind (names ++ [name]) children

/-- The same scope with another kind. -/
def retag (kind : ScopeKind) : Scope → Scope
  | .mk _ names children => .mk kind names children

/-- The scope with one inside it under a key, of the given kind. A scope that is there keeps
its contents. -/
def openChild (key : String) (kind : ScopeKind) : Scope → Scope
  | .mk outer names children =>
    .mk outer names (OrderedMap.insert key
      (((OrderedMap.get? key children).getD (empty kind)).retag kind) children)

/-! ## Visible names -/

/-- Puts the mark in place of the first occurrence of a name. -/
def hide (name : String) : List String → List String
  | [] => []
  | other :: rest => if other = name then unresolved :: rest else other :: hide name rest

/-- The visible names once one more is declared. -/
def seen (visible : List String) (name : String) : List String := hide name visible ++ [name]

/-- The names visible once a scope and those along a path are entered, in the order of their
declaration ; the path ends where a key is missing. -/
def namesFrom (visible : List String) (scope : Scope) : List String → List String
  | [] => scope.names.foldl seen visible
  | key :: path =>
    let visible := scope.names.foldl seen visible
    match scope.child? key with
    | some child => child.namesFrom visible path
    | none => visible

/-- The names visible along a path, with the mark in place of those that are hidden. -/
def namesAlong (scope : Scope) (path : List String) : List String := scope.namesFrom [] path

/-! ## Equality -/

mutual

/-- Whether two scopes are the same. -/
def same : Scope → Scope → Bool
  | .mk kind names children, .mk kind' names' children' =>
    kind = kind' && names = names' && sameChildren children children'

/-- Whether two lists of scopes are the same. -/
def sameChildren : List (String × Scope) → List (String × Scope) → Bool
  | [], [] => true
  | (key, scope) :: rest, (key', scope') :: rest' =>
    key = key' && same scope scope' && sameChildren rest rest'
  | _, _ => false

end

mutual

theorem same_iff : ∀ a b : Scope, same a b = true ↔ a = b
  | .mk kind names children, .mk kind' names' children' => by
    simp [same, sameChildren_iff children children', and_assoc]

theorem sameChildren_iff : ∀ a b : List (String × Scope), sameChildren a b = true ↔ a = b
  | [], [] => by simp [sameChildren]
  | [], (_, _) :: _ => by simp [sameChildren]
  | (_, _) :: _, [] => by simp [sameChildren]
  | (key, scope) :: rest, (key', scope') :: rest' => by
    simp [sameChildren, same_iff scope scope', sameChildren_iff rest rest']

end

instance : DecidableEq Scope := fun a b => decidable_of_iff _ (same_iff a b)

end Scope

end PiBlocks
