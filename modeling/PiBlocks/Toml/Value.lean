import PiBlocks.OrderedMap

/-!
# Configuration values

The values of a TOML document. A document is a tree of tables, and a table remembers how it
came about, for that decides what may still be added to it : a table with a header of its
own is there once, one that only stands in the path of another header may still get its
header, one made by a dotted key grows by dotted keys, and one written in braces is
complete.

`Toml.modifyAt` is the one way to a place in the tree ; everything that adds to a document
goes through it.
-/

namespace PiBlocks

/-- A value of a configuration. Numbers with a fraction and dates are told apart from other
values, but nothing is made of them. -/
inductive Toml where
  | text (value : String)
  | integer (value : Int)
  | flag (value : Bool)
  | other
  | list (items : List Toml)
  /-- a table in braces -/
  | inline (entries : List (String × Toml))
  /-- a table ; `implicit` if it has no header of its own, `dotted` if a dotted key made it -/
  | table (implicit dotted : Bool) (entries : List (String × Toml))
  /-- a list of tables with one header each -/
  | tables (elements : List (List (String × Toml)))
deriving Repr

namespace Toml

/-- Entries of a table. -/
abbrev Entries := List (String × Toml)

/-- Changes the entries at a path. Tables on the way are made if they are missing, and are
`dotted` if the path is that of a dotted key. Of a list of tables the last one is meant. The
change is told whether a dotted key made the table it changes. -/
def modifyAt (dotted : Bool) (change : Bool → Entries → Option Entries) :
    List String → Bool → Entries → Option Entries
  | [], made, entries => change made entries
  | key :: path, _, entries =>
    match OrderedMap.get? key entries with
    | none => do
      let inner ← modifyAt dotted change path dotted []
      return OrderedMap.insert key (.table true dotted inner) entries
    | some (.table implicit made inner) =>
      if dotted && !implicit then none
      else do
        let inner ← modifyAt dotted change path made inner
        return OrderedMap.insert key (.table implicit made inner) entries
    | some (.tables elements) =>
      match elements.getLast? with
      | none => none
      | some last => do
        let inner ← modifyAt dotted change path false last
        return OrderedMap.insert key (.tables (elements.dropLast ++ [inner])) entries
    | some _ => none

/-- Sets a key that is not set yet. `path` is what stands before it in a dotted key : only a
table that a dotted key made is reached by one. -/
def assign (path : List String) (key : String) (value : Toml) (made : Bool) (entries : Entries) :
    Option Entries :=
  modifyAt true (fun made entries =>
    if made = path.isEmpty || OrderedMap.contains key entries then none
    else some (OrderedMap.insert key value entries)) path made entries

/-- Gives a table its header. -/
def openTable (path : List String) (key : String) (entries : Entries) : Option Entries :=
  modifyAt false (fun _ entries =>
    match OrderedMap.get? key entries with
    | none => some (OrderedMap.insert key (.table false false []) entries)
    | some (.table true false inner) =>
      some (OrderedMap.insert key (.table false false inner) entries)
    | some _ => none) path false entries

/-- Begins another table of a list of tables. -/
def openElement (path : List String) (key : String) (entries : Entries) : Option Entries :=
  modifyAt false (fun _ entries =>
    match OrderedMap.get? key entries with
    | none => some (OrderedMap.insert key (.tables [[]]) entries)
    | some (.tables elements) =>
      some (OrderedMap.insert key (.tables (elements ++ [[]])) entries)
    | some _ => none) path false entries

/-- Sets a key in the table that has the header `table`. -/
def assignIn (table path : List String) (key : String) (value : Toml) (entries : Entries) :
    Option Entries :=
  modifyAt false (assign path key value) table false entries

end Toml

end PiBlocks
