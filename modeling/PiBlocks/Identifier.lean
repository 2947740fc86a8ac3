import PiBlocks.Scope.Snapshot

/-!
# Identifiers

What a user types as a name is cleaned up before it is kept. Only ASCII letters, digits and
underscores stay, and what may not begin an identifier goes from the front
(`Identifier.ofText`, `Identifier.processOfText`). A process name that another block has
taken gets the smallest free number behind it (`Identifier.uniqueProcess`).
-/

namespace PiBlocks

namespace Identifier

/-- Whether a character may stand in an identifier. -/
def isPart (c : Char) : Bool := c.isAlphanum || c = '_'

/-- Changes the first character. -/
def changeFirst (change : Char → Char) : List Char → List Char
  | [] => []
  | c :: rest => change c :: rest

/-- A name : no digit in front, the first letter small. -/
def ofText (raw : String) : String :=
  String.ofList (changeFirst Char.toLower
    ((raw.toList.filter isPart).dropWhile Char.isDigit))

/-- A process name : neither digit nor underscore in front, the first letter large. -/
def processOfText (raw : String) : String :=
  String.ofList (changeFirst Char.toUpper
    ((raw.toList.filter isPart).dropWhile fun c => c.isDigit || c = '_'))

/-- The first of `count` numbers from `start` on that, put behind a name, is no process. -/
def freeNumber? (name : String) (snapshot : Snapshot) (start : Nat) : Nat → Option Nat
  | 0 => none
  | count + 1 =>
    if snapshot.hasProcess (name ++ toString start) then
      freeNumber? name snapshot (start + 1) count
    else some start

/-- A process name that no process of another block has. One number more than there are
processes is tried, so one of them is free. -/
def uniqueProcess (raw id : String) (snapshot : Snapshot) : String :=
  let name := processOfText raw
  match snapshot.blockOf? name with
  | none => name
  | some owner =>
    if owner = id then name
    else
      match freeNumber? name snapshot 0 (snapshot.processes.length + 1) with
      | some number => name ++ toString number
      | none => name

end Identifier

end PiBlocks
