import PiBlocks.Json.Node
import PiBlocks.OrderedMap

/-!
# Reading values of a known form

A `Reader` takes a located value to a value of some type or to the first error in the
order of the text. Readers for strings, numbers, lists, maps and names stand here, and
one for records.

A record (`Record`) is described by its fields. It is read from an object, in whose order
the fields may come, each at most once, with names the record does not know skipped ; or
from a list of the fields' values in order. A field that has to be there is missed at the
end of the object or list (`Record.fill`, `Record.line`).
-/

namespace PiBlocks

namespace Json

/-- Reads a located value. -/
abbrev Reader (α : Type) := Node → Except JsonError α

namespace Read

/-- A string. -/
def text : Reader String
  | .text value _ _ => value
  | node => .error (node.mismatch "a string")

/-- A truth value. -/
def flag : Reader Bool
  | .bool value _ _ => .ok value
  | node => .error (node.mismatch "a boolean")

/-- A double ; an integer is rounded to one. -/
def real : Reader Float
  | .number (.ok (.real value)) _ _ => .ok value
  | .number (.ok (.integer value)) _ _ => .ok (Float.ofInt value)
  | node => .error (node.mismatch "f64")

/-- A natural number below `2 ^ 32`. -/
def word : Reader Nat
  | .number (.ok (.integer value)) _ stop =>
    if 0 ≤ value ∧ value < Nat.pow 2 32 then .ok value.toNat
    else .error ⟨.wrongInteger value "u32", stop⟩
  | node => .error (node.mismatch "u32")

/-- The null value as nothing, any other with a reader. -/
def optional {α : Type} (reader : Reader α) : Reader (Option α)
  | .null _ _ => .ok none
  | node => (reader node).map some

/-- Items one after the other. -/
def items {α : Type} (reader : Reader α) : List Node → Tail → Except JsonError (List α)
  | [], tail => do let _ ← Node.readTail tail; return []
  | item :: rest, tail => do
    let value ← reader item
    return value :: (← items reader rest tail)

/-- A list. -/
def list {α : Type} (reader : Reader α) : Reader (List α)
  | .list _ nodes tail => items reader nodes tail
  | node => .error (node.mismatch "a sequence")

/-- Entries one after the other, added to a map. -/
def entries {α : Type} (reader : Reader α) (map : OrderedMap α) :
    List (Key × Node) → Tail → Except JsonError (OrderedMap α)
  | [], tail => do let _ ← Node.readTail tail; return map
  | (key, node) :: rest, tail => do
    let name ← key.name
    let value ← reader node
    entries reader (map.insert name value) rest tail

/-- A map. A name that comes again keeps its place and takes the new value. -/
def map {α : Type} (reader : Reader α) : Reader (OrderedMap α)
  | .object _ members tail => entries reader [] members tail
  | node => .error (node.mismatch "a map")

/-- The value a name stands for. -/
def named {α : Type} (known : List (String × α)) (name : String) (stop : Nat) :
    Except JsonError α :=
  match OrderedMap.get? name known with
  | some value => .ok value
  | none => .error ⟨.unknownVariant name (known.map Prod.fst), stop⟩

/-- The null value. -/
def unit : Reader Unit
  | .null _ _ => .ok ()
  | node => .error (node.mismatch "unit")

/-- A name out of a list, as a string or as the only name of an object whose value is null. -/
def variant {α : Type} (known : List (String × α)) : Reader α
  | .text value _ stop => do named known (← value) stop
  | .object _ [] (.closed stop) => .error ⟨.noValue, stop⟩
  | .object _ [] (.halted halt) => .error halt.fixed
  | .object _ ((key, node) :: more) tail => do
    let value ← named known (← key.name) key.stop
    unit node
    match more, tail with
    | [], .closed _ => return value
    | [], .halted halt => .error halt.fixed
    | (next, _) :: _, _ => .error ⟨.noValue, next.comma⟩
  | .broken _ halt => .error halt.fixed
  | .null start _ | .bool _ start _ | .number _ start _ | .list start _ _ =>
    .error ⟨.noValue, start + 1⟩

end Read

/-- A field of a record : its names and how its value changes the record. -/
structure Field (α : Type) where
  name : String
  otherName : Option String := none
  required : Bool := false
  read : Reader (α → α)

/-- Whether a name names the field. -/
def Field.answers {α : Type} (field : Field α) (name : String) : Bool :=
  decide (field.name = name) || decide (field.otherName = some name)

/-- A record : what messages call it, its fields in order, and the record before any field
is read. -/
structure Record (α : Type) where
  title : String
  fields : List (Field α)
  blank : α

namespace Record

variable {α : Type} (record : Record α)

/-- The first field that has to be there and is not. -/
def missing (given : List String) : Option (Field α) :=
  record.fields.find? fun field => field.required && !given.contains field.name

/-- Reads the members of an object into a record. `given` names the fields read so far. -/
def fill (value : α) (given : List String) : List (Key × Node) → Tail → Except JsonError α
  | [], .closed stop =>
    match record.missing given with
    | some field => .error ⟨.missingField field.name, stop⟩
    | none => .ok value
  | [], .halted halt => .error halt.wanted
  | (key, node) :: members, tail => do
    let name ← key.name
    match record.fields.find? fun field => field.answers name with
    | none => do
      node.skip
      fill value given members tail
    | some field =>
      if given.contains field.name then .error ⟨.repeatedField field.name, key.past⟩
      else do
        let update ← field.read node
        fill (update value) (field.name :: given) members tail

/-- Reads the items of a list into the fields from one on, the `count`-th. -/
def line (value : α) (count : Nat) : List (Field α) → List Node → Tail → Except JsonError α
  | [], [], .closed _ => .ok value
  | [], [], .halted halt => .error halt.fixed
  | [], item :: _, _ => .error item.surplus
  | _ :: _, [], .halted halt => .error halt.wanted
  | field :: fields, [], .closed stop =>
    if field.required then .error ⟨.shortRecord count record.title record.fields.length, stop⟩
    else line value (count + 1) fields [] (.closed stop)
  | field :: fields, item :: items, tail => do
    let update ← field.read item
    line (update value) (count + 1) fields items tail

/-- Reads a record. -/
def read : Reader α
  | .object _ members tail => record.fill record.blank [] members tail
  | .list _ items tail => record.line record.blank 0 record.fields items tail
  | node => .error (node.mismatch record.title)

end Record

end Json

end PiBlocks
