import PiBlocks.Decimal.Shortest

/-!
# JSON values

The values of the save format. A number is an integer or a double ; the members of an
object keep their order and may repeat a name, as a text may.
-/

namespace PiBlocks

/-- A number of a JSON text. -/
inductive Number where
  | integer (value : Int)
  | real (value : Float)
deriving DecidableEq, Repr

/-- A JSON value. -/
inductive Json where
  | null
  | bool (value : Bool)
  | number (value : Number)
  | text (value : String)
  | list (items : List Json)
  | object (members : List (String × Json))
deriving Repr, Inhabited

end PiBlocks
