import PiBlocks.Toml.Document

/-!
# Settings

The settings of a session come from an optional configuration file. What the file does not
set keeps its default, keys it sets besides are ignored, and a value of the wrong type makes
the whole file invalid.
-/

namespace PiBlocks

/-- The settings of a session. -/
structure Settings where
  /-- how long no edit may have come before a pass runs, in milliseconds -/
  debounce : Nat := 250
  /-- whether definitions come before the program -/
  canonical : Bool := true
deriving DecidableEq, Repr

namespace Toml

/-- A string. -/
def text? : Toml → Option String
  | .text value => some value
  | _ => none

/-- A truth value. -/
def flag? : Toml → Option Bool
  | .flag value => some value
  | _ => none

/-- A natural number. -/
def nat? : Toml → Option Nat
  | .integer value => if 0 ≤ value then some value.toNat else none
  | _ => none

/-- The value of a key read by a reader, or the default if the key is not set. -/
def get {α : Type} (entries : Entries) (key : String) (default : α) (reader : Toml → Option α) :
    Option α :=
  match OrderedMap.get? key entries with
  | some value => reader value
  | none => some default

end Toml

namespace Settings

/-- The settings in the entries of a configuration. -/
def ofEntries (entries : Toml.Entries) : Option Settings := do
  let debounce ← Toml.get entries "debounce_ms" 250 Toml.nat?
  let canonical ← Toml.get entries "canonicalize" true Toml.flag?
  return ⟨debounce, canonical⟩

/-- The settings of a configuration file. -/
def parse (text : String) : Option Settings := do ofEntries (← Toml.parse text)

end Settings

end PiBlocks
