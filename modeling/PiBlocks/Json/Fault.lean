import PiBlocks.Json.Printer
import PiBlocks.Text.Offset
import PiBlocks.Text.Lines
import PiBlocks.Text.Quoted

/-!
# What is wrong with a JSON text

A `Fault` is the cause : a text that breaks the grammar, or a value that does not fit the
place it stands in. A `JsonError` adds the byte offset the reader had come to, and its
message names that place by line and column.
-/

namespace PiBlocks

/-- A value that stands where another was wanted. -/
inductive Found where
  | null
  | bool (value : Bool)
  | number (value : Number)
  | text (value : String)
  | list
  | object
deriving DecidableEq, Repr

/-- What is wrong with a JSON text or with a value in it. -/
inductive Fault where
  /-- the text ends where a value has to begin or go on -/
  | endInValue
  | endInList
  | endInObject
  | endInText
  /-- no value begins here -/
  | noValue
  /-- neither `null` nor `true` nor `false` -/
  | unknownWord
  | noColon
  | noListSeparator
  | noObjectSeparator
  | nameNotText
  | trailingComma
  | trailingText
  | malformedNumber
  | numberOutOfRange
  | unknownEscape
  /-- a low surrogate without a high one, or a high one before something else than a low one -/
  | straySurrogate
  /-- a high surrogate before something else than an escape by number -/
  | openSurrogate
  | controlCharacter
  | wrongType (found : Found) (wanted : String)
  | wrongInteger (value : Int) (wanted : String)
  /-- an object with one member was wanted -/
  | notSingleMember
  | unknownVariant (name : String) (known : List String)
  | missingField (name : String)
  | repeatedField (name : String)
  /-- a list in place of a record ends before a field that has to be there -/
  | shortRecord (count : Nat) (record : String) (fields : Nat)
deriving DecidableEq, Repr

/-- A fault and the byte offset at which the reader noticed it. -/
structure JsonError where
  fault : Fault
  offset : Nat
deriving DecidableEq, Repr

namespace Found

/-- The value as messages name it. -/
def message : Found → String
  | .null => "null"
  | .bool true => "boolean `true`"
  | .bool false => "boolean `false`"
  | .number (.integer value) => "integer `" ++ toString value ++ "`"
  | .number (.real value) => "floating point `" ++ Float.text value ++ "`"
  | .text value => "string " ++ Text.quoted value
  | .list => "sequence"
  | .object => "map"

end Found

namespace Fault

/-- A list of names, each in back quotes. -/
def oneOf : List String → String
  | [] => "there are no variants"
  | [name] => "expected `" ++ name ++ "`"
  | [first, second] => "expected `" ++ first ++ "` or `" ++ second ++ "`"
  | names => "expected one of " ++ Text.join ", " (names.map fun name => "`" ++ name ++ "`")

/-- The fault in words, without its place. -/
def message : Fault → String
  | .endInValue => "EOF while parsing a value"
  | .endInList => "EOF while parsing a list"
  | .endInObject => "EOF while parsing an object"
  | .endInText => "EOF while parsing a string"
  | .noValue => "expected value"
  | .unknownWord => "expected ident"
  | .noColon => "expected `:`"
  | .noListSeparator => "expected `,` or `]`"
  | .noObjectSeparator => "expected `,` or `\x7d`"
  | .nameNotText => "key must be a string"
  | .trailingComma => "trailing comma"
  | .trailingText => "trailing characters"
  | .malformedNumber => "invalid number"
  | .numberOutOfRange => "number out of range"
  | .unknownEscape => "invalid escape"
  | .straySurrogate => "lone leading surrogate in hex escape"
  | .openSurrogate => "unexpected end of hex escape"
  | .controlCharacter => "control character (\\u0000-\\u001F) found while parsing a string"
  | .wrongType found wanted => "invalid type: " ++ found.message ++ ", expected " ++ wanted
  | .wrongInteger value wanted =>
    "invalid value: integer `" ++ toString value ++ "`, expected " ++ wanted
  | .notSingleMember => "invalid value: map, expected map with a single key"
  | .unknownVariant name known => "unknown variant `" ++ name ++ "`, " ++ oneOf known
  | .missingField name => "missing field `" ++ name ++ "`"
  | .repeatedField name => "duplicate field `" ++ name ++ "`"
  | .shortRecord count record fields =>
    "invalid length " ++ toString count ++ ", expected " ++ record ++ " with " ++ toString fields
      ++ (if fields = 1 then " element" else " elements")

end Fault

namespace JsonError

/-- Line and column of the error in its source. -/
def place (error : JsonError) (source : String) : Nat × Nat := Text.position source error.offset

/-- The fault with its place in the source. -/
def message (error : JsonError) (source : String) : String :=
  error.fault.message ++ " at line " ++ toString (error.place source).1
    ++ " column " ++ toString (error.place source).2

end JsonError

end PiBlocks
