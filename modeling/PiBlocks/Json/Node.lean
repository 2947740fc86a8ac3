import PiBlocks.Json.Token

/-!
# Located values

`Node.parse` builds the value of a text from its tokens and keeps the byte offsets that
error messages need. The builder is a machine with a stack : a frame for every open list
or object, and what is due next (`Due`). It never fails. Where the text breaks off, the
value under construction ends with a `Halt`, and so does every list and object around it ;
a reader that walks the value in the order of the text meets the halt exactly when it has
read all that stands before.

One break is worded differently by different readers : one that wants the values, one that
skips them, and one that wants a fixed number of entries. A halt has the error of each.
-/

namespace PiBlocks

namespace Json

/-- The error of a break in the text, for each kind of reader. -/
structure Halt where
  /-- for a reader of the values -/
  wanted : JsonError
  /-- for a reader that only skips -/
  skipped : JsonError
  /-- for a reader whose number of entries is used up, or that wants a name -/
  fixed : JsonError
deriving DecidableEq, Repr

/-- The same error for every reader. -/
def Halt.same (error : JsonError) : Halt := ⟨error, error, error⟩

/-- The end of a list or object : its closing bracket, or the break in the text. -/
inductive Tail where
  | closed (stop : Nat)
  | halted (halt : Halt)
deriving DecidableEq, Repr

/-- The name of a member. -/
structure Key where
  name : Except JsonError String
  /-- the offset behind the name -/
  stop : Nat
  /-- where a reader is left that gives up behind the name -/
  past : Nat
  /-- the offset of the comma before the name -/
  comma : Nat

/-- A value of a text, with its places. -/
inductive Node where
  | null (start stop : Nat)
  | bool (value : Bool) (start stop : Nat)
  | number (value : Except JsonError Number) (start stop : Nat)
  | text (value : Except JsonError String) (start stop : Nat)
  | list (start : Nat) (items : List Node) (tail : Tail)
  | object (start : Nat) (members : List (Key × Node)) (tail : Tail)
  /-- no value, seen by a reader that looks at the byte before `peek` -/
  | broken (peek : Nat) (halt : Halt)

/-- A whole text : its value, and the error of what follows it, if anything does. -/
structure Document where
  root : Node
  extra : Option JsonError

/-! ## The builder -/

/-- A list or object that waits for a value, with the entries before it, the last first. -/
inductive Waiting where
  | list (start : Nat) (items : List Node)
  | member (start : Nat) (members : List (Key × Node)) (key : Key)

/-- The builder between two tokens : what is due, in the innermost open list or object,
and the lists and objects around it, from the inside out. -/
inductive Builder where
  | value (stack : List Waiting)
  | firstItem (start : Nat) (stack : List Waiting)
  | nextItem (start : Nat) (items : List Node) (stack : List Waiting)
  | itemEnd (start : Nat) (items : List Node) (stack : List Waiting)
  | firstName (start : Nat) (stack : List Waiting)
  | nextName (start : Nat) (members : List (Key × Node)) (comma : Nat) (stack : List Waiting)
  | colon (start : Nat) (members : List (Key × Node)) (name : Except JsonError String)
      (stop comma : Nat) (stack : List Waiting)
  | memberEnd (start : Nat) (members : List (Key × Node)) (stack : List Waiting)
  | complete (root : Node)
  | over (document : Document)

namespace Builder

/-- Puts a value where one was due. -/
def deliver (node : Node) : List Waiting → Builder
  | [] => .complete node
  | .list start items :: stack => .itemEnd start (node :: items) stack
  | .member start members key :: stack => .memberEnd start ((key, node) :: members) stack

/-- Puts the last value, closes everything around it with a halt and ends. -/
def abandon (halt : Halt) (node : Node) : List Waiting → Document
  | [] => ⟨node, none⟩
  | .list start items :: stack =>
    abandon halt (.list start (node :: items).reverse (.halted halt)) stack
  | .member start members key :: stack =>
    abandon halt (.object start ((key, node) :: members).reverse (.halted halt)) stack

/-- Ends in place of a value. -/
def abandonValue (halt : Halt) (peek : Nat) (stack : List Waiting) : Document :=
  abandon halt (.broken peek halt) stack

/-- Ends inside a list. -/
def abandonList (halt : Halt) (start : Nat) (items : List Node) (stack : List Waiting) :
    Document :=
  abandon halt (.list start items.reverse (.halted halt)) stack

/-- Ends inside an object. -/
def abandonObject (halt : Halt) (start : Nat) (members : List (Key × Node))
    (stack : List Waiting) : Document :=
  abandon halt (.object start members.reverse (.halted halt)) stack

/-- Takes the end of the text. -/
def finish (offset : Nat) : Builder → Document
  | .value stack => abandonValue (.same ⟨.endInValue, offset⟩) offset stack
  | .firstItem start stack => abandonList (.same ⟨.endInList, offset⟩) start [] stack
  | .nextItem start items stack =>
    abandonValue (.same ⟨.endInValue, offset⟩) offset (.list start items :: stack)
  | .itemEnd start items stack => abandonList (.same ⟨.endInList, offset⟩) start items stack
  | .firstName start stack =>
    abandonObject (.same ⟨.endInObject, offset⟩) start [] stack
  | .nextName start members comma stack =>
    abandonObject ⟨⟨.endInValue, offset⟩, ⟨.endInObject, offset⟩, ⟨.noValue, comma⟩⟩
      start members stack
  | .colon start members name stop comma stack =>
    abandonValue (.same ⟨.endInObject, offset⟩) offset
      (.member start members ⟨name, stop, offset, comma⟩ :: stack)
  | .memberEnd start members stack =>
    abandonObject (.same ⟨.endInObject, offset⟩) start members stack
  | .complete root => ⟨root, none⟩
  | .over document => document

/-- Takes a token where a value is due. -/
def takeValue (token : Token) (stack : List Waiting) : Builder :=
  match token.lexeme with
  | .null => deliver (.null token.start token.stop) stack
  | .bool b => deliver (.bool b token.start token.stop) stack
  | .number n => deliver (.number n token.start token.stop) stack
  | .text s => deliver (.text s token.start token.stop) stack
  | .mark .openList => .firstItem token.start stack
  | .mark .openObject => .firstName token.start stack
  | .broken quoted wanted skipped =>
    .over (abandonValue ⟨wanted, skipped, if quoted then wanted else ⟨.noValue, token.peek⟩⟩
      token.peek stack)
  | .finish => .over (abandonValue (.same ⟨.endInValue, token.start⟩) token.start stack)
  | .stray | .mark _ => .over (abandonValue (.same ⟨.noValue, token.peek⟩) token.peek stack)

/-- Takes a token where a name is due. `fixed` is the error of a reader that wants something
else there. -/
def takeName (start : Nat) (members : List (Key × Node)) (comma : Nat) (fixed : JsonError)
    (token : Token) (stack : List Waiting) : Builder :=
  match token.lexeme with
  | .text name => .colon start members name token.stop comma stack
  | .broken true wanted skipped =>
    .over (abandonObject ⟨wanted, skipped, if members.isEmpty then wanted else fixed⟩
      start members stack)
  | _ =>
    .over (abandonObject ⟨⟨.nameNotText, token.peek⟩, ⟨.nameNotText, token.peek⟩, fixed⟩
      start members stack)

/-- Takes a token. -/
def step (builder : Builder) (token : Token) : Builder :=
  match builder, token.lexeme with
  | builder, .finish => .over (builder.finish token.start)
  | .value stack, _ => takeValue token stack
  | .firstItem start stack, .mark .closeList => deliver (.list start [] (.closed token.stop)) stack
  | .firstItem start stack, _ => takeValue token (.list start [] :: stack)
  | .nextItem start items stack, .mark .closeList =>
    .over (abandonList ⟨⟨.trailingComma, token.peek⟩, ⟨.noValue, token.peek⟩,
      ⟨.trailingComma, token.peek⟩⟩ start items stack)
  | .nextItem start items stack, _ => takeValue token (.list start items :: stack)
  | .itemEnd start items stack, .mark .comma => .nextItem start items stack
  | .itemEnd start items stack, .mark .closeList =>
    deliver (.list start items.reverse (.closed token.stop)) stack
  | .itemEnd start items stack, _ =>
    .over (abandonList ⟨⟨.noListSeparator, token.peek⟩, ⟨.noListSeparator, token.peek⟩,
      ⟨.trailingText, token.peek⟩⟩ start items stack)
  | .firstName start stack, .mark .closeObject =>
    deliver (.object start [] (.closed token.stop)) stack
  | .firstName start stack, _ => takeName start [] 0 ⟨.nameNotText, token.peek⟩ token stack
  | .nextName start members comma stack, .mark .closeObject =>
    .over (abandonObject ⟨⟨.trailingComma, token.peek⟩, ⟨.nameNotText, token.peek⟩,
      ⟨.noValue, comma⟩⟩ start members stack)
  | .nextName start members comma stack, _ =>
    takeName start members comma ⟨.noValue, comma⟩ token stack
  | .colon start members name stop comma stack, .mark .colon =>
    .value (.member start members ⟨name, stop, token.start, comma⟩ :: stack)
  | .colon start members name stop comma stack, .mark .closeObject =>
    .over (abandonValue (.same ⟨.noColon, token.peek⟩) token.peek
      (.member start members ⟨name, stop, token.stop, comma⟩ :: stack))
  | .colon start members name stop comma stack, _ =>
    .over (abandonValue (.same ⟨.noColon, token.peek⟩) token.peek
      (.member start members ⟨name, stop, token.start, comma⟩ :: stack))
  | .memberEnd start members stack, .mark .comma =>
    .nextName start members token.start stack
  | .memberEnd start members stack, .mark .closeObject =>
    deliver (.object start members.reverse (.closed token.stop)) stack
  | .memberEnd start members stack, _ =>
    .over (abandonObject ⟨⟨.noObjectSeparator, token.peek⟩, ⟨.noObjectSeparator, token.peek⟩,
      ⟨.noValue, token.start⟩⟩ start members stack)
  | .complete root, _ => .over ⟨root, some ⟨.trailingText, token.peek⟩⟩
  | .over document, _ => .over document

/-- The document built from tokens. A missing end counts as the end at offset zero. -/
def run : Builder → List Token → Document
  | builder, [] => builder.finish 0
  | builder, token :: rest => run (builder.step token) rest

end Builder

/-- The located value of a text. -/
def Document.parse (source : String) : Document := Builder.run (.value []) (scan source)

/-! ## Walking a value -/

namespace Node

/-- The error of a reader that has no use for a further entry that begins here. -/
def surplus : Node → JsonError
  | .null start _ | .bool _ start _ | .number _ start _ | .text _ start _
  | .list start _ _ | .object start _ _ => ⟨.trailingText, start + 1⟩
  | .broken peek _ => ⟨.trailingText, peek⟩

/-- The error of a reader that wants something else than this value. -/
def mismatch (wanted : String) : Node → JsonError
  | .null _ stop => ⟨.wrongType .null wanted, stop⟩
  | .bool value _ stop => ⟨.wrongType (.bool value) wanted, stop⟩
  | .number (.ok value) _ stop => ⟨.wrongType (.number value) wanted, stop⟩
  | .number (.error error) _ _ => error
  | .text (.ok value) _ stop => ⟨.wrongType (.text value) wanted, stop⟩
  | .text (.error error) _ _ => error
  | .list start _ _ => ⟨.wrongType .list wanted, start⟩
  | .object start _ _ => ⟨.wrongType .object wanted, start⟩
  | .broken _ halt => halt.wanted

/-- Skips the end of a list or object. -/
def skipTail : Tail → Except JsonError Unit
  | .closed _ => .ok ()
  | .halted halt => .error halt.skipped

mutual

/-- Skips a value : it only has to be well-formed. -/
def skip : Node → Except JsonError Unit
  | .null _ _ | .bool _ _ _ | .number _ _ _ | .text _ _ _ => .ok ()
  | .list _ items tail => skipItems items tail
  | .object _ members tail => skipMembers members tail
  | .broken _ halt => .error halt.skipped

/-- Skips items and the end of their list. -/
def skipItems : List Node → Tail → Except JsonError Unit
  | [], tail => skipTail tail
  | item :: items, tail => do skip item; skipItems items tail

/-- Skips members and the end of their object. -/
def skipMembers : List (Key × Node) → Tail → Except JsonError Unit
  | [], tail => skipTail tail
  | (_, value) :: members, tail => do skip value; skipMembers members tail

end

/-- Reads the end of a list or object. -/
def readTail : Tail → Except JsonError Nat
  | .closed stop => .ok stop
  | .halted halt => .error halt.wanted

mutual

/-- The value without its places. -/
def toJson : Node → Except JsonError Json
  | .null _ _ => .ok .null
  | .bool value _ _ => .ok (.bool value)
  | .number value _ _ => value.map .number
  | .text value _ _ => value.map .text
  | .list _ items tail => do return .list (← itemsToJson items tail)
  | .object _ members tail => do return .object (← membersToJson members tail)
  | .broken _ halt => .error halt.wanted

/-- The items without their places. -/
def itemsToJson : List Node → Tail → Except JsonError (List Json)
  | [], tail => do let _ ← readTail tail; return []
  | item :: items, tail => do
    let value ← toJson item
    return value :: (← itemsToJson items tail)

/-- The members without their places. -/
def membersToJson : List (Key × Node) → Tail → Except JsonError (List (String × Json))
  | [], tail => do let _ ← readTail tail; return []
  | (key, node) :: members, tail => do
    let name ← key.name
    let value ← toJson node
    return (name, value) :: (← membersToJson members tail)

end

mutual

/-- How many lists and objects are nested in each other at most. -/
def depth : Node → Nat
  | .list _ items _ => itemsDepth items + 1
  | .object _ members _ => membersDepth members + 1
  | _ => 0

/-- The largest depth among the items. -/
def itemsDepth : List Node → Nat
  | [] => 0
  | item :: items => max (depth item) (itemsDepth items)

/-- The largest depth among the values of the members. -/
def membersDepth : List (Key × Node) → Nat
  | [] => 0
  | (_, value) :: members => max (depth value) (membersDepth members)

end

end Node

namespace Document

/-- Reads the whole text with a reader for its value ; nothing may follow the value. -/
def read {α : Type} (document : Document) (reader : Node → Except JsonError α) :
    Except JsonError α := do
  let value ← reader document.root
  match document.extra with
  | some error => .error error
  | none => .ok value

end Document

end Json

/-- The value of a JSON text. -/
def Json.parse (source : String) : Except JsonError Json :=
  (Json.Document.parse source).read Json.Node.toJson

end PiBlocks
