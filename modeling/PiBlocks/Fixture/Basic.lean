import PiBlocks.Program.Pass
import PiBlocks.Settings
import PiBlocks.Workspace.Document
import PiBlocks.Workspace.Source

/-!
# Fixtures

A fixture is a file that says what a pass over a workspace should give : a configuration
between two lines of dashes, then the workspace. `Fixture.parse` takes it apart and
`Fixture.check` runs the pass and holds its outcome against the configuration. Both give
the reason when something is wrong.
-/

namespace PiBlocks

/-- A warning that is expected. -/
structure ExpectedWarning where
  /-- a part of its message -/
  contains : String
  /-- the id of the block it is about -/
  node : Option String := none
  /-- the line on which that id is written -/
  line : Option Nat := none
deriving DecidableEq, Repr

/-- What is expected of a pass. What is not given is not checked. -/
structure Expectation where
  description : Option String := none
  canonical : Bool := true
  output : Option String := none
  processes : Option (List String) := none
  loadError : Bool := false
  warnings : Option (List ExpectedWarning) := none
deriving DecidableEq, Repr

/-- A workspace and what is expected of it. -/
structure Fixture where
  expectation : Expectation
  workspace : String

/-! ## Reading -/

namespace Toml

/-- A list of strings. -/
def texts? : Toml → Option (List String)
  | .list items => items.mapM text?
  | .tables [] => some []
  | _ => none

/-- The entries of a table, however it is written. -/
def entries? : Toml → Option Entries
  | .table _ _ entries => some entries
  | .inline entries => some entries
  | _ => none

/-- A value that need not be there. -/
def optional {α : Type} (reader : Toml → Option α) (value : Toml) : Option (Option α) :=
  (reader value).map some

end Toml

namespace ExpectedWarning

/-- An expected warning in the entries of a table. -/
def ofEntries (entries : Toml.Entries) : Option ExpectedWarning := do
  let contains ← (OrderedMap.get? "contains" entries).bind Toml.text?
  let node ← Toml.get entries "node" none (Toml.optional Toml.text?)
  let line ← Toml.get entries "line" none (Toml.optional Toml.nat?)
  return ⟨contains, node, line⟩

/-- An expected warning as a table, or as a list of its fields in order. -/
def ofToml : Toml → Option ExpectedWarning
  | .list [] => none
  | .list (contains :: rest) => do
    let contains ← contains.text?
    match rest with
    | [] => return ⟨contains, none, none⟩
    | [node] => return ⟨contains, ← Toml.optional Toml.text? node, none⟩
    | node :: line :: _ =>
      return ⟨contains, ← Toml.optional Toml.text? node, ← Toml.optional Toml.nat? line⟩
  | value => value.entries?.bind ofEntries

/-- A list of expected warnings. -/
def listOfToml : Toml → Option (List ExpectedWarning)
  | .list items => items.mapM ofToml
  | .tables elements => elements.mapM ofEntries
  | _ => none

end ExpectedWarning

namespace Expectation

/-- The expectation in the entries of a configuration. -/
def ofEntries (entries : Toml.Entries) : Option Expectation := do
  let description ← Toml.get entries "description" none (Toml.optional Toml.text?)
  let canonical ← Toml.get entries "canonicalize" true Toml.flag?
  let output ← Toml.get entries "expect_output" none (Toml.optional Toml.text?)
  let processes ← Toml.get entries "expect_processes" none (Toml.optional Toml.texts?)
  let loadError ← Toml.get entries "expect_load_error" false Toml.flag?
  let warnings ←
    Toml.get entries "expect_warnings" none (Toml.optional ExpectedWarning.listOfToml)
  return ⟨description, canonical, output, processes, loadError, warnings⟩

end Expectation

namespace Fixture

/-- The line before and behind the configuration. -/
def delimiter : String := "---"

/-- Whether a line is a delimiter. Blanks behind it do not matter. -/
def isDelimiter (line : String) : Bool := Text.trimEnd line = delimiter

/-- The lines up to the next delimiter and those behind it. -/
def splitAtDelimiter : List String → Option (List String × List String)
  | [] => none
  | line :: rest =>
    if isDelimiter line then some ([], rest)
    else (splitAtDelimiter rest).map fun (front, body) => (line :: front, body)

/-- Takes a fixture apart. -/
def parse (content : String) : Except String Fixture := do
  let chars := content.toList.dropWhile fun c => c.toNat = 0xFEFF
  match Text.lines (String.ofList chars) with
  | [] => throw ("missing opening " ++ delimiter ++ " delimiter")
  | first :: rest =>
    if !isDelimiter first then throw ("missing opening " ++ delimiter ++ " delimiter")
    match splitAtDelimiter rest with
    | none => throw ("missing closing " ++ delimiter ++ " delimiter")
    | some (front, body) =>
      let front := String.join (front.map fun line => line ++ "\n")
      match (Toml.parse front).bind Expectation.ofEntries with
      | none => throw "TOML parse error: invalid configuration"
      | some expectation => return ⟨expectation, Text.join "\n" body⟩

/-! ## Checking -/

/-- The one-based line an offset lies in. -/
def lineOf (source : String) (offset : Nat) : Nat := (Text.position source offset).1

/-- Holds one warning against what is expected of it. -/
def checkWarning (tree : Tree) (source : String) (index : Nat) (warning : Warning)
    (expected : ExpectedWarning) : Except String Unit := do
  let place := "warning[" ++ toString index ++ "]: expected "
  if !Text.contains warning.message expected.contains then
    throw (place ++ "message containing \"" ++ expected.contains ++ "\", got: "
      ++ warning.message)
  match expected.node with
  | some node =>
    if node ≠ warning.block then
      throw (place ++ "on block '" ++ node ++ "', but it concerns '" ++ warning.block ++ "'")
  | none => pure ()
  match expected.line with
  | some line =>
    match (tree.find? warning.block).bind fun _ => tree.span? warning.block with
    | some span =>
      let actual := lineOf source span.start
      if actual ≠ line then
        throw (place ++ "on line " ++ toString line ++ ", but block is on line "
          ++ toString actual)
    | none =>
      throw (place ++ "on line " ++ toString line ++ ", but block '" ++ warning.block
        ++ "' has no span")
  | none => pure ()

/-- Holds warnings one by one against what is expected of them. -/
def checkEach (tree : Tree) (source : String) (index : Nat) :
    List Warning → List ExpectedWarning → Except String Unit
  | warning :: warnings, expected :: rest => do
    checkWarning tree source index warning expected
    checkEach tree source (index + 1) warnings rest
  | _, _ => pure ()

/-- A list of warnings to be shown. -/
def listing (warnings : List Warning) : String :=
  if warnings.isEmpty then "    (none)"
  else Text.join "\n" (warnings.map fun w => "  - " ++ w.message ++ " (" ++ w.block ++ ")")

/-- Holds all warnings against what is expected. -/
def checkWarnings (tree : Tree) (source : String) (warnings : List Warning)
    (expected : List ExpectedWarning) : Except String Unit :=
  if warnings.length ≠ expected.length then
    throw ("expected " ++ toString expected.length ++ " warning(s), got "
      ++ toString warnings.length ++ "\n  actual warnings:\n" ++ listing warnings)
  else checkEach tree source 0 warnings expected

/-- The two sides of a mismatch. -/
def mismatch (what expected actual : String) : String :=
  what ++ " mismatch\n  expected: " ++ expected ++ "\n  actual:   " ++ actual

/-- Runs a pass over the workspace of a fixture and checks its outcome. -/
def check (fixture : Fixture) : Except String Unit := do
  let expectation := fixture.expectation
  let source : Source := { text := fixture.workspace }
  match source.load with
  | .error error =>
    if expectation.loadError then pure ()
    else throw ("unexpected load error: " ++ error.message source)
  | .ok tree =>
    if expectation.loadError then throw "expected load error, but loading succeeded"
    let (_, scopes) ← (Scopes.restoreFrom {} fixture.workspace).mapError
      fun error => "unreadable saved state: " ++ stateMessage fixture.workspace error
    let (generation, scopes) := tree.pass scopes expectation.canonical
    match expectation.output with
    | some output =>
      let expected := Text.trim output
      let actual := Text.trim generation.text
      if expected ≠ actual then throw (mismatch "output" expected actual)
    | none => pure ()
    match expectation.processes with
    | some expected =>
      let actual := scopes.committed.processNames
      let shown (names : List String) : String := "[" ++ Text.join ", " names ++ "]"
      if actual ≠ expected then throw (mismatch "process" (shown expected) (shown actual))
    | none => pure ()
    match expectation.warnings with
    | some expected => checkWarnings tree fixture.workspace generation.warnings expected
    | none => pure ()

end Fixture

end PiBlocks
