import PiBlocks.CommandLine.Arguments
import PiBlocks.Diagnostic.Layout
import PiBlocks.Fixture.Suite
import PiBlocks.Session

/-!
# The program

The program loads a workspace, runs one pass over it and prints what was asked for
(`Program.generate`), or runs fixtures. It is written over any monad that is a `Host`.

Of `generate`, the questions for processes and names are answered first and end the run.
Otherwise the snapshot or the text is printed, the warnings are reported, the combined
document is saved, and with `--check` warnings make the run fail.
-/

namespace PiBlocks

namespace Program

variable {m : Type → Type} [Monad m] [Host m]

/-- The name and version. -/
def versionLine : String := "vispi 0.1.0"

/-- How the program is used. -/
def usage : List String := [
  "Pi-calculus text generator for block workspaces",
  "",
  "Usage: vispi [OPTIONS] <COMMAND>",
  "",
  "Commands:",
  "  generate  Generate process-calculus text from a saved workspace",
  "  test      Run .test.vispi fixture files",
  "  help      Print this message or the help of the given subcommand(s)"]

/-- The settings in a configuration file ; nothing, after a report, if they cannot be had. -/
def loadSettings (config : Option String) : m (Option Settings) := do
  match config with
  | none => return some {}
  | some path =>
    match ← Host.read path with
    | .error error =>
      reportLine ("error: cannot read '" ++ path ++ "': " ++ error.message)
      return none
    | .ok text =>
      match Settings.parse text with
      | some settings => return some settings
      | none =>
        reportLine ("error: invalid config '" ++ path ++ "': invalid settings")
        return none

/-- Reports diagnostics about a file. -/
def emit (name source : String) (diagnostics : List Diagnostic) : m Unit := do
  for diagnostic in diagnostics do
    report (diagnostic.layout name source)

/-- Prints the processes with their parameters. -/
def printProcesses (snapshot : Snapshot) : m Unit := do
  for name in snapshot.processNames do
    printLine (name ++ "(" ++ Text.join ", " (snapshot.params name) ++ ")")

/-- Prints the names a reference at a block can select, and gives the exit code. -/
def printNames (tree : Tree) (snapshot : Snapshot) (id : String) : m Nat := do
  match tree.find? id with
  | none =>
    reportLine ("error: no block with id '" ++ id ++ "'")
    return 1
  | some site =>
    for name in site.visibleNames snapshot do
      printLine name
    return 0

/-- Prints the snapshot or the text, as asked for. -/
def printResult (options : GenerateOptions) (generation : Generation) (snapshot : Snapshot) :
    m Unit := do
  if options.snapshot then
    printLine snapshot.toJson.pretty
  else if !options.quiet && !generation.text.isEmpty then
    printLine generation.text

/-- Saves the combined document if asked to, and tells whether nothing went wrong. -/
def saveResult (options : GenerateOptions) (tree : Tree) (scopes : Scopes) : m Bool := do
  match options.save with
  | none => return true
  | some path =>
    match ← Host.write path (tree.save scopes) with
    | .ok () => return true
    | .error error =>
      reportLine ("error: I/O error on " ++ path ++ ": " ++ error.message)
      return false

/-- The scopes with the saved state of a source restored ; an unreadable one is reported and
ignored. -/
def restored (source : String) : m Scopes := do
  match Scopes.restoreFrom {} source with
  | .ok (_, scopes) => return scopes
  | .error error =>
    reportLine ("warning: ignoring saved scope state: " ++ stateMessage source error)
    return {}

/-- Runs a pass over a loaded tree, prints what was asked for and gives the exit code. -/
def finish (options : GenerateOptions) (settings : Settings) (source : String) (tree : Tree)
    (scopes : Scopes) : m Nat := do
  let (generation, scopes) := tree.pass scopes (settings.canonical && !options.raw)
  if options.listProcesses then
    printProcesses scopes.committed
    return 0
  match options.names with
  | some id => printNames tree scopes.committed id
  | none =>
    printResult options generation scopes.committed
    emit options.file source (generation.warnings.map fun w => w.diagnostic tree)
    if !(← saveResult options tree scopes) then
      return 1
    return if options.check && !generation.warnings.isEmpty then 1 else 0

/-- Generates text from the workspace in a file and gives the exit code. -/
def generate (options : GenerateOptions) (settings : Settings) : m Nat := do
  match ← Host.read options.file with
  | .error error =>
    reportLine ("error: cannot read '" ++ options.file ++ "': " ++ error.message)
    return 1
  | .ok text =>
    let source : Source := { text := text }
    match source.load with
    | .error error =>
      emit options.file text [error.diagnostic source]
      return 1
    | .ok tree => finish options settings text tree (← restored text)

/-- Does what was asked for and gives the exit code. -/
def answer : Request → m Nat
  | .misuse => do
    for line in usage do
      reportLine line
    return 2
  | .help => do
    for line in usage do
      printLine line
    return 0
  | .version => do
    printLine versionLine
    return 0
  | .generate global options => do
    match ← loadSettings global.config with
    | none => return 1
    | some settings => generate options settings
  | .test global options => do
    match ← loadSettings global.config with
    | none => return 1
    | some _ =>
      if options.listCategories then Suite.listCategories options.path
      else Suite.run options.path global.noColor options.categories

/-- Runs the program on its arguments and gives the exit code. -/
def run (arguments : List String) : m Nat := answer (Arguments.parse arguments)

end Program

end PiBlocks
