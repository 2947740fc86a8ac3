/-!
# Arguments

The arguments of the program name a command and its options. `Arguments.parse` reads them
from left to right. Long options take their value behind an equals sign or as the next
argument, short ones can be written together, and what follows `--` is no option. An option
is given at most once where it stands, unless it counts or collects.

The options of the whole program may stand before or behind the command. A first argument
that is neither an option nor a command stands for the file of the command `generate`
(`Arguments.withCommand`).
-/

namespace PiBlocks

/-- The options of the whole program. -/
structure GlobalOptions where
  noColor : Bool := false
  config : Option String := none
deriving DecidableEq, Repr

/-- The options of `generate`. -/
structure GenerateOptions where
  file : String := ""
  raw : Bool := false
  snapshot : Bool := false
  save : Option String := none
  listProcesses : Bool := false
  names : Option String := none
  check : Bool := false
  quiet : Bool := false
deriving DecidableEq, Repr

/-- The options of `test`. -/
structure TestOptions where
  path : String := ""
  categories : List String := []
  listCategories : Bool := false
deriving DecidableEq, Repr

/-- What the program is asked to do. -/
inductive Request where
  | generate (global : GlobalOptions) (options : GenerateOptions)
  | test (global : GlobalOptions) (options : TestOptions)
  | help
  | version
  /-- the arguments make no sense -/
  | misuse
deriving DecidableEq, Repr

namespace Arguments

/-! ## The command -/

/-- The commands. -/
def commands : List String := ["generate", "test", "help"]

/-- Whether an argument looks like an option. -/
def isOption (argument : String) : Bool := argument.toList.head? = some '-'

/-- Puts the command `generate` before the first argument that is no option, unless that is
a command. The argument behind `--config` is its value. -/
def withCommand : List String → List String
  | [] => []
  | "--config" :: value :: rest => "--config" :: value :: withCommand rest
  | argument :: rest =>
    if isOption argument then argument :: withCommand rest
    else if commands.contains argument then argument :: rest
    else "generate" :: argument :: rest

/-! ## Options -/

/-- What an option does with what was given. -/
inductive Effect (α : Type) where
  /-- takes no value -/
  | flag (set : α → Option α)
  /-- takes a value -/
  | value (set : String → α → Option α)
  /-- ends the reading -/
  | stop (request : Request)

/-- An option : its names and its effect. -/
structure OptionRule (α : Type) where
  long : String
  short : Option Char := none
  effect : Effect α

/-- The options of a command and what it does with arguments that are none. -/
structure Grammar (α : Type) where
  options : List (OptionRule α)
  /-- takes an argument ; nothing if there are too many -/
  positional : String → α → Option α

/-- How far a command's arguments were read. -/
inductive Progress (α : Type) where
  | done (given : α)
  | stopped (request : Request)

/-- Sets a flag that is not set yet. -/
def once {α : Type} (isSet : α → Bool) (set : α → α) (given : α) : Option α :=
  if isSet given then none else some (set given)

/-- Splits a long option at its equals sign. -/
def splitEquals : List Char → List Char × Option (List Char)
  | [] => ([], none)
  | c :: rest =>
    if c = '=' then ([], some rest)
    else
      let (name, value) := splitEquals rest
      (c :: name, value)

/-- Whether an argument can be the value of the option before it. -/
def isValue (argument : String) : Bool := !isOption argument || argument = "-"

variable {α : Type}

/-- Reads short options written together. A value may follow its letter at once, with or
without an equals sign, or be the next argument. Gives what was given so far and whether the
next argument was used. -/
def readShort (grammar : Grammar α) (given : α) (next : Option String) :
    List Char → Option (Progress α × Bool)
  | [] => some (.done given, false)
  | c :: rest => do
    let option ← grammar.options.find? fun option => option.short = some c
    match option.effect with
    | .stop request => return (.stopped request, false)
    | .flag set =>
      let given ← set given
      readShort grammar given next rest
    | .value set =>
      match rest with
      | [] =>
        let value ← next
        if isValue value then return (.done (← set value given), true) else none
      | '=' :: value => return (.done (← set (String.ofList value) given), false)
      | value => return (.done (← set (String.ofList value) given), false)

/-- Reads a long option, given without its dashes. -/
def readLong (grammar : Grammar α) (given : α) (next : Option String) (argument : List Char) :
    Option (Progress α × Bool) := do
  let (name, value) := splitEquals argument
  let option ← grammar.options.find? fun option => option.long.toList = name
  match option.effect, value with
  | .stop request, none => return (.stopped request, false)
  | .flag set, none => return (.done (← set given), false)
  | .value set, some value => return (.done (← set (String.ofList value) given), false)
  | .value set, none =>
    let value ← next
    if isValue value then return (.done (← set value given), true) else none
  | _, some _ => none

/-- Reads arguments that are no options. -/
def readPositionals (grammar : Grammar α) (given : α) : List String → Option α
  | [] => some given
  | argument :: rest => do readPositionals grammar (← grammar.positional argument given) rest

/-- Reads the arguments of a command. With `split`, an argument that is no option ends the
reading, and it and what follows is left. `skip` tells that the first argument was used as a
value. -/
def read (grammar : Grammar α) (split : Bool) (given : α) (skip : Bool) :
    List String → Option (Progress α × List String)
  | [] => some (.done given, [])
  | argument :: rest =>
    if skip then read grammar split given false rest
    else
      match argument.toList with
      | ['-', '-'] =>
        if split then (if rest.isEmpty then some (.done given, []) else none)
        else (readPositionals grammar given rest).map fun given => (.done given, [])
      | '-' :: '-' :: long =>
        match readLong grammar given rest.head? long with
        | some (.done given, used) => read grammar split given used rest
        | some (.stopped request, _) => some (.stopped request, [])
        | none => none
      | '-' :: c :: short =>
        match readShort grammar given rest.head? (c :: short) with
        | some (.done given, used) => read grammar split given used rest
        | some (.stopped request, _) => some (.stopped request, [])
        | none => none
      | _ =>
        if split then some (.done given, argument :: rest)
        else
          match grammar.positional argument given with
          | some given => read grammar split given false rest
          | none => none

/-! ## The grammars -/

/-- A path, which is not empty. -/
def path? (value : String) : Option String := if value.isEmpty then none else some value

/-- The options of the whole program, for what holds them as a part. -/
def globalRules (get : α → GlobalOptions) (set : GlobalOptions → α → α) : List (OptionRule α) := [
  { long := "no-color"
    effect := .flag (once (fun given => (get given).noColor)
      fun given => set { get given with noColor := true } given) },
  { long := "verbose", short := some 'v', effect := .flag some },
  { long := "config"
    effect := .value fun value given => do
      let config ← path? value
      once (fun given => (get given).config.isSome)
        (fun given => set { get given with config := some config } given) given },
  { long := "help", short := some 'h', effect := .stop .help }]

/-- What is given before the command. -/
def topGrammar : Grammar GlobalOptions where
  options := globalRules id (fun global _ => global)
    ++ [{ long := "version", short := some 'V', effect := .stop .version }]
  positional _ _ := none

/-- The options of a command with those of the whole program beside them, and whether it has
its argument. -/
structure Given (α : Type) where
  global : GlobalOptions := {}
  options : α
  hasArgument : Bool := false

/-- The rules for the options of the whole program behind a command. -/
def commonRules : List (OptionRule (Given α)) :=
  globalRules Given.global fun global given => { given with global := global }

/-- A flag of a command. -/
def flagRule (long : String) (short : Option Char) (isSet : α → Bool) (set : α → α) :
    OptionRule (Given α) where
  long := long
  short := short
  effect := .flag (once (fun given => isSet given.options)
    fun given => { given with options := set given.options })

/-- The options of `generate`. -/
def generateGrammar : Grammar (Given GenerateOptions) where
  options := commonRules ++ [
    flagRule "raw" none GenerateOptions.raw fun o => { o with raw := true },
    flagRule "snapshot" none GenerateOptions.snapshot fun o => { o with snapshot := true },
    flagRule "list-processes" none GenerateOptions.listProcesses
      fun o => { o with listProcesses := true },
    flagRule "check" none GenerateOptions.check fun o => { o with check := true },
    flagRule "quiet" (some 'q') GenerateOptions.quiet fun o => { o with quiet := true },
    { long := "save"
      effect := .value fun value given => do
        let save ← path? value
        once (fun given => given.options.save.isSome)
          (fun given => { given with options := { given.options with save := some save } })
          given },
    { long := "names"
      effect := .value fun value given =>
        once (fun given => given.options.names.isSome)
          (fun given => { given with options := { given.options with names := some value } })
          given }]
  positional argument given :=
    if given.hasArgument then none
    else some { given with
      options := { given.options with file := argument }
      hasArgument := true }

/-- The options of `test`. -/
def testGrammar : Grammar (Given TestOptions) where
  options := commonRules ++ [
    flagRule "list-categories" none TestOptions.listCategories
      fun o => { o with listCategories := true },
    { long := "category"
      short := some 'c'
      effect := .value fun value given => some { given with
        options := { given.options with categories := given.options.categories ++ [value] } } }]
  positional argument given :=
    if given.hasArgument then none
    else some { given with
      options := { given.options with path := argument }
      hasArgument := true }

/-! ## Reading all arguments -/

/-- The options of the whole program given before and behind the command. -/
def merge (before behind : GlobalOptions) : GlobalOptions where
  noColor := before.noColor || behind.noColor
  config := behind.config.or before.config

/-- The request a command's arguments make. -/
def requestOf (global : GlobalOptions) (grammar : Grammar (Given α)) (start : α)
    (make : GlobalOptions → α → Request) (arguments : List String) : Request :=
  match read grammar false { options := start } false arguments with
  | some (.done given, _) =>
    if given.hasArgument then make (merge global given.global) given.options else .misuse
  | some (.stopped request, _) => request
  | none => .misuse

/-- The request that arguments make. -/
def parse (arguments : List String) : Request :=
  match read topGrammar true {} false (withCommand arguments) with
  | none => .misuse
  | some (.stopped request, _) => request
  | some (.done _, []) => .misuse
  | some (.done global, command :: rest) =>
    if command = "generate" then requestOf global generateGrammar {} .generate rest
    else if command = "test" then requestOf global testGrammar {} .test rest
    else if command = "help" then
      if rest.all commands.contains && decide (rest.length ≤ 1) then .help else .misuse
    else .misuse

end Arguments

end PiBlocks
