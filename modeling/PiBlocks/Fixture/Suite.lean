import PiBlocks.CommandLine.Host
import PiBlocks.Fixture.Basic

/-!
# Suites of fixtures

A suite is every fixture in a folder and the folders inside it. The folder a fixture lies in,
seen from the top, is its category ; fixtures at the top have the empty one. Categories come
in the order of their names and fixtures in that of their paths, whatever order the system
lists them in (`Suite.add`).
-/

namespace PiBlocks

/-- The end of the name of a fixture. -/
def fixtureSuffix : String := ".test.vispi"

/-- Fixtures by category, both in order. -/
abbrev Suite := List (String × List String)

/-- How the top category is called. -/
def categoryLabel (category : String) : String :=
  if category.isEmpty then "(root)" else category

/-- The name of an entry of a folder behind the path of the folder. -/
def joinPath (folder name : String) : String :=
  if folder.isEmpty || folder.toList.getLast? = some '/' then folder ++ name
  else folder ++ "/" ++ name

/-- The category of a folder inside that of another one. A backslash in its name divides it
like a slash. -/
def joinCategory (category name : String) : String :=
  let name := String.ofList (name.toList.map fun c => if c = '\\' then '/' else c)
  if category.isEmpty then name else category ++ "/" ++ name

namespace Suite

/-- Orders texts by their bytes, which is the order of their characters. -/
def comesBefore (a b : String) : Bool := decide (a.toList < b.toList)

/-- Puts a path in its place among others. -/
def insertPath (path : String) : List String → List String
  | [] => [path]
  | other :: rest =>
    if comesBefore path other then path :: other :: rest else other :: insertPath path rest

/-- Adds a fixture to a category. -/
def add (category path : String) : Suite → Suite
  | [] => [(category, [path])]
  | (other, paths) :: rest =>
    if category = other then (other, insertPath path paths) :: rest
    else if comesBefore category other then (category, [path]) :: (other, paths) :: rest
    else (other, paths) :: add category path rest

/-- Whether a file is a fixture. -/
def isFixture (name : String) : Bool := fixtureSuffix.toList.isSuffixOf name.toList

/-- Finds the fixtures in folders that are still to be looked at, each given by its path and
its category. Looks into so many folders at most. -/
def discoverFrom {m : Type → Type} [Monad m] [Host m] :
    Nat → List (String × String) → Suite → m Suite
  | 0, _, suite => return suite
  | _ + 1, [], suite => return suite
  | fuel + 1, (folder, category) :: pending, suite => do
    let entries ← Host.list folder
    let folders := (entries.filter Prod.snd).map fun entry =>
      (joinPath folder entry.1, joinCategory category entry.1)
    let files := (entries.filter fun entry => !entry.2 && isFixture entry.1).map Prod.fst
    discoverFrom fuel (folders ++ pending)
      (files.foldl (fun suite name => suite.add category (joinPath folder name)) suite)

/-- More folders than anybody keeps fixtures in. -/
def folderLimit : Nat := 1000000

/-- The fixtures in a folder. -/
def discover {m : Type → Type} [Monad m] [Host m] (root : String) : m Suite :=
  discoverFrom folderLimit [(root, "")] []

/-- A request without the slashes around it. -/
def trimSlashes (request : String) : String :=
  let chars := request.toList.dropWhile fun c => c = '/'
  String.ofList (chars.reverse.dropWhile fun c => c = '/').reverse

/-- Whether a category is the requested one or lies inside it. -/
def inCategory (category request : String) : Bool :=
  category = request
    || (request.toList ++ ['/']).isPrefixOf category.toList

/-- What is said of requested categories that are not there. -/
def unknownRequests (suite : Suite) (requested : List String) : List String :=
  (requested.map trimSlashes).filterMap fun request =>
    if suite.any fun entry => inCategory entry.1 request then none
    else some ("warning: category '" ++ request ++ "' not found (available: "
      ++ Text.join ", " (suite.map fun entry => categoryLabel entry.1) ++ ")")

/-- The requested categories ; all of them if none is requested. -/
def select (suite : Suite) (requested : List String) : Suite :=
  if requested.isEmpty then suite
  else suite.filter fun entry => requested.any fun request => inCategory entry.1 (trimSlashes request)

end Suite

/-! ## Running a suite -/

/-- What has come of the fixtures so far. -/
structure Tally where
  passed : Nat := 0
  /-- paths and reasons of those that failed, in order -/
  failures : List (String × String) := []

namespace Tally

/-- A text in a colour of the terminal, unless colours are not wanted. -/
def paint (noColor : Bool) (text code : String) : String :=
  if noColor then text else "\x1b[" ++ code ++ "m" ++ text ++ "\x1b[0m"

/-- The last part of a path. -/
def fileLabel (path : String) : String :=
  let chars := path.toList.reverse.dropWhile fun c => c = '/'
  String.ofList (chars.takeWhile fun c => decide (c ≠ '/')).reverse

/-- The label and outcome of a fixture. -/
def outcome (path : String) (content : Except FileError String) :
    String × Except String Unit :=
  match content with
  | .error error => (fileLabel path, .error ("cannot read file: " ++ error.message))
  | .ok content =>
    match Fixture.parse content with
    | .error reason => (fileLabel path, .error ("frontmatter error: " ++ reason))
    | .ok fixture =>
      (fixture.expectation.description.getD (fileLabel path), fixture.check)

/-- Runs a fixture and tells its outcome. -/
def runFixture {m : Type → Type} [Monad m] [Host m] (noColor : Bool) (tally : Tally)
    (path : String) : m Tally := do
  let content ← Host.read path
  match outcome path content with
  | (label, .ok ()) => do
    reportLine ("  " ++ paint noColor "PASS" "32" ++ "  " ++ label)
    return { tally with passed := tally.passed + 1 }
  | (label, .error reason) => do
    reportLine ("  " ++ paint noColor "FAIL" "31" ++ "  " ++ label)
    return { tally with failures := tally.failures ++ [(path, reason)] }

/-- Runs the fixtures of a suite, category by category. -/
def runSuite {m : Type → Type} [Monad m] [Host m] (noColor : Bool) (tally : Tally) :
    Suite → m Tally
  | [] => return tally
  | (category, paths) :: rest => do
    reportLine ""
    reportLine (paint noColor (categoryLabel category) "1")
    let tally ← paths.foldlM (runFixture noColor) tally
    runSuite noColor tally rest

/-- What is said of the fixtures that failed. -/
def failureLines (failures : List (String × String)) : List String :=
  if failures.isEmpty then []
  else
    "" :: "failures:" :: failures.flatMap fun failure =>
      "" :: ("  --- " ++ failure.1 ++ " ---")
        :: (Text.lines failure.2).map fun line => "  " ++ line

/-- Tells the outcome of all fixtures and gives the exit code. -/
def finish {m : Type → Type} [Monad m] [Host m] (noColor : Bool) (tally : Tally) : m Nat := do
  let failed := tally.failures.length
  for line in failureLines tally.failures do
    reportLine line
  reportLine ""
  if failed = 0 then
    reportLine ("test result: " ++ paint noColor "ok" "32" ++ ". " ++ toString tally.passed
      ++ " passed, 0 failed")
    return 0
  else
    reportLine ("test result: " ++ paint noColor "FAILED" "31" ++ ". " ++ toString tally.passed
      ++ " passed, " ++ toString failed ++ " failed (of " ++ toString (tally.passed + failed)
      ++ ")")
    return 1

end Tally

namespace Suite

/-- What is said of a folder without fixtures. -/
def nothingFound (path : String) : String := "no " ++ fixtureSuffix ++ " files found in " ++ path

/-- Lists the categories under a path and gives the exit code. -/
def listCategories {m : Type → Type} [Monad m] [Host m] (path : String) : m Nat := do
  if ← Host.isFile path then
    reportLine "(single file, no categories)"
    return 0
  let suite ← discover path
  if suite.isEmpty then
    reportLine (nothingFound path)
    return 0
  reportLine "available categories:"
  for (category, files) in suite do
    reportLine ("  " ++ categoryLabel category ++ " (" ++ toString files.length ++ " tests)")
  return 0

/-- Runs the fixture a path names, or those under it in the requested categories, and gives
the exit code. -/
def run {m : Type → Type} [Monad m] [Host m] (path : String) (noColor : Bool)
    (requested : List String) : m Nat := do
  if ← Host.isFile path then
    let tally ← Tally.runFixture noColor {} path
    tally.finish noColor
  else
    let suite ← discover path
    if suite.isEmpty then
      reportLine (nothingFound path)
      return 1
    for line in suite.unknownRequests requested do
      reportLine line
    let selected := suite.select requested
    if selected.isEmpty then
      reportLine "no matching categories found"
      return 1
    let tally ← Tally.runSuite noColor {} selected
    tally.finish noColor

end Suite

end PiBlocks
