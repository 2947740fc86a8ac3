import PiBlocks.CommandLine.Host

/-!
# Files in memory

A `Disk` is a set of files under their places, given by their bytes. A place is told by the names
on the way from the root. A folder is there if a file lies somewhere under it, or the folder the
program runs in does. A path that begins with a slash is followed from the root, and any other one
from the folder the program runs in (`Disk.locate`). A name has at most 255 bytes and a path at
most 4095 ; a name that is too long is noticed when it is looked up in its folder. There are no
links from one place to another.

A `Machine` is a disk and what has been printed so far, and running on it is a state monad.
-/

namespace PiBlocks

/-- Files under their places. -/
structure Disk where
  files : List (List String × ByteArray) := []
  /-- the folder the program runs in -/
  current : List String := []

namespace Disk

/-- The parts of a path between slashes. -/
def splitPath : List Char → List (List Char)
  | [] => [[]]
  | c :: rest =>
    if c = '/' then [] :: splitPath rest
    else
      match splitPath rest with
      | [] => [[c]]
      | part :: parts => (c :: part) :: parts

/-- The parts of a path between slashes, as texts. -/
def pathParts (path : String) : List String := (splitPath path.toList).map String.ofList

/-- The contents of a file. -/
def contents? (disk : Disk) (place : List String) : Option ByteArray :=
  (disk.files.find? fun file => file.1 = place).map Prod.snd

/-- Whether a folder is there. -/
def isFolder (disk : Disk) (place : List String) : Bool :=
  place.isPrefixOf disk.current || disk.files.any fun file =>
    place.isPrefixOf file.1 && decide (place.length < file.1.length)

/-- Whether the last name of a place is too long. -/
def hasLongName (place : List String) : Bool :=
  place.getLast?.any fun name => decide (255 < name.utf8ByteSize)

/-- Follows the parts of a path. All but the last one have to be folders, and there is nothing above
the root. -/
def follow (disk : Disk) (here : List String) : List String → Except FileError (List String)
  | [] => .ok here
  | part :: parts =>
    if hasLongName here then .error .nameTooLong
    else if (disk.contents? here).isSome then .error .notFolder
    else if !disk.isFolder here then .error .notFound
    else if part = "" || part = "." then follow disk here parts
    else if part = ".." then follow disk here.dropLast parts
    else follow disk (here ++ [part]) parts

/-- Where a path begins. -/
def start (disk : Disk) (path : String) : List String :=
  if path.toList.head? = some '/' then [] else disk.current

/-- The place a path leads to, whether something is there or not. -/
def locate (disk : Disk) (path : String) : Except FileError (List String) :=
  if path.isEmpty then .error .notFound
  else if 4095 < path.utf8ByteSize then .error .nameTooLong
  else disk.follow (disk.start path) (pathParts path)

/-- The bytes of a file. -/
def bytes (disk : Disk) (path : String) : Except FileError ByteArray := do
  let place ← disk.locate path
  if hasLongName place then throw .nameTooLong
  match disk.contents? place with
  | some bytes => return bytes
  | none => if disk.isFolder place then throw .isFolder else throw .notFound

/-- The text of a file. -/
def text (disk : Disk) (path : String) : Except FileError String := do
  match String.fromUTF8? (← disk.bytes path) with
  | some text => return text
  | none => throw .notText

/-- Files with the bytes of one set. -/
def setBytes (place : List String) (bytes : ByteArray) :
    List (List String × ByteArray) → List (List String × ByteArray)
  | [] => [(place, bytes)]
  | (other, old) :: rest =>
    if other = place then (place, bytes) :: rest else (other, old) :: setBytes place bytes rest

/-- The disk with the bytes of a file set. -/
def setFile (disk : Disk) (place : List String) (bytes : ByteArray) : Disk :=
  { disk with files := setBytes place bytes disk.files }

/-- A path without the slashes at its end, unless there is nothing before them, and whether
it had any. -/
def trimSlashes (path : String) : String × Bool :=
  let chars := path.toList.reverse
  match chars.dropWhile fun c => c = '/' with
  | [] => (path, false)
  | rest => (String.ofList rest.reverse, decide (rest.length < chars.length))

/-- The disk with another text in a file. A path with a slash at its end names no file. -/
def withText (disk : Disk) (path text : String) : Except FileError Disk := do
  let (path, asFolder) := trimSlashes path
  let place ← disk.locate path
  if asFolder then throw .isFolder
  else if hasLongName place then throw .nameTooLong
  else if disk.isFolder place then throw .isFolder
  else return disk.setFile place text.toUTF8

/-- The disk with a file at a path, in whatever folder that is. -/
def place (disk : Disk) (path : String) (bytes : ByteArray) : Disk :=
  let names := (pathParts path).filter fun part => part ≠ "" && part ≠ "."
  disk.setFile (disk.start path ++ names) bytes

/-- The names in a folder, each with whether it is a folder. -/
def entries (disk : Disk) (place : List String) : List (String × Bool) :=
  let names := (disk.files.map Prod.fst ++ [disk.current]).filterMap fun other =>
    if place.isPrefixOf other then (other.drop place.length).head? else none
  (names.foldl (fun seen name => if seen.contains name then seen else seen ++ [name]) []).map
    fun name => (name, disk.isFolder (place ++ [name]))

end Disk

/-- A disk and what was printed. -/
structure Machine where
  disk : Disk := {}
  output : String := ""
  errors : String := ""

/-- Running on files in memory. -/
instance : Host (StateM Machine) where
  read path := return (← get).disk.text path
  write path text := do
    match (← get).disk.withText path text with
    | .ok disk => do
      modify fun machine => { machine with disk := disk }
      return .ok ()
    | .error error => return .error error
  isFile path := return match (← get).disk.bytes path with
    | .ok _ => true
    | .error _ => false
  list path := do
    let disk := (← get).disk
    return match disk.locate path with
      | .ok place => disk.entries place
      | .error _ => []
  print text := modify fun machine => { machine with output := machine.output ++ text }
  report text := modify fun machine => { machine with errors := machine.errors ++ text }

end PiBlocks
