/-!
# What a program needs from its surroundings

The program reads and writes text files, looks into folders and prints. `Host` lists these
actions ; the program is written over any monad that has them. One such monad is the real
one, another is a run on files held in memory (`PiBlocks.CommandLine.Disk`), on which what
the program does can be stated and computed.
-/

namespace PiBlocks

/-- Why a file cannot be read or written. -/
inductive FileError where
  | notFound
  | notFolder
  | isFolder
  | nameTooLong
  | notText
  | other (message : String)
deriving DecidableEq, Repr

/-- The error in the words of the system. -/
def FileError.message : FileError → String
  | .notFound => "No such file or directory (os error 2)"
  | .notFolder => "Not a directory (os error 20)"
  | .isFolder => "Is a directory (os error 21)"
  | .nameTooLong => "File name too long (os error 36)"
  | .notText => "stream did not contain valid UTF-8"
  | .other message => message

/-- The actions of a program. -/
class Host (m : Type → Type) where
  /-- the text of a file -/
  read : String → m (Except FileError String)
  /-- replaces the text of a file -/
  write : String → String → m (Except FileError Unit)
  /-- whether a path names a file -/
  isFile : String → m Bool
  /-- the names in a folder, each with whether it is a folder ; nothing if there is none -/
  list : String → m (List (String × Bool))
  /-- prints to the output -/
  print : String → m Unit
  /-- prints to the error output -/
  report : String → m Unit

export Host (print report)

/-- Prints a line to the output. -/
def printLine {m : Type → Type} [Host m] (line : String) : m Unit := print (line ++ "\n")

/-- Prints a line to the error output. -/
def reportLine {m : Type → Type} [Host m] (line : String) : m Unit := report (line ++ "\n")

end PiBlocks
