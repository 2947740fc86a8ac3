import PiBlocks.Program.Pass
import PiBlocks.Settings

/-!
# Sessions

While a user edits, passes must not run at every stroke. A session notes the time of the
last edit and runs a pass once nothing was edited for a whole window (`Session.poll`), or at
once when asked to (`Session.flush`). Time is given from outside, in milliseconds ; a new
edit moves the window, whatever its time.
-/

namespace PiBlocks

/-- A series of edits and passes. -/
structure Session where
  scopes : Scopes := {}
  settings : Settings := {}
  /-- the time of the last edit since the last pass -/
  lastEdit : Option Nat := none
  /-- the outcome of the last pass -/
  latest : Generation := {}
  /-- the number of passes run -/
  passes : Nat := 0
deriving DecidableEq, Repr

namespace Session

/-- Begins with a snapshot that was saved earlier. -/
def resume (settings : Settings) (snapshot : Snapshot) : Session :=
  { settings := settings, scopes := .resume snapshot }

/-- Notes an edit. -/
def edit (session : Session) (now : Nat) : Session := { session with lastEdit := some now }

/-- Whether a pass is due at some time. -/
def isPending (session : Session) : Bool := session.lastEdit.isSome

/-- When the pass is due. -/
def due (session : Session) : Option Nat :=
  session.lastEdit.map fun edit => edit + session.settings.debounce

/-- Runs a pass now. -/
def flush (session : Session) (tree : Tree) : Session :=
  let (generation, scopes) := tree.pass session.scopes session.settings.canonical
  { session with
    scopes := scopes
    lastEdit := none
    latest := generation
    passes := session.passes + 1 }

/-- Runs the pass if it is due, and tells whether it was. -/
def poll (session : Session) (tree : Tree) (now : Nat) : Bool × Session :=
  match session.due with
  | some due => if now < due then (false, session) else (true, session.flush tree)
  | none => (false, session)

end Session

end PiBlocks
