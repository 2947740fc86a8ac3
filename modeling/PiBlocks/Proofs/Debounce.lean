import PiBlocks.Proofs.Walk.Operations
import PiBlocks.Session
import Mathlib.Data.List.DropRight

/-!
# Debouncing

Whatever a session is asked, in any order, at any times and with any trees, the passes that it runs
can be told from what has happened so far (`Session.debounced`). What has happened is a list of
events : a request, and whether a pass ran then. A poll runs a pass if there was an edit since the
last one and the window behind the latest edit is over ; a flush always does, and an edit never.

A session that agrees with a list of events `Follows` it. A fresh session follows none, an answer
leads to a session that follows one event more (`Session.Follows.answer`), and the rest is induction
on the requests, from their end.
-/

namespace PiBlocks

/-- The outcome of a pass hangs on the tree alone. -/
theorem Tree.pass_congr (tree : Tree) (scopes other : Scopes) (canonical : Bool) :
    tree.pass scopes canonical = tree.pass other canonical := by
  have hagree := tree.agree_trace scopes other
  simp only [pass, generate_eq, Scopes.commit, hagree.value, hagree.run.active]

namespace Session

/-! ## Requests and events -/

/-- What a session may be asked. -/
inductive Request where
  | edit (now : Nat)
  | poll (tree : Tree) (now : Nat)
  | flush (tree : Tree)

/-- Whether a pass runs on a request, and the session afterwards. -/
def answer (session : Session) : Request → Bool × Session
  | .edit now => (false, session.edit now)
  | .poll tree now => session.poll tree now
  | .flush tree => (true, session.flush tree)

/-- The session after requests. -/
def after (session : Session) (requests : List Request) : Session :=
  requests.foldl (fun session request => (session.answer request).2) session

/-- A request, and whether a pass ran. -/
structure Event where
  request : Request
  ran : Bool

/-- What happens on requests. -/
def events : Session → List Request → List Event
  | _, [] => []
  | session, request :: requests =>
    ⟨request, (session.answer request).1⟩ :: events (session.answer request).2 requests

theorem after_concat (session : Session) (requests : List Request) (request : Request) :
    session.after (requests ++ [request]) = ((session.after requests).answer request).2 :=
  List.foldl_concat ..

theorem events_concat (session : Session) (requests : List Request) (request : Request) :
    session.events (requests ++ [request]) =
      session.events requests ++ [⟨request, ((session.after requests).answer request).1⟩] := by
  induction requests generalizing session with
  | nil => rfl
  | cons first requests ih =>
    rw [List.cons_append, events, events, ih, List.cons_append]
    rfl

theorem map_request_events : ∀ (session : Session) (requests : List Request),
    (session.events requests).map Event.request = requests
  | _, [] => rfl
  | _, request :: requests => congrArg (request :: ·) (map_request_events _ requests)

/-! ## What events tell -/

namespace Event

/-- The time of an edit. -/
def edit? (event : Event) : Option Nat :=
  match event.request with
  | .edit now => some now
  | _ => none

/-- The tree of a pass. -/
def passed? (event : Event) : Option Tree :=
  match event.request with
  | .edit _ => none
  | .poll tree _ | .flush tree => if event.ran then some tree else none

/-- The events since the last pass. -/
def recent (events : List Event) : List Event := events.rtakeWhile fun event => !event.ran

/-- The times of the edits, in the order in which they came. -/
def edits (events : List Event) : List Nat := events.filterMap edit?

theorem recent_concat (events : List Event) (event : Event) :
    recent (events ++ [event]) = if event.ran then [] else recent events ++ [event] := by
  cases h : event.ran <;> simp [recent, h]

/-- If there was an edit since the last pass, the latest such edit is the latest of all. -/
theorem getLast?_edits_recent {events : List Event} (h : edits (recent events) ≠ []) :
    (edits (recent events)).getLast? = (edits events).getLast? := by
  obtain ⟨front, hfront⟩ := List.rtakeWhile_suffix (fun event : Event => !event.ran) events
  have hsplit : edits events = edits front ++ edits (recent events) := by
    rw [edits, edits, edits, ← List.filterMap_append, recent, hfront]
  rw [hsplit, List.getLast?_append_of_ne_nil _ h]

end Event

/-- Whether a request asks for a pass, given what has happened before and how long the window
is. -/
def Request.asks (window : Nat) (before : List Event) : Request → Prop
  | .edit _ => False
  | .poll _ now => Event.edits (Event.recent before) ≠ [] ∧
      ∃ edit, (Event.edits before).getLast? = some edit ∧ edit + window ≤ now
  | .flush _ => True

/-! ## Sessions and their events -/

/-- A session begun with settings and a snapshot is as the events tell. -/
structure Follows (session : Session) (settings : Settings) (snapshot : Snapshot)
    (events : List Event) : Prop where
  configured : session.settings = settings
  lastEdit : session.lastEdit = (Event.edits (Event.recent events)).getLast?
  passes : session.passes = events.countP Event.ran
  outcome : match (events.filterMap Event.passed?).getLast? with
    | none => session.latest = {} ∧ session.scopes.committed = snapshot
    | some tree => ∀ scopes, tree.pass scopes settings.canonical = (session.latest, session.scopes)

namespace Follows

variable {session : Session} {settings : Settings} {snapshot : Snapshot} {events : List Event}

theorem resume (settings : Settings) (snapshot : Snapshot) :
    (Session.resume settings snapshot).Follows settings snapshot [] :=
  ⟨rfl, rfl, rfl, rfl, rfl⟩

variable (h : session.Follows settings snapshot events)
include h

theorem isPending_iff : session.isPending = true ↔ Event.edits (Event.recent events) ≠ [] := by
  rw [isPending, h.lastEdit, List.getLast?_isSome]

theorem edit (now : Nat) :
    (session.edit now).Follows settings snapshot (events ++ [⟨.edit now, false⟩]) where
  configured := h.configured
  lastEdit := by simp [Session.edit, Event.recent_concat, Event.edits, Event.edit?]
  passes := by simp [Session.edit, h.passes]
  outcome := by simpa [Session.edit, Event.passed?] using h.outcome

/-- A pass that runs is the last one, and nothing is left to do. -/
theorem flush {event : Event} {tree : Tree} (hran : event.ran = true)
    (htree : event.passed? = some tree) :
    (session.flush tree).Follows settings snapshot (events ++ [event]) where
  configured := h.configured
  lastEdit := by simp [Session.flush, Event.recent_concat, hran, Event.edits]
  passes := by simp [Session.flush, h.passes, hran]
  outcome := by
    rw [List.filterMap_append, List.filterMap_cons_some htree, List.filterMap_nil,
      List.getLast?_concat]
    intro scopes
    rw [tree.pass_congr scopes session.scopes, ← h.configured]
    rfl

/-- A poll that runs nothing leaves the session as it was. -/
theorem idle (tree : Tree) (now : Nat) :
    session.Follows settings snapshot (events ++ [⟨.poll tree now, false⟩]) where
  configured := h.configured
  lastEdit := by simpa [Event.recent_concat, Event.edits, Event.edit?] using h.lastEdit
  passes := by simp [h.passes]
  outcome := by simpa [Event.passed?] using h.outcome

theorem poll (tree : Tree) (now : Nat) : (session.poll tree now).2.Follows settings snapshot
    (events ++ [⟨.poll tree now, (session.poll tree now).1⟩]) := by
  rw [Session.poll]
  split
  · split_ifs
    · exact h.idle tree now
    · exact h.flush rfl rfl
  · exact h.idle tree now

/-- An answer leads to a session that follows one event more. -/
theorem answer (request : Request) : (session.answer request).2.Follows settings snapshot
    (events ++ [⟨request, (session.answer request).1⟩]) := by
  cases request with
  | edit now => exact h.edit now
  | poll tree now => exact h.poll tree now
  | flush tree => exact h.flush rfl rfl

/-- A poll runs a pass if the window behind the latest edit since the last pass is over. -/
theorem poll_iff (tree : Tree) (now : Nat) : (session.poll tree now).1 = true ↔
    ∃ edit, session.lastEdit = some edit ∧ edit + settings.debounce ≤ now := by
  rw [Session.poll, due, h.configured]
  cases session.lastEdit with
  | none => simp
  | some edit =>
    simp only [Option.map_some, Option.some.injEq, exists_eq_left']
    split_ifs with hearly <;> simp <;> omega

theorem answer_iff (request : Request) :
    (session.answer request).1 = true ↔ request.asks settings.debounce events := by
  cases request with
  | edit now => simp [Session.answer, Request.asks]
  | flush tree => simp [Session.answer, Request.asks]
  | poll tree now =>
    rw [Session.answer, h.poll_iff, h.lastEdit, Request.asks]
    by_cases hedits : Event.edits (Event.recent events) = []
    · simp [hedits]
    · simp [hedits, Event.getLast?_edits_recent hedits]

end Follows

theorem follows_after (settings : Settings) (snapshot : Snapshot) (requests : List Request) :
    ((resume settings snapshot).after requests).Follows settings snapshot
      ((resume settings snapshot).events requests) := by
  induction requests using List.reverseRecOn with
  | nil => exact .resume settings snapshot
  | append_singleton requests request ih =>
    rw [after_concat, events_concat]
    exact ih.answer request

/-- After any requests, the next one runs a pass if and only if it asks for one : a flush does, an
edit does not, and a poll does if there was an edit since the last pass and the window behind the
latest edit is over. A pass is pending if there was an edit since the last one. Passes are counted,
and what the session shows, text, warnings and scopes alike, comes from one pass over the tree of
the last one, or is what the session began with. -/
theorem debounced (settings : Settings) (snapshot : Snapshot) (requests : List Request) :
    let session := (resume settings snapshot).after requests
    let events := (resume settings snapshot).events requests
    events.map Event.request = requests ∧
      (∀ request, (session.answer request).1 = true ↔ request.asks settings.debounce events) ∧
      (session.isPending = true ↔ Event.edits (Event.recent events) ≠ []) ∧
      session.passes = events.countP Event.ran ∧
      match (events.filterMap Event.passed?).getLast? with
      | none => session.latest = {} ∧ session.scopes.committed = snapshot
      | some tree =>
        ∀ scopes, tree.pass scopes settings.canonical = (session.latest, session.scopes) := by
  intro session events
  have h : session.Follows settings snapshot events := follows_after settings snapshot requests
  exact ⟨map_request_events _ requests, h.answer_iff, h.isPending_iff, h.passes, h.outcome⟩

/-- Two edits within the window cost one pass, and the time of the later one counts. -/
example : ((resume {} {}).events [.edit 0, .edit 200, .poll {} 300, .poll {} 450, .poll {} 900]).map
    Event.ran = [false, false, false, true, false] := by
  decide

end Session

end PiBlocks
