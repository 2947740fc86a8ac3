import PiBlocks.Program.Line
import PiBlocks.Scope.Scopes
import PiBlocks.Text.Blank
import PiBlocks.Workspace.Tree

/-!
# Generating text

The text of a workspace comes from one walk over its blocks, in which text is put together
and scopes are kept at the same time : a reference is printed only if its name is visible
where the walk stands. The walk is recursion on the block tree. What it carries along is a
`Run` : the scopes, whether it is inside of a program or definition, and, for every fork
around it, how many of its branches have text so far.

`renderBlock` gives the text of one block, `renderChain` that of a block with the rest of
its chain. Outside of programs and definitions only blocks that bypass the gate
(`Kind.bypassesGate`) are looked at.
-/

namespace PiBlocks

/-- What the walk carries along. -/
structure Run where
  scopes : Scopes
  /-- inside of a program or definition -/
  emitting : Bool := false
  /-- the branches with text of the forks around, the innermost first -/
  branches : List Nat := []
deriving DecidableEq, Repr

namespace Run

/-- Changes the scopes. -/
def changeScopes (change : Scopes → Scopes) : StateM Run Unit :=
  modify fun run => { run with scopes := change run.scopes }

/-- Whether blocks of a kind count where the walk stands. -/
def counts (kind : Kind) (run : Run) : Bool := kind.bypassesGate || run.emitting

/-- Opens or closes the gate. -/
def setEmitting (emitting : Bool) : StateM Run Unit :=
  modify fun run => { run with emitting := emitting }

/-- Begins to count the branches of a fork. -/
def beginFork : StateM Run Unit :=
  modify fun run => { run with branches := 0 :: run.branches }

/-- Counts a branch of the innermost fork. -/
def countBranch : StateM Run Unit :=
  modify fun run => { run with branches := match run.branches with
    | [] => []
    | count :: outer => (count + 1) :: outer }

/-- Ends a fork and gives the count of its branches. -/
def endFork : StateM Run Nat :=
  modifyGet fun run => (run.branches.headD 0, { run with branches := run.branches.tail })

end Run

namespace Block

/-! ## Pieces of text -/

/-- The own text of a block and that of the rest of its chain, put together. `next` is the
kind of the block behind it. -/
def sequence (kind : Kind) (next : Option Kind) (own rest : String) : String :=
  if own.isEmpty || Text.isBlank rest then own ++ rest
  else if kind = .choiceBranch ∧ next = some .choiceBranch then own ++ " + " ++ rest
  else if kind = .parallelBranch ∧ next = some .parallelBranch then own ++ " | " ++ rest
  else if kind.needsStop && next.isSome then own ++ ". " ++ rest
  else own ++ rest

/-- Prefixes and what they go on with. -/
def continued (atoms body : String) : String :=
  if body.isEmpty then atoms else atoms ++ ". " ++ body

/-- A message sent on a channel. -/
def sendText (channel message : String) : String := channel ++ "'<" ++ message ++ ">"

/-- A name received on a channel. -/
def receiveText (channel name : String) : String := channel ++ "(" ++ name ++ ")"

/-- The text of a call. -/
def callText (name : String) (args : List String) : String :=
  let joined := Text.join ", " args
  if joined.isEmpty then name else name ++ "(" ++ joined ++ ")"

/-- The text of a definition. -/
def definitionText (name : String) (params : List String) (body : String) : String :=
  if name.isEmpty || Text.isBlank body then ""
  else if params.isEmpty then name ++ " = " ++ body
  else name ++ "(" ++ Text.join ", " params ++ ") = " ++ body

/-- The text of a guard. -/
def guardText (left operator right body : String) : String :=
  if left.isEmpty || right.isEmpty then ""
  else
    let condition := "[" ++ left ++ operator ++ right ++ "]"
    if body.isEmpty then condition else condition ++ " " ++ body

/-- The text of a fork whose branches have been joined. The body of a program or definition
needs no brackets around it. -/
def forkText (count : Nat) (around : ScopeKind) (joined : String) : String :=
  if count = 0 then ""
  else if count = 1 || around.isBody then joined
  else "(" ++ joined ++ ")"

/-- Whether a selection field selects nothing. -/
def selectsNothing (value : String) : Bool := value.isEmpty || value = unresolved

/-! ## The walk -/

open Run

mutual

/-- The text of one block. -/
def renderBlock : Block → StateM Run String
  | .mk id kind fields slots => do
    if !(← get).counts kind then return ""
    let field (name : String) : String := (OrderedMap.get? name fields).getD ""
    match kind with
    | .main =>
      setEmitting true
      changeScopes (.enter id .main)
      let body ← renderSlot SlotName.main slots
      changeScopes .leave
      setEmitting false
      return body
    | .process =>
      setEmitting true
      let name := field FieldName.process
      let params := namesIn FieldName.new ((OrderedMap.get? SlotName.params slots).getD [])
      if name.isEmpty then
        changeScopes (.enter id .process)
        changeScopes (.declareAll params)
      else
        changeScopes (.register id name params)
      let body ← renderSlot SlotName.body slots
      changeScopes .leave
      setEmitting false
      return definitionText name params body
    | .call =>
      let name := field FieldName.processName
      if selectsNothing name then return ""
      let args ← renderItemsIn SlotName.args SlotName.arg slots
      return callText name args
    | .parameter | .argument | .sendName => return ""
    | .globalName | .restrictName | .receiveName =>
      changeScopes (.declare (field FieldName.new))
      return ""
    | .restrict =>
      let name := field FieldName.new
      if selectsNothing name then return ""
      changeScopes (.enter id .restrict)
      changeScopes (.declare name)
      let body ← renderSlot SlotName.scope slots
      changeScopes .leave
      return continued ("$" ++ name) body
    | .multiRestrict =>
      changeScopes (.enter id .multiRestrict)
      let _ ← renderSlot SlotName.names slots
      let names := namesIn FieldName.new ((OrderedMap.get? SlotName.names slots).getD [])
      if names.isEmpty then
        changeScopes .leave
        return ""
      let body ← renderSlot SlotName.scope slots
      changeScopes .leave
      return continued (Text.join ". " (names.map fun name => "$" ++ name)) body
    | .receive =>
      let name := field FieldName.new
      let channel ← renderSlot SlotName.on slots
      changeScopes (.enter id .receive)
      changeScopes (.declare name)
      let body ← renderSlot SlotName.scope slots
      changeScopes .leave
      if name.isEmpty || channel.isEmpty then return ""
      return continued (receiveText channel name) body
    | .multiReceive =>
      let channel ← renderSlot SlotName.on slots
      changeScopes (.enter id .multiReceive)
      let _ ← renderSlot SlotName.names slots
      let names := namesIn FieldName.new ((OrderedMap.get? SlotName.names slots).getD [])
      let body ← renderSlot SlotName.scope slots
      changeScopes .leave
      if channel.isEmpty || names.isEmpty then return ""
      return continued (Text.join ". " (names.map (receiveText channel))) body
    | .guarded =>
      let left ← renderSlot SlotName.first slots
      let operator := (OrderedMap.get? FieldName.operation fields).getD "="
      let right ← renderSlot SlotName.second slots
      changeScopes (.enter id .guarded)
      let body ← renderSlot SlotName.scope slots
      changeScopes .leave
      return guardText left operator right body
    | .parallelFork =>
      changeScopes (.enter id .parallelFork)
      beginFork
      let joined ← renderSlot SlotName.parallel slots
      let count ← endFork
      changeScopes .leave
      return forkText count (← get).scopes.currentKind joined
    | .choiceFork =>
      changeScopes (.enter id .choiceFork)
      beginFork
      let joined ← renderSlot SlotName.choice slots
      let count ← endFork
      changeScopes .leave
      return forkText count (← get).scopes.currentKind joined
    | .parallelBranch =>
      changeScopes (.enter id .parallelBranch)
      let body ← renderSlot SlotName.scope slots
      changeScopes .leave
      if Text.isBlank body then return ""
      countBranch
      return body
    | .choiceBranch =>
      changeScopes (.enter id .choiceBranch)
      let body ← renderSlot SlotName.scope slots
      changeScopes .leave
      if Text.isBlank body then return ""
      countBranch
      return body
    | .send =>
      let channel ← renderSlot SlotName.on slots
      let message ← renderSlot SlotName.message slots
      if channel.isEmpty || message.isEmpty then return ""
      return sendText channel message
    | .multiSend =>
      let channel ← renderSlot SlotName.on slots
      let all ← renderItemsIn SlotName.messages SlotName.message slots
      let messages := all.filter fun message => !message.isEmpty
      if channel.isEmpty || messages.isEmpty then return ""
      return Text.join ". " (messages.map (sendText channel))
    | .sync =>
      let channel ← renderSlot SlotName.on slots
      if channel.isEmpty then return ""
      return sendText channel channel
    | .reference =>
      let name := field FieldName.name
      if name.isEmpty || !(← get).scopes.isVisible name then return ""
      return name
    | .termination => return "0"

/-- The text of a block and of the rest of its chain. -/
def renderChain : List Block → StateM Run String
  | [] => return ""
  | .mk id kind fields slots :: rest => do
    let own ← renderBlock (.mk id kind fields slots)
    if !(← get).counts kind then return ""
    let following ← renderChain rest
    return sequence kind (rest.head?.map Block.kind) own following

/-- The text of the chain in a slot. -/
def renderSlot (slot : String) : List (String × List Block) → StateM Run String
  | [] => return ""
  | (name, chain) :: slots => if name = slot then renderChain chain else renderSlot slot slots

/-- The texts of one slot of every block of a chain. The blocks themselves are not visited. -/
def renderItems (item : String) : List Block → StateM Run (List String)
  | [] => return []
  | .mk _ _ _ slots :: rest => do
    let text ← renderSlot item slots
    let texts ← renderItems item rest
    return text :: texts

/-- The texts of one slot of every block of the chain in a slot. -/
def renderItemsIn (slot item : String) : List (String × List Block) → StateM Run (List String)
  | [] => return []
  | (name, chain) :: slots =>
    if name = slot then renderItems item chain else renderItemsIn slot item slots

end

end Block

/-! ## Whole workspaces -/

namespace Root

/-- Whether the chain begins with a global name. -/
def isGlobal (root : Root) : Bool := root.head.kind = .globalName

/-- The line of a chain of the top level, if it has text. -/
def renderLine (root : Root) : StateM Run (List Line) := do
  let text ← Block.renderChain root.chain
  if text.isEmpty then return []
  return [⟨text, if root.head.kind = .process then .definition else .program⟩]

/-- The lines of chains of the top level. -/
def renderLines : List Root → StateM Run (List Line)
  | [] => return []
  | root :: roots => do
    let line ← root.renderLine
    let lines ← renderLines roots
    return line ++ lines

end Root

namespace Tree

/-- The chains of the top level in the order of the walk : global names come first, so that
they are visible everywhere. -/
def visitOrder (tree : Tree) : List Root :=
  tree.ordered.filter Root.isGlobal ++ tree.ordered.filter fun root => !root.isGlobal

/-- The lines of a workspace, and the scopes with a fresh active snapshot. -/
def generate (tree : Tree) (scopes : Scopes) : List Line × Scopes :=
  let (lines, run) := (Root.renderLines tree.visitOrder).run { scopes := scopes.begin }
  (lines, run.scopes)

end Tree

end PiBlocks
