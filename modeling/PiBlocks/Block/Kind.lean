/-!
# Kinds of blocks and scopes

Every block of a workspace is of one `Kind`. The kind decides which scope a visit of the
block opens (`Kind.scope?`), whether the block counts outside of programs and definitions
(`Kind.bypassesGate`) and whether a stop follows its text when another block comes next
(`Kind.needsStop`). `Kind.all` lists the kinds in the order in which messages name them,
and `Kind.typeName` is the name an editor saves.
-/

namespace PiBlocks

/-- The kinds of blocks. -/
inductive Kind where
  | main
  | process
  | call
  | parameter
  | argument
  | restrict
  | multiRestrict
  | restrictName
  | receive
  | multiReceive
  | receiveName
  | guarded
  | parallelFork
  | parallelBranch
  | choiceFork
  | choiceBranch
  | send
  | multiSend
  | sendName
  | sync
  | globalName
  | reference
  | termination
deriving DecidableEq, Repr

/-- The kinds of scopes. -/
inductive ScopeKind where
  | global
  | main
  | process
  | restrict
  | multiRestrict
  | receive
  | multiReceive
  | guarded
  | parallelFork
  | parallelBranch
  | choiceFork
  | choiceBranch
deriving DecidableEq, Repr

namespace Kind

/-- All kinds in order. -/
def all : List Kind := [
  .main, .process, .call, .parameter, .argument, .restrict, .multiRestrict, .restrictName,
  .receive, .multiReceive, .receiveName, .guarded, .parallelFork, .parallelBranch, .choiceFork,
  .choiceBranch, .send, .multiSend, .sendName, .sync, .globalName, .reference, .termination]

/-- The saved name of a kind. -/
def typeName : Kind → String
  | .main => "MainBlock"
  | .process => "ProcessBlock"
  | .call => "ProcessCallBlock"
  | .parameter => "ProcessParamBlock"
  | .argument => "ProcessArgBlock"
  | .restrict => "RestrictScopeBlock"
  | .multiRestrict => "MultiRestrictScopeBlock"
  | .restrictName => "RestrictNameBlock"
  | .receive => "ReceiveScopeBlock"
  | .multiReceive => "MultiReceiveScopeBlock"
  | .receiveName => "ReceiveNameBlock"
  | .guarded => "GuardScopeBlock"
  | .parallelFork => "ParallelParentBlock"
  | .parallelBranch => "ParallelScopeBlock"
  | .choiceFork => "ChoiceParentBlock"
  | .choiceBranch => "ChoiceScopeBlock"
  | .send => "SendBlock"
  | .multiSend => "MultiSendBlock"
  | .sendName => "SendNameBlock"
  | .sync => "SyncBlock"
  | .globalName => "GlobalNameBlock"
  | .reference => "NameAccessBlock"
  | .termination => "TerminationBlock"

/-- The kinds under their saved names. -/
def named : List (String × Kind) := all.map fun kind => (kind.typeName, kind)

/-- The scope a visit of such a block opens. -/
def scope? : Kind → Option ScopeKind
  | .main => some .main
  | .process => some .process
  | .restrict => some .restrict
  | .multiRestrict => some .multiRestrict
  | .receive => some .receive
  | .multiReceive => some .multiReceive
  | .guarded => some .guarded
  | .parallelFork => some .parallelFork
  | .parallelBranch => some .parallelBranch
  | .choiceFork => some .choiceFork
  | .choiceBranch => some .choiceBranch
  | _ => none

/-- Whether a visit of such a block opens a scope. -/
def opensScope (kind : Kind) : Bool := kind.scope?.isSome

/-- Whether text is generated inside such a block and nowhere else. -/
def opensGate (kind : Kind) : Bool := kind = .main || kind = .process

/-- Whether such a block counts outside of programs and definitions. -/
def bypassesGate (kind : Kind) : Bool :=
  kind = .main || kind = .process || kind = .globalName

/-- Whether a full stop separates the text of such a block from that of the next one. -/
def needsStop : Kind → Bool
  | .send | .sync | .multiSend | .receive | .multiReceive | .restrict | .multiRestrict
  | .guarded | .termination => true
  | _ => false

theorem mem_all (kind : Kind) : kind ∈ all := by
  cases kind <;> decide

end Kind

namespace ScopeKind

/-- All kinds of scopes in order. -/
def all : List ScopeKind := [
  .global, .main, .process, .restrict, .multiRestrict, .receive, .multiReceive, .guarded,
  .parallelFork, .parallelBranch, .choiceFork, .choiceBranch]

/-- The saved name of a kind of scope. -/
def typeName : ScopeKind → String
  | .global => "global"
  | .main => "MainBlock"
  | .process => "ProcessBlock"
  | .restrict => "RestrictScopeBlock"
  | .multiRestrict => "MultiRestrictScopeBlock"
  | .receive => "ReceiveScopeBlock"
  | .multiReceive => "MultiReceiveScopeBlock"
  | .guarded => "GuardScopeBlock"
  | .parallelFork => "ParallelParentBlock"
  | .parallelBranch => "ParallelScopeBlock"
  | .choiceFork => "ChoiceParentBlock"
  | .choiceBranch => "ChoiceScopeBlock"

/-- The kinds of scopes under their saved names. -/
def named : List (String × ScopeKind) := all.map fun kind => (kind.typeName, kind)

/-- Whether the scope is the body of the program or of a definition. -/
def isBody (kind : ScopeKind) : Bool := kind = .main || kind = .process

theorem mem_all (kind : ScopeKind) : kind ∈ all := by
  cases kind <;> decide

end ScopeKind

/-! ## Names of fields and slots -/

namespace FieldName

/-- The identifier a block declares. -/
def new : String := "NEW"

/-- The identifier a reference selects. -/
def name : String := "NAME"

/-- The name of a process definition. -/
def process : String := "PROCESS"

/-- The process a call selects. -/
def processName : String := "PROCESS_NAME"

/-- The comparison of a guard. -/
def operation : String := "OPERATION"

end FieldName

namespace SlotName

/-- The chain of a main program. -/
def main : String := "MAIN"

/-- The parameters of a definition. -/
def params : String := "PARAMS"

/-- The chain of a definition. -/
def body : String := "BODY"

/-- The arguments of a call. -/
def args : String := "ARGS"

/-- The name an argument passes. -/
def arg : String := "ARG"

/-- The chain a prefix continues with, or a branch holds. -/
def scope : String := "SCOPE"

/-- The names a block with several of them declares. -/
def names : String := "NAMES"

/-- The channel. -/
def on : String := "ON"

/-- The name that is sent. -/
def message : String := "MESSAGE"

/-- The names that are sent one after the other. -/
def messages : String := "MESSAGES"

/-- The left side of a guard. -/
def first : String := "FIRST"

/-- The right side of a guard. -/
def second : String := "SECOND"

/-- The branches that run side by side. -/
def parallel : String := "PARALLEL"

/-- The branches one of which runs. -/
def choice : String := "CHOICE"

end SlotName

/-- What a selection field holds while nothing valid is selected. It is never declared. -/
def unresolved : String := "__VISPI_INVALID_NAME__"

end PiBlocks
