import PiBlocks.Proofs.Block.Placement

/-!
# The walk with its visits

The walk of `PiBlocks.Program.Render` puts text together and changes scopes in one go, kind by
kind. Here it is told apart into what all kinds have in common. A visit follows a `Plan` : it
reads the slots of values, opens a scope if the kind has one, declares names, goes on with the
slots inside and closes the scope. The texts of the parts are then put together by `ownText`,
which looks at nothing else.

`traceBlock` walks by plans and notes a `Visit` for every block it comes to : where the block
stands, the state in which the walk came to it, and the text the block gave. The traced walk is
the walk (`run_renderBlock`, `run_renderChain`), and `Tree.visits` lists the visits of a pass.
-/

namespace PiBlocks

/-! ## Plans -/

/-- What a visit of a block does, in the order of the fields. -/
structure Plan where
  /-- the slot of a value read where the block stands -/
  first : Option String := none
  /-- the slot of another value -/
  second : Option String := none
  /-- a slot whose blocks each carry a value, and the slot of that value -/
  items : Option (String × String) := none
  /-- the scope that is opened -/
  scope : Option ScopeKind := none
  /-- the process the scope is the body of -/
  signs : Option String := none
  /-- the names declared next -/
  declared : List String := []
  /-- the slot of blocks that declare further names -/
  names : Option String := none
  /-- the slot of the chain inside -/
  body : Option String := none

namespace Plan

variable (fields : OrderedMap String) (slots : List (String × List Block))

/-- The names in the slot of a block that declares several. -/
def namesOf (slot : String) : List String :=
  Block.namesIn FieldName.new ((OrderedMap.get? slot slots).getD [])

/-- The plan of a block. -/
def ofBlock (kind : Kind) : Plan :=
  let field (name : String) : String := (OrderedMap.get? name fields).getD ""
  match kind with
  | .main => { scope := some .main, body := some SlotName.main }
  | .process => {
      scope := some .process
      signs := if (field FieldName.process).isEmpty then none else some (field FieldName.process)
      declared := namesOf slots SlotName.params
      body := some SlotName.body }
  | .call =>
    if Block.selectsNothing (field FieldName.processName) then {}
    else { items := some (SlotName.args, SlotName.arg) }
  | .parameter | .argument | .sendName | .reference | .termination => {}
  | .globalName | .restrictName | .receiveName => { declared := [field FieldName.new] }
  | .restrict =>
    if Block.selectsNothing (field FieldName.new) then {}
    else {
      scope := some .restrict
      declared := [field FieldName.new]
      body := some SlotName.scope }
  | .multiRestrict => {
      scope := some .multiRestrict
      names := some SlotName.names
      body := if (namesOf slots SlotName.names).isEmpty then none else some SlotName.scope }
  | .receive => {
      first := some SlotName.on
      scope := some .receive
      declared := [field FieldName.new]
      body := some SlotName.scope }
  | .multiReceive => {
      first := some SlotName.on
      scope := some .multiReceive
      names := some SlotName.names
      body := some SlotName.scope }
  | .guarded => {
      first := some SlotName.first
      second := some SlotName.second
      scope := some .guarded
      body := some SlotName.scope }
  | .parallelFork => { scope := some .parallelFork, body := some SlotName.parallel }
  | .choiceFork => { scope := some .choiceFork, body := some SlotName.choice }
  | .parallelBranch => { scope := some .parallelBranch, body := some SlotName.scope }
  | .choiceBranch => { scope := some .choiceBranch, body := some SlotName.scope }
  | .send => { first := some SlotName.on, second := some SlotName.message }
  | .multiSend => {
      first := some SlotName.on
      items := some (SlotName.messages, SlotName.message) }
  | .sync => { first := some SlotName.on }

variable (plan : Plan)

/-- Opens the scope of a visit and declares its names. -/
def enter (id : String) (scopes : Scopes) : Scopes :=
  match plan.scope, plan.signs with
  | none, _ => scopes.declareAll plan.declared
  | some kind, none => (scopes.enter id kind).declareAll plan.declared
  | some _, some name => scopes.register id name plan.declared

/-- Where the walk stands once the values are read. -/
def opened (kind : Kind) (id : String) (run : Run) : Run where
  scopes := plan.enter id run.scopes
  emitting := run.emitting || kind.opensGate
  branches := if kind.isFork then 0 :: run.branches else run.branches

/-- Where the walk stands at the end, given the text of the chain inside. -/
def closed (kind : Kind) (body : String) (run : Run) : Run where
  scopes := if plan.scope.isSome then run.scopes.leave else run.scopes
  emitting := run.emitting && !kind.opensGate
  branches :=
    if kind.isFork then run.branches.tail
    else if kind.isBranch && !Text.isBlank body then
      match run.branches with
      | [] => []
      | count :: outer => (count + 1) :: outer
    else run.branches

end Plan

/-! ## Texts -/

/-- The texts of the parts of a block. -/
structure Parts where
  first : String
  second : String
  items : List String
  body : String
  /-- the branches of a fork that have text -/
  count : Nat

/-- The own text of a block, put together from its parts. The scopes are those at its end. -/
def Parts.ownText (parts : Parts) (scopes : Scopes) (kind : Kind) (fields : OrderedMap String)
    (slots : List (String × List Block)) : String :=
  let field (name : String) : String := (OrderedMap.get? name fields).getD ""
  match kind with
  | .main => parts.body
  | .process =>
    Block.definitionText (field FieldName.process) (Plan.namesOf slots SlotName.params) parts.body
  | .call =>
    if Block.selectsNothing (field FieldName.processName) then ""
    else Block.callText (field FieldName.processName) parts.items
  | .parameter | .argument | .sendName => ""
  | .globalName | .restrictName | .receiveName => ""
  | .restrict =>
    if Block.selectsNothing (field FieldName.new) then ""
    else Block.continued ("$" ++ field FieldName.new) parts.body
  | .multiRestrict =>
    if (Plan.namesOf slots SlotName.names).isEmpty then ""
    else Block.continued
      (Text.join ". " ((Plan.namesOf slots SlotName.names).map fun name => "$" ++ name)) parts.body
  | .receive =>
    if (field FieldName.new).isEmpty || parts.first.isEmpty then ""
    else Block.continued (Block.receiveText parts.first (field FieldName.new)) parts.body
  | .multiReceive =>
    if parts.first.isEmpty || (Plan.namesOf slots SlotName.names).isEmpty then ""
    else Block.continued (Text.join ". "
      ((Plan.namesOf slots SlotName.names).map (Block.receiveText parts.first))) parts.body
  | .guarded =>
    Block.guardText parts.first ((OrderedMap.get? FieldName.operation fields).getD "=")
      parts.second parts.body
  | .parallelFork | .choiceFork => Block.forkText parts.count scopes.currentKind parts.body
  | .parallelBranch | .choiceBranch => if Text.isBlank parts.body then "" else parts.body
  | .send =>
    if parts.first.isEmpty || parts.second.isEmpty then ""
    else Block.sendText parts.first parts.second
  | .multiSend =>
    let messages := parts.items.filter fun message => !message.isEmpty
    if parts.first.isEmpty || messages.isEmpty then ""
    else Text.join ". " (messages.map (Block.sendText parts.first))
  | .sync => if parts.first.isEmpty then "" else Block.sendText parts.first parts.first
  | .reference =>
    if (field FieldName.name).isEmpty || !scopes.isVisible (field FieldName.name) then ""
    else field FieldName.name
  | .termination => "0"

/-! ## The traced walk -/

/-- A block the walk has come to. -/
structure Visit where
  site : Site
  /-- where the walk stood when it came to the block -/
  run : Run
  /-- the own text of the block -/
  text : String

/-- The outcome of a part of the walk. -/
structure Traced (α : Type) where
  value : α
  /-- where the walk stands afterwards -/
  run : Run
  /-- the blocks it has come to, in order -/
  visits : List Visit

namespace Block

mutual

/-- The walk over one block. The trail leads back from it. -/
def traceBlock (trail : List Step) (followers : List Block) : Block → Run → Traced String
  | .mk id kind fields slots, run =>
    let site : Site := ⟨.mk id kind fields slots, followers, trail⟩
    if !run.counts kind then ⟨"", run, [⟨site, run, ""⟩]⟩
    else
      let plan := Plan.ofBlock fields slots kind
      let below := .owner (.mk id kind fields slots) :: trail
      let first := traceSlot below plan.first slots run
      let second := traceSlot below plan.second slots first.run
      let items := traceItemsIn below plan.items slots second.run
      let names := traceSlot below plan.names slots (plan.opened kind id items.run)
      let body := traceSlot below plan.body slots names.run
      let ended := plan.closed kind body.value body.run
      let parts : Parts :=
        ⟨first.value, second.value, items.value, body.value, body.run.branches.headD 0⟩
      let text := parts.ownText ended.scopes kind fields slots
      ⟨text, ended, ⟨site, run, text⟩ ::
        (first.visits ++ second.visits ++ items.visits ++ names.visits ++ body.visits)⟩

/-- The walk over a chain. -/
def traceChain (trail : List Step) : List Block → Run → Traced String
  | [], run => ⟨"", run, []⟩
  | .mk id kind fields slots :: rest, run =>
    let own := traceBlock trail rest (.mk id kind fields slots) run
    if !own.run.counts kind then ⟨"", own.run, own.visits⟩
    else
      let following := traceChain (.previous (.mk id kind fields slots) :: trail) rest own.run
      ⟨sequence kind (rest.head?.map Block.kind) own.value following.value, following.run,
        own.visits ++ following.visits⟩

/-- The walk over the chain in a slot. -/
def traceSlot (trail : List Step) (slot : Option String) :
    List (String × List Block) → Run → Traced String
  | [], run => ⟨"", run, []⟩
  | (name, chain) :: slots, run =>
    if some name = slot then traceChain trail chain run else traceSlot trail slot slots run

/-- The walk over one slot of every block of a chain. -/
def traceItems (trail : List Step) (item : String) :
    List Block → Run → Traced (List String)
  | [], run => ⟨[], run, []⟩
  | .mk id kind fields slots :: rest, run =>
    let own := traceSlot (.owner (.mk id kind fields slots) :: trail) (some item) slots run
    let following := traceItems (.previous (.mk id kind fields slots) :: trail) item rest own.run
    ⟨own.value :: following.value, following.run, own.visits ++ following.visits⟩

/-- The walk over one slot of every block of the chain in a slot. -/
def traceItemsIn (trail : List Step) (items : Option (String × String)) :
    List (String × List Block) → Run → Traced (List String)
  | [], run => ⟨[], run, []⟩
  | (name, chain) :: slots, run =>
    if some name = items.map Prod.fst then
      traceItems trail ((items.map Prod.snd).getD "") chain run
    else traceItemsIn trail items slots run

end

theorem traceBlock_of_not_counts {trail followers block run} (h : run.counts (kind block) = false) :
    traceBlock trail followers block run = ⟨"", run, [⟨⟨block, followers, trail⟩, run, ""⟩]⟩ := by
  obtain ⟨id, kind, fields, slots⟩ := block
  rw [kind_mk] at h
  simp [traceBlock, h]

/-- A block that does not count ends the chain, and only that block is visited. -/
theorem traceChain_of_not_counts {trail block rest run} (h : run.counts (kind block) = false) :
    traceChain trail (block :: rest) run = ⟨"", run, [⟨⟨block, rest, trail⟩, run, ""⟩]⟩ := by
  obtain ⟨id, kind, fields, slots⟩ := block
  rw [kind_mk] at h
  simp [traceChain, traceBlock, h]

theorem traceChain_singleton (trail block run) : traceChain trail [block] run =
    ⟨(traceChain trail [block] run).value, (traceBlock trail [] block run).run,
      (traceBlock trail [] block run).visits⟩ := by
  obtain ⟨id, kind, fields, slots⟩ := block
  by_cases h : (traceBlock trail [] (.mk id kind fields slots) run).run.counts kind = true <;>
    simp [traceChain, h]

theorem value_traceChain_singleton {trail block run}
    (h : (traceBlock trail [] block run).run.counts (kind block) = true) :
    (traceChain trail [block] run).value = (traceBlock trail [] block run).value := by
  obtain ⟨id, kind, fields, slots⟩ := block
  rw [kind_mk] at h
  simp [traceChain, h, sequence]

/-! ## The traced walk is the walk -/

section Slots

variable (slot item : String)

theorem renderSlot_eq (slots : List (String × List Block)) : renderSlot slot slots =
    renderChain ((OrderedMap.get? slot slots).getD []) := by
  induction slots with
  | nil => simp [renderSlot, OrderedMap.get?, renderChain]
  | cons entry slots ih =>
    by_cases h : entry.1 = slot <;> simp [renderSlot, OrderedMap.get?, h, ih]

theorem renderItemsIn_eq (slots : List (String × List Block)) : renderItemsIn slot item slots =
    renderItems item ((OrderedMap.get? slot slots).getD []) := by
  induction slots with
  | nil => simp [renderItemsIn, OrderedMap.get?, renderItems]
  | cons entry slots ih =>
    by_cases h : entry.1 = slot <;> simp [renderItemsIn, OrderedMap.get?, h, ih]

variable (trail : List Step) (run : Run)

variable (slots : List (String × List Block))

@[simp] theorem traceSlot_some : traceSlot trail (some slot) slots run =
    traceChain trail ((OrderedMap.get? slot slots).getD []) run := by
  induction slots with
  | nil => simp [traceSlot, OrderedMap.get?, traceChain]
  | cons entry slots ih =>
    by_cases h : entry.1 = slot <;> simp [traceSlot, OrderedMap.get?, h, ih]

@[simp] theorem traceSlot_none : traceSlot trail none slots run = ⟨"", run, []⟩ := by
  induction slots with
  | nil => simp [traceSlot]
  | cons _ _ ih => simp [traceSlot, ih]

@[simp] theorem traceItemsIn_some : traceItemsIn trail (some (slot, item)) slots run =
    traceItems trail item ((OrderedMap.get? slot slots).getD []) run := by
  induction slots with
  | nil => simp [traceItemsIn, OrderedMap.get?, traceItems]
  | cons entry slots ih =>
    by_cases h : entry.1 = slot <;> simp [traceItemsIn, OrderedMap.get?, h, ih]

@[simp] theorem traceItemsIn_none : traceItemsIn trail none slots run = ⟨[], run, []⟩ := by
  induction slots with
  | nil => simp [traceItemsIn]
  | cons _ _ ih => simp [traceItemsIn, ih]

end Slots

section Steps

variable (run : Run)

@[simp] theorem run_changeScopes (change : Scopes → Scopes) :
    (Run.changeScopes change).run run = pure ((), { run with scopes := change run.scopes }) :=
  rfl

@[simp] theorem run_setEmitting (emitting : Bool) :
    (Run.setEmitting emitting).run run = pure ((), { run with emitting := emitting }) :=
  rfl

@[simp] theorem run_beginFork :
    Run.beginFork.run run = pure ((), { run with branches := 0 :: run.branches }) :=
  rfl

@[simp] theorem run_endFork : Run.endFork.run run =
    pure (run.branches.headD 0, { run with branches := run.branches.tail }) :=
  rfl

@[simp] theorem run_countBranch : Run.countBranch.run run =
    pure ((), { run with branches := match run.branches with
      | [] => []
      | count :: outer => (count + 1) :: outer }) :=
  rfl

end Steps

/-- The walk over a block is the traced one, whatever the trail. -/
def Traces (block : Block) : Prop :=
  ∀ trail followers run, (renderBlock block).run run =
    pure ((traceBlock trail followers block run).value, (traceBlock trail followers block run).run)

theorem run_chain_of_traces {chain : List Block} (h : ∀ block ∈ chain, Traces block) (trail run) :
    (renderChain chain).run run =
      pure ((traceChain trail chain run).value, (traceChain trail chain run).run) := by
  induction chain generalizing trail run with
  | nil => simp [renderChain, traceChain]
  | cons block rest ih =>
    obtain ⟨id, kind, fields, slots⟩ := block
    have hown := h _ List.mem_cons_self trail rest run
    have hrest := ih (fun block hb => h block (List.mem_cons_of_mem _ hb))
      (.previous (.mk id kind fields slots) :: trail)
    by_cases hc : (traceBlock trail rest (.mk id kind fields slots) run).run.counts kind <;>
      simp [renderChain, traceChain, hown, hrest, hc]

theorem run_items_of_traces (item : String) {chain : List Block}
    (h : ∀ block ∈ chain, ∀ slot ∈ block.slots, ∀ inner ∈ slot.2, Traces inner) (trail run) :
    (renderItems item chain).run run =
      pure ((traceItems trail item chain run).value, (traceItems trail item chain run).run) := by
  induction chain generalizing trail run with
  | nil => simp [renderItems, traceItems]
  | cons block rest ih =>
    obtain ⟨id, kind, fields, slots⟩ := block
    have hslots : ∀ slot ∈ slots, ∀ inner ∈ slot.2, Traces inner := h _ List.mem_cons_self
    have hown := run_chain_of_traces (forall_mem_slot hslots item)
      (.owner (.mk id kind fields slots) :: trail)
    have hrest := ih (fun block hb => h block (List.mem_cons_of_mem _ hb))
      (.previous (.mk id kind fields slots) :: trail)
    simp [renderItems, traceItems, renderSlot_eq, hown, hrest]

section Kinds

attribute [local simp] renderBlock traceBlock Plan.ofBlock Plan.opened Plan.closed Plan.enter
  Plan.namesOf Parts.ownText renderSlot_eq renderItemsIn_eq Scopes.register Scopes.declareAll
  Kind.opensGate Kind.isFork Kind.isBranch

theorem traces (block : Block) :
    Traces block ∧ ∀ slot ∈ block.slots, ∀ inner ∈ slot.2, Traces inner := by
  induction block using Block.induction with
  | mk id kind fields slots ih =>
    have inner : ∀ slot ∈ slots, ∀ block ∈ slot.2, Traces block :=
      fun slot hs block hb => (ih slot hs block hb).1
    refine ⟨fun trail followers run => ?_, inner⟩
    -- the slots are read below the block, whatever its kind
    have hslot := fun slot => run_chain_of_traces (forall_mem_slot inner slot)
      (.owner (.mk id kind fields slots) :: trail)
    have hitems := fun slot item => run_items_of_traces item
      (forall_mem_slot (fun s hs block hb => (ih s hs block hb).2) slot)
      (.owner (.mk id kind fields slots) :: trail)
    by_cases hc : run.counts kind
    · cases kind with
      | process =>
        by_cases h : (OrderedMap.get? FieldName.process fields).getD "" = "" <;> simp [hc, hslot, h]
      | call =>
        by_cases h : selectsNothing ((OrderedMap.get? FieldName.processName fields).getD "") <;>
          simp [hc, hitems, h]
      | restrict =>
        by_cases h : selectsNothing ((OrderedMap.get? FieldName.new fields).getD "") <;>
          simp [hc, hslot, h]
      | multiRestrict =>
        by_cases h : namesIn FieldName.new ((OrderedMap.get? SlotName.names slots).getD []) = [] <;>
          simp [hc, hslot, h]
      | parallelBranch | choiceBranch =>
        simp [hc, hslot]
        split_ifs <;> simp_all
      | receive | multiReceive | send | multiSend | sync | reference =>
        simp [hc, hslot, hitems]
        split_ifs <;> rfl
      | _ => simp [hc, hslot]
    · simp [hc]

end Kinds

/-- The traced walk over a block gives its text and leads where the walk leads. -/
theorem run_renderBlock (block : Block) (trail followers run) :
    (renderBlock block).run run =
      ((traceBlock trail followers block run).value, (traceBlock trail followers block run).run) :=
  (traces block).1 trail followers run

/-- The traced walk over a chain gives its text and leads where the walk leads. -/
theorem run_renderChain (chain : List Block) (trail run) :
    (renderChain chain).run run =
      ((traceChain trail chain run).value, (traceChain trail chain run).run) :=
  run_chain_of_traces (fun block _ => (traces block).1) trail run

end Block

/-! ## Visits of a pass -/

namespace Root

/-- The line a chain of the top level gives for its text. -/
def lineOf (root : Root) (text : String) : List Line :=
  if text.isEmpty then []
  else [⟨text, if root.head.kind = .process then .definition else .program⟩]

/-- The walk over chains of the top level. -/
def traceRoots : List Root → Run → Traced (List Line)
  | [], run => ⟨[], run, []⟩
  | root :: roots, run =>
    let own := Block.traceChain [] root.chain run
    let following := traceRoots roots own.run
    ⟨root.lineOf own.value ++ following.value, following.run, own.visits ++ following.visits⟩

theorem visits_traceRoots_append : ∀ roots more run, (traceRoots (roots ++ more) run).visits =
    (traceRoots roots run).visits ++ (traceRoots more (traceRoots roots run).run).visits
  | [], more, run => rfl
  | root :: roots, more, run => by
    simp only [List.cons_append, traceRoots, visits_traceRoots_append roots, List.append_assoc]

theorem run_renderLines : ∀ roots run,
    (renderLines roots).run run = ((traceRoots roots run).value, (traceRoots roots run).run)
  | [], run => rfl
  | root :: roots, run => by
    have hown : (Block.renderChain root.chain).run run = pure _ :=
      Block.run_renderChain root.chain [] run
    have hrest : ∀ run, (renderLines roots).run run = pure _ := run_renderLines roots
    change _ = pure (_, _)
    by_cases h : (Block.traceChain [] root.chain run).value = "" <;>
      simp [renderLines, renderLine, traceRoots, lineOf, hown, hrest, h]

end Root

namespace Tree

/-- The walk of a pass. -/
def trace (tree : Tree) (scopes : Scopes) : Traced (List Line) :=
  Root.traceRoots tree.visitOrder { scopes := scopes.begin }

/-- The blocks that the walk of a pass comes to, in order. -/
def visits (tree : Tree) (scopes : Scopes) : List Visit := (tree.trace scopes).visits

/-- A pass generates the lines of the traced walk and commits the scopes it ends with. -/
theorem generate_eq (tree : Tree) (scopes : Scopes) :
    tree.generate scopes = ((tree.trace scopes).value, (tree.trace scopes).run.scopes) := by
  simp only [generate, trace, Root.run_renderLines]

end Tree

end PiBlocks
