import PiBlocks.Program.Pass
import PiBlocks.Proofs.Scope.Tree
import PiBlocks.Proofs.Walk.Trace

/-!
# Scopes of the walk

A pass over a well-placed tree commits what the tree says about names, and nothing else
(`Tree.committed_pass`), as long as no two ids have the same key. The walk only ever writes into
the innermost open scope. Where that is, and what stands around it, is a `Standing`, and
`Run.At` says that a run stands there and that the keys still to come are new in the innermost
scope.

A term leads from a place to the place past it (`Block.walked`) : its values are read where it
stands, its scope is entered, its names are declared, the chain inside is walked, and the scope
is left with everything in it. That is an induction along the chains inside
(`Block.body_induction`). The chains of the top level follow one after the other
(`Root.walked_roots`), and the place past all of them holds the snapshot of the tree.

A restriction that selects no name has no scope, though its kind has one
(`Tree.no_scope_of_restricting_nothing`).
-/

namespace PiBlocks

/-! ## Heads of blocks -/

/-- In the head of a block are the slots of values and the slot of names. -/
theorem Plan.head_slots (fields : OrderedMap String) (slots : List (String × List Block))
    (kind : Kind) : (∀ slot ∈ (ofBlock fields slots kind).first, slot ∈ SlotName.values) ∧
      (∀ slot ∈ (ofBlock fields slots kind).second, slot ∈ SlotName.values) ∧
      (∀ items ∈ (ofBlock fields slots kind).items, items.2 ∈ SlotName.values) ∧
      ∀ slot ∈ (ofBlock fields slots kind).names, slot = SlotName.names := by
  cases kind <;> simp only [ofBlock] <;> (try split_ifs) <;> simp [SlotName.values]

namespace Block

variable {block : Block} {slot : String}

theorem kind_of_mem_values (placed : block.wellPlaced = true) (hslot : slot ∈ SlotName.values)
    {inner : Block} (hinner : inner ∈ block.chain slot) : inner.kind = .reference := by
  simpa [SlotName.admits_of_mem_values hslot] using admits_of_mem placed hinner

/-- A reference leaves the walk where it stands. -/
theorem run_reference (trail followers) {block : Block} (h : block.kind = .reference) (run : Run) :
    (traceBlock trail followers block run).run = run := by
  obtain ⟨id, kind, fields, slots⟩ := block
  obtain rfl : kind = .reference := h
  by_cases hc : run.counts .reference = true <;>
    simp [traceBlock, hc, Plan.ofBlock, Plan.opened, Plan.closed, Plan.enter, Scopes.declareAll,
      Kind.isFork, Kind.isBranch, Kind.opensGate]

theorem run_references (trail run) : ∀ {chain : List Block},
    (∀ block ∈ chain, block.kind = .reference) → (traceChain trail chain run).run = run
  | [], _ => by simp [traceChain]
  | .mk id kind fields slots :: rest, h => by
    have hown := run_reference trail rest (h _ List.mem_cons_self) run
    have hrest := run_references (.previous (.mk id kind fields slots) :: trail) run
      fun block hb => h block (List.mem_cons_of_mem _ hb)
    rw [traceChain, hown]
    split_ifs <;> simp [hrest]

theorem run_value (trail run) (placed : block.wellPlaced = true) {slot : Option String}
    (hslot : ∀ name ∈ slot, name ∈ SlotName.values) :
    (traceSlot trail slot block.slots run).run = run := by
  cases slot with
  | none => simp
  | some slot =>
    rw [traceSlot_some]
    exact run_references trail run fun inner => kind_of_mem_values placed (hslot slot rfl)

theorem run_items (item : String) (hitem : item ∈ SlotName.values) (run) :
    ∀ (trail) {chain : List Block}, (∀ block ∈ chain, block.wellPlaced = true) →
      (traceItems trail item chain run).run = run
  | trail, [], _ => by simp [traceItems]
  | trail, .mk id kind fields slots :: rest, placed => by
    have hown : (traceSlot (.owner (.mk id kind fields slots) :: trail) (some item) slots run).run =
        run := run_value _ run (placed _ List.mem_cons_self) (by simpa using hitem)
    have hrest := run_items item hitem run (.previous (.mk id kind fields slots) :: trail)
      fun block hb => placed block (List.mem_cons_of_mem _ hb)
    simp only [traceItems, hown, hrest]

theorem run_itemsIn (trail run) (placed : block.wellPlaced = true)
    {items : Option (String × String)} (hitems : ∀ pair ∈ items, pair.2 ∈ SlotName.values) :
    (traceItemsIn trail items block.slots run).run = run := by
  cases items with
  | none => simp
  | some pair =>
    obtain ⟨slot, item⟩ := pair
    rw [traceItemsIn_some]
    exact run_items item (hitems _ rfl) run trail fun inner => wellPlaced_of_mem placed

/-- A chain of names declares them one after the other. -/
theorem run_names : ∀ (trail) (chain : List Block) (run : Run),
    (∀ block ∈ chain, block.kind.isName = true ∧ run.counts block.kind = true) →
      (traceChain trail chain run).run =
        { run with scopes := run.scopes.declareAll (chain.map (·.field FieldName.new)) }
  | trail, [], run, _ => by simp [traceChain, Scopes.declareAll]
  | trail, .mk id kind fields slots :: rest, run, h => by
    obtain ⟨hname, hcounts⟩ := h _ List.mem_cons_self
    have hown : (traceBlock trail rest (.mk id kind fields slots) run).run = { run with
        scopes := run.scopes.declare ((Block.mk id kind fields slots).field FieldName.new) } := by
      rw [kind_mk] at hname hcounts
      simp only [Kind.isName, Bool.or_eq_true, decide_eq_true_eq] at hname
      rcases hname with (rfl | rfl) | rfl <;>
        simp [traceBlock, hcounts, Plan.ofBlock, Plan.opened, Plan.closed, Plan.enter,
          Scopes.declareAll, Kind.isFork, Kind.isBranch, Kind.opensGate, field_mk]
    have hrest := run_names (.previous (.mk id kind fields slots) :: trail) rest
      { run with
        scopes := run.scopes.declare ((Block.mk id kind fields slots).field FieldName.new) }
      fun block hb => h block (List.mem_cons_of_mem _ hb)
    have hstill : Run.counts kind { run with
        scopes := run.scopes.declare ((Block.mk id kind fields slots).field FieldName.new) } =
          true := hcounts
    rw [traceChain, hown, hstill]
    simp only [Bool.not_true, Bool.false_eq_true, if_false, hrest]
    rfl

/-! ## One visit -/

/-- The plan of a block. -/
def plan (block : Block) : Plan := Plan.ofBlock block.fields block.slots block.kind

/-- The values of the names in a slot. -/
def newNames (block : Block) (slot : Option String) : List String :=
  (slot.map fun slot => (block.chain slot).map (·.field FieldName.new)).getD []

/-- Where the walk stands when it comes to the chain inside of a block : values have been read,
the scope has been opened and the names have been declared. -/
def start (block : Block) (run : Run) : Run :=
  let opened := block.plan.opened block.kind block.id run
  { opened with scopes := opened.scopes.declareAll (block.newNames block.plan.names) }

/-- The walk over the chain inside of a block. -/
def walkInside (trail : List Step) (block : Block) (run : Run) : Traced String :=
  traceChain (.owner block :: trail) block.body (block.start run)

theorem run_namesSlot (trail) (placed : block.wellPlaced = true) {run : Run}
    (hemitting : run.emitting = true) {slot : Option String}
    (hslot : ∀ name ∈ slot, name = SlotName.names) :
    (traceSlot trail slot block.slots run).run =
      { run with scopes := run.scopes.declareAll (block.newNames slot) } := by
  cases slot with
  | none => simp [Scopes.declareAll, newNames]
  | some slot =>
    obtain rfl : slot = SlotName.names := hslot slot rfl
    rw [traceSlot_some]
    refine run_names trail _ _ fun inner hinner => ⟨?_, by simp [Run.counts, hemitting]⟩
    have hkind := admits_of_mem placed hinner
    rw [SlotName.admits_names, Bool.or_eq_true, decide_eq_true_eq, decide_eq_true_eq] at hkind
    rcases hkind with h | h <;> simp [Kind.isName, h]

/-- A term counts inside of a program or definition, and opens the gate otherwise. -/
theorem emitting_opened {run : Run} (hterm : block.kind.isTerm = true)
    (hcounts : run.counts block.kind = true) :
    (block.plan.opened block.kind block.id run).emitting = true := by
  obtain ⟨id, kind, fields, slots⟩ := block
  cases kind <;> simp_all [Plan.opened, Run.counts, Kind.isTerm, Kind.isStatement, Kind.isBranch,
    Kind.opensGate, Kind.bypassesGate]

theorem traceSlot_body (trail) (block : Block) (run) :
    traceSlot trail block.plan.body block.slots run = traceChain trail block.body run := by
  obtain ⟨id, kind, fields, slots⟩ := block
  cases kind <;> simp only [plan, Plan.ofBlock, kind_mk, fields_mk, slots_mk] <;>
    (try split_ifs) <;>
    simp_all [body, skipsBody, Kind.bodySlot, field_mk, chain_mk, Plan.namesOf, traceChain]

/-- The texts of the parts of a term : its values are read where it stands. -/
def parts (trail : List Step) (block : Block) (run : Run) : Parts where
  first := (traceSlot (.owner block :: trail) block.plan.first block.slots run).value
  second := (traceSlot (.owner block :: trail) block.plan.second block.slots run).value
  items := (traceItemsIn (.owner block :: trail) block.plan.items block.slots run).value
  body := (block.walkInside trail run).value
  count := (block.walkInside trail run).run.branches.headD 0

/-- Where the walk stands after a term, with its scope closed. -/
def finish (trail : List Step) (block : Block) (run : Run) : Run :=
  block.plan.closed block.kind (block.walkInside trail run).value (block.walkInside trail run).run

/-- The own text of a term. -/
def ownText (trail : List Step) (block : Block) (run : Run) : String :=
  (block.parts trail run).ownText (block.finish trail run).scopes block.kind block.fields
    block.slots

/-- The walk over a term : the values are read where it stands, then the names are declared and
the chain inside is walked. -/
theorem traceBlock_eq (trail followers) {run : Run} (placed : block.wellPlaced = true)
    (hterm : block.kind.isTerm = true) (hcounts : run.counts block.kind = true) :
    traceBlock trail followers block run =
      ⟨block.ownText trail run, block.finish trail run,
        ⟨⟨block, followers, trail⟩, run, block.ownText trail run⟩ ::
          ((traceSlot (.owner block :: trail) block.plan.first block.slots run).visits ++
          (traceSlot (.owner block :: trail) block.plan.second block.slots run).visits ++
          (traceItemsIn (.owner block :: trail) block.plan.items block.slots run).visits ++
          (traceSlot (.owner block :: trail) block.plan.names block.slots
            (block.plan.opened block.kind block.id run)).visits ++
          (block.walkInside trail run).visits)⟩ := by
  have hemitting := emitting_opened hterm hcounts
  have hbody : traceSlot (.owner block :: trail) block.plan.body block.slots (block.start run) =
      block.walkInside trail run := traceSlot_body _ block _
  rw [ownText, finish, parts]
  obtain ⟨id, kind, fields, slots⟩ := block
  obtain ⟨hfirst, hsecond, hitems, hnames⟩ := Plan.head_slots fields slots kind
  have hfirst (below) : (traceSlot below (Plan.ofBlock fields slots kind).first slots run).run =
      run := run_value below run placed hfirst
  have hsecond (below) : (traceSlot below (Plan.ofBlock fields slots kind).second slots run).run =
      run := run_value below run placed hsecond
  have hitems (below) : (traceItemsIn below (Plan.ofBlock fields slots kind).items slots run).run =
      run := run_itemsIn below run placed hitems
  have hnames (below) : (traceSlot below (Plan.ofBlock fields slots kind).names slots
      ((Plan.ofBlock fields slots kind).opened kind id run)).run =
        (Block.mk id kind fields slots).start run := run_namesSlot below placed hemitting hnames
  change traceSlot _ (Plan.ofBlock fields slots kind).body slots _ = _ at hbody
  rw [kind_mk] at hcounts
  simp only [traceBlock, hcounts, Bool.not_true, Bool.false_eq_true, if_false, hfirst, hsecond,
    hitems, hnames, hbody]
  rfl

/-- After a term, the walk stands where the chain inside has led to, with the scope closed. -/
theorem run_traceBlock (trail followers) {run : Run} (placed : block.wellPlaced = true)
    (hterm : block.kind.isTerm = true) (hcounts : run.counts block.kind = true) :
    (traceBlock trail followers block run).run =
      block.plan.closed block.kind (block.walkInside trail run).value
        (block.walkInside trail run).run := by
  rw [traceBlock_eq trail followers placed hterm hcounts]
  rfl

/-- The text of a term is put together from those of its parts. -/
theorem value_traceBlock (trail followers) {run : Run} (placed : block.wellPlaced = true)
    (hterm : block.kind.isTerm = true) (hcounts : run.counts block.kind = true) :
    (traceBlock trail followers block run).value = (block.parts trail run).ownText
      (block.finish trail run).scopes block.kind block.fields block.slots := by
  rw [traceBlock_eq trail followers placed hterm hcounts]
  rfl

/-! ## Scopes of a visit -/

end Block

/-- The snapshot with the signature of a block, if the block is a definition with a name. -/
def Snapshot.signing (base : Snapshot) (block : Block) : Snapshot := { base with
  processes :=
    if block.isDefinition then base.processes.insert block.signature.1 block.signature.2
    else base.processes }

/-- What a snapshot notes about a block besides its scope. -/
def Snapshot.noting (base : Snapshot) (block : Block) : Snapshot := { base.signing block with
  declaredMain := base.declaredMain || decide (block.kind = .main) }

namespace Block

variable {block : Block} {base committed : Snapshot} {key : String} {scope : Scope}
  {outer : List Frame} {run : Run}

theorem plan_scope (block : Block) : block.plan.scope = block.scope? := by
  obtain ⟨id, kind, fields, slots⟩ := block
  cases kind <;> simp only [plan, Plan.ofBlock, kind_mk, fields_mk, slots_mk] <;>
    (try split_ifs) <;> simp_all [scope?, Kind.scope?, field_mk]

theorem body_of_scope?_eq_none (h : block.scope? = none) : block.body = [] := by
  obtain ⟨id, kind, fields, slots⟩ := block
  cases kind <;> simp_all [scope?, Kind.scope?, body, skipsBody, Kind.bodySlot]

/-- A term without a scope declares nothing. -/
theorem plan_of_none (hterm : block.kind.isTerm = true) (h : block.scope? = none) :
    block.plan.declared = [] ∧ block.plan.names = none := by
  obtain ⟨id, kind, fields, slots⟩ := block
  cases kind <;> simp only [scope?, Kind.scope?, kind_mk] at h <;> (try split_ifs at h) <;>
    simp only [plan, Plan.ofBlock, kind_mk, fields_mk, slots_mk] <;> (try split_ifs) <;>
    simp_all [Kind.isTerm, Kind.isStatement, Kind.isBranch, Kind.opensGate, field_mk]

theorem scopes_start_of_none (hterm : block.kind.isTerm = true) (h : block.scope? = none) :
    (block.start run).scopes = run.scopes := by
  obtain ⟨hdeclared, hnames⟩ := plan_of_none hterm h
  have hscope := block.plan_scope.trans h
  simp [start, Plan.opened, Plan.enter, hscope, hdeclared, hnames, newNames, Scopes.declareAll]

theorem declarable_map_field (chain : List Block) :
    Scope.declarable (chain.map (·.field FieldName.new)) =
      Scope.declarable (namesIn FieldName.new chain) := by
  simp only [Scope.declarable, namesIn, List.filter_filter]
  congr 1
  funext name
  cases h : name.isEmpty <;> simp [selectsNothing, h]

theorem plan_names {kind : ScopeKind} (h : block.scope? = some kind) :
    Scope.declarable block.plan.declared ++ Scope.declarable (block.newNames block.plan.names) =
      block.binds := by
  obtain ⟨id, blockKind, fields, slots⟩ := block
  cases blockKind <;> simp only [scope?, Kind.scope?, kind_mk] at h <;> (try split_ifs at h) <;>
    cases h <;> simp only [plan, Plan.ofBlock, kind_mk, fields_mk, slots_mk] <;>
    (try split_ifs) <;>
    simp_all [binds, newNames, declarable_map_field, Plan.namesOf, field_mk, chain_mk]

/-- A visit that opens a scope notes the signature, if there is one, before. -/
theorem enter_plan {kind : ScopeKind} (h : block.scope? = some kind) (active : Snapshot) :
    block.plan.enter block.id ⟨active, committed⟩ =
      (Scopes.enter block.id kind ⟨active.signing block, committed⟩).declareAll
        block.plan.declared := by
  have hscope := block.plan_scope.trans h
  obtain ⟨id, blockKind, fields, slots⟩ := block
  by_cases hprocess : blockKind = .process
  · subst hprocess
    obtain rfl : ScopeKind.process = kind := by simpa [scope?, Kind.scope?] using h
    by_cases hname : (OrderedMap.get? FieldName.process fields).getD "" = "" <;>
      simp [plan, Plan.ofBlock, Plan.enter, Snapshot.signing, isDefinition, hname,
        Scopes.register, signature, field_mk, chain_mk, Plan.namesOf]
  · have hsigns : (Block.mk id blockKind fields slots).plan.signs = none := by
      cases blockKind <;> simp only [plan, Plan.ofBlock, kind_mk, fields_mk, slots_mk] <;>
        (try split_ifs) <;> simp_all
    simp [Plan.enter, hscope, hsigns, Snapshot.signing, isDefinition, hprocess]

theorem scope?_eq_main {kind : ScopeKind} (h : block.scope? = some kind) :
    kind = .main ↔ block.kind = .main := by
  obtain ⟨id, blockKind, fields, slots⟩ := block
  cases blockKind <;> simp only [scope?, Kind.scope?, kind_mk] at h <;> (try split_ifs at h) <;>
    cases h <;> simp

/-- The scope a block opens has the names it binds. -/
theorem scopes_start_of_some (hrun : run.scopes = ⟨base.opened key scope outer, committed⟩)
    (fresh : Frame.Fresh key outer)
    (hnew : Scope.key block.id ∉ OrderedMap.keys scope.children) {kind : ScopeKind}
    (h : block.scope? = some kind) :
    (block.start run).scopes = ⟨(base.noting block).opened (Scope.key block.id)
      (.mk kind block.binds []) (⟨key, scope⟩ :: outer), committed⟩ := by
  have fresh' : Frame.Fresh (Scope.key block.id) (⟨key, scope⟩ :: outer) := ⟨hnew, fresh⟩
  have henter : block.plan.enter block.id run.scopes = (Scopes.enter block.id kind
      ⟨(base.signing block).opened key scope outer, committed⟩).declareAll block.plan.declared := by
    rw [hrun, enter_plan h]
    rfl
  have hmain : decide (kind = .main) = decide (block.kind = .main) :=
    decide_eq_decide.2 (scope?_eq_main h)
  simp only [start, Plan.opened, henter, Scopes.enter_opened fresh hnew,
    Scopes.declareAll_opened fresh', Scope.extend_extend, plan_names h, hmain]
  rfl

/-! ## The whole walk -/

end Block

/-- Where the walk writes scopes : the innermost open one and the frames around it. -/
structure Standing where
  base : Snapshot
  committed : Snapshot
  key : String
  scope : Scope
  outer : List Frame

namespace Standing

variable (place : Standing)

/-- The scopes of a run that stands there. -/
def scopes : Scopes := ⟨place.base.opened place.key place.scope place.outer, place.committed⟩

/-- The place with names and scopes added to the innermost scope. -/
def extend (names : List String) (inner : List (String × Scope)) : Standing :=
  { place with scope := place.scope.extend names inner }

/-- The place inside of the scope of a block. -/
def inside (block : Block) (kind : ScopeKind) : Standing where
  base := place.base.noting block
  committed := place.committed
  key := Scope.key block.id
  scope := .mk kind block.binds []
  outer := ⟨place.key, place.scope⟩ :: place.outer

/-- The place once a block has been visited. -/
def past (block : Block) : Standing :=
  { place.extend [] (Block.scopesOf block) with base := place.base.noting block }

end Standing

/-- A run stands at a place, and the keys to come are new there. -/
structure Run.At (run : Run) (place : Standing) (coming : List String) : Prop where
  scopes : run.scopes = place.scopes
  fresh : Frame.Fresh place.key place.outer
  nodup : (OrderedMap.keys place.scope.children ++ coming).Nodup

namespace Run.At

variable {run : Run} {place : Standing} {block : Block} {more : List String}

theorem sublist {coming : List String} (h : run.At place coming) (hmore : more.Sublist coming) :
    run.At place more :=
  ⟨h.scopes, h.fresh, h.nodup.sublist (hmore.append_left _)⟩

theorem key_not_mem (h : run.At place (block.ownKeys ++ more)) :
    Scope.key block.id ∉ OrderedMap.keys place.scope.children := fun hmem =>
  (List.nodup_append.1 h.nodup).2.2 _ hmem _ (List.mem_append_left _ List.mem_cons_self) rfl

/-- A block with a scope leads inside of it, where the keys of its chain are new. -/
theorem start (h : run.At place (block.ownKeys ++ more)) {kind : ScopeKind}
    (hscope : block.scope? = some kind) :
    (block.start run).At (place.inside block kind) (Block.keysOf block.body ++ []) := by
  refine ⟨Block.scopes_start_of_some h.scopes h.fresh h.key_not_mem hscope,
    ⟨h.key_not_mem, h.fresh⟩, ?_⟩
  have hown := ((List.nodup_append.1 h.nodup).2.1).sublist (List.sublist_append_left _ _)
  rw [List.append_nil]
  exact (List.nodup_cons.1 hown).2.sublist block.keysOf_body_sublist

/-- The scopes of a block take some of its keys, so the rest finds its keys new. -/
theorem nodup_past (h : run.At place (block.ownKeys ++ more)) :
    (OrderedMap.keys (place.past block).scope.children ++ more).Nodup := by
  refine h.nodup.sublist ?_
  rw [Standing.past, Standing.extend, Scope.children_extend, OrderedMap.keys, List.map_append,
    List.append_assoc]
  exact (block.keys_scopesOf_sublist.append_right more).append_left _

end Run.At

namespace Block

variable {block : Block} {run : Run} {place : Standing} {more : List String}

/-- What a visit of a term does to open scopes : it leaves the scopes of the block in the
innermost one. -/
def Walked (block : Block) : Prop :=
  ∀ (trail : List Step) (followers : List Block) {run : Run} {place : Standing}
    {more : List String}, block.wellPlaced = true → block.kind.isTerm = true →
    run.counts block.kind = true → run.At place (block.ownKeys ++ more) →
    (traceBlock trail followers block run).run.At (place.past block) more ∧
      (traceBlock trail followers block run).run.emitting =
        (run.emitting && !block.kind.opensGate)

/-- Statements and branches : what stands in the chain inside of a block. -/
def IsInner (block : Block) : Prop :=
  block.wellPlaced = true ∧ block.kind.isTerm = true ∧ block.kind.opensGate = false

theorem isInner_of_mem_chain (placed : block.wellPlaced = true) {slot : String}
    (hslot : block.kind.bodySlot = some slot) {inner : Block}
    (hinner : inner ∈ block.chain slot) : inner.IsInner := by
  have hadmits := admits_of_mem placed hinner
  refine ⟨wellPlaced_of_mem placed hinner, ?_⟩
  obtain ⟨id, kind, fields, slots⟩ := block
  cases kind <;> cases hslot <;> revert hadmits <;> cases inner.kind <;>
    simp [Kind.isTerm, Kind.isStatement, Kind.isBranch, Kind.opensGate]

theorem isInner_of_mem_body (placed : block.wellPlaced = true) {inner : Block}
    (hinner : inner ∈ block.body) : inner.IsInner := by
  rcases block.body_eq_nil_or with h | ⟨slot, hslot, h⟩
  · simp [h] at hinner
  · exact isInner_of_mem_chain placed hslot (h ▸ hinner)

theorem isStatement_of_mem_body (placed : block.wellPlaced = true)
    (hfork : block.kind.isFork = false) {inner : Block} (hinner : inner ∈ block.body) :
    inner.kind.isStatement = true := by
  rcases block.body_eq_nil_or with h | ⟨slot, hslot, h⟩
  · simp [h] at hinner
  · have hadmits := admits_of_mem placed (h ▸ hinner)
    revert hadmits hslot hfork
    cases block.kind <;> intro hfork hslot hadmits <;> cases hslot <;>
      first
      | simpa using hadmits
      | cases hfork

/-- The chain inside of a fork is one of branches. -/
theorem kind_of_mem_fork (placed : block.wellPlaced = true) (hfork : block.kind.isFork = true)
    {inner : Block} (hinner : inner ∈ block.body) : inner.kind = block.kind.branch := by
  rcases block.body_eq_nil_or with h | ⟨slot, hslot, h⟩
  · simp [h] at hinner
  · have hadmits := admits_of_mem placed (h ▸ hinner)
    revert hadmits hslot hfork
    cases block.kind <;> intro hfork hslot hadmits <;> cases hslot <;>
      first
      | simpa [Kind.branch] using hadmits
      | cases hfork

theorem noting_of_isInner (base : Snapshot) (h : block.IsInner) : base.noting block = base := by
  have hgate := h.2.2
  obtain ⟨id, kind, fields, slots⟩ := block
  cases kind <;> simp_all [Snapshot.noting, Snapshot.signing, isDefinition, Kind.opensGate]

theorem counts_of_emitting (kind : Kind) (h : run.emitting = true) : run.counts kind = true := by
  simp [Run.counts, h]

theorem counts_of_opensGate (run : Run) {kind : Kind} (h : kind.opensGate = true) :
    run.counts kind = true := by
  simp only [Kind.opensGate, Bool.or_eq_true, decide_eq_true_eq] at h
  rcases h with h | h <;> simp [Run.counts, Kind.bypassesGate, h]

/-- One block of a chain inside : the walk goes on with the next one. -/
theorem walked_step (walked : Walked block) (inner : block.IsInner) (trail followers)
    (hemitting : run.emitting = true) (hat : run.At place (block.ownKeys ++ more)) :
    (traceBlock trail followers block run).run.At (place.extend [] (scopesOf block)) more ∧
      (traceBlock trail followers block run).run.emitting = true := by
  obtain ⟨placed, hterm, hgate⟩ := inner
  obtain ⟨hown, hstill⟩ := walked trail followers placed hterm
    (counts_of_emitting _ hemitting) hat
  have hpast : place.past block = place.extend [] (scopesOf block) := by
    rw [Standing.past, noting_of_isInner _ ⟨placed, hterm, hgate⟩]
    rfl
  exact ⟨hpast ▸ hown, by rw [hstill, hemitting, hgate]; rfl⟩

theorem walked_chain : ∀ {chain : List Block} (trail : List Step) {run : Run} {place : Standing},
    (∀ block ∈ chain, Walked block) → (∀ block ∈ chain, block.IsInner) →
      run.emitting = true → run.At place (keysOf chain ++ more) →
      (traceChain trail chain run).run.At (place.extend [] (scopesIn chain)) more ∧
        (traceChain trail chain run).run.emitting = true
  | [], trail, run, place, _, _, hemitting, hat => by
    simpa [traceChain, scopesIn, Standing.extend, hemitting] using hat
  | .mk id kind fields slots :: rest, trail, run, place, walked, inner, hemitting, hat => by
    rw [keysOf_cons, List.append_assoc] at hat
    obtain ⟨hown, hstill⟩ := walked_step (walked _ List.mem_cons_self)
      (inner _ List.mem_cons_self) trail rest hemitting hat
    have hfollowing := walked_chain (.previous (.mk id kind fields slots) :: trail)
      (fun block hb => walked block (List.mem_cons_of_mem _ hb))
      (fun block hb => inner block (List.mem_cons_of_mem _ hb)) hstill hown
    simpa [traceChain, counts_of_emitting kind hstill, scopesIn, Standing.extend] using hfollowing

theorem noting_of_none (base : Snapshot) (h : block.scope? = none) : base.noting block = base := by
  obtain ⟨id, kind, fields, slots⟩ := block
  cases kind <;>
    simp_all [Snapshot.noting, Snapshot.signing, isDefinition, scope?, Kind.scope?]

theorem walked_of_body (inside : ∀ inner ∈ block.body, Walked inner) : Walked block := by
  intro trail followers run place more placed hterm hcounts hat
  rw [run_traceBlock trail followers placed hterm hcounts]
  have hopened : (block.start run).emitting = true := emitting_opened hterm hcounts
  have hgate : (!block.kind.opensGate) = (run.emitting && !block.kind.opensGate) := by
    have hstart : (run.emitting || block.kind.opensGate) = true := hopened
    revert hstart
    cases run.emitting <;> cases block.kind.opensGate <;> simp
  cases hscope : block.scope? with
  | none =>
    have hinside : (block.walkInside trail run).run = block.start run := by
      simp [walkInside, body_of_scope?_eq_none hscope, traceChain]
    refine ⟨⟨?_, hat.fresh, hat.nodup_past⟩, ?_⟩
    · simp [Plan.closed, hinside, plan_scope, hscope, scopes_start_of_none hterm hscope,
        hat.scopes, Standing.past, Standing.extend, Standing.scopes, noting_of_none _ hscope,
        scopesOf_of_none hscope]
    · simp [Plan.closed, hinside, hopened, ← hgate]
  | some kind =>
    obtain ⟨hchain, hstill⟩ := walked_chain (.owner block :: trail) inside
      (fun inner => isInner_of_mem_body placed) hopened (hat.start hscope)
    have hscopes : (block.walkInside trail run).run.scopes = _ := hchain.scopes
    have hemitting : (block.walkInside trail run).run.emitting = true := hstill
    refine ⟨⟨?_, hat.fresh, hat.nodup_past⟩, ?_⟩
    · simp [Plan.closed, hscopes, plan_scope, hscope, Standing.past, Standing.extend,
        Standing.scopes, Standing.inside, Scopes.leave_opened, scopesOf_of_some hscope,
        Scope.extend_mk]
    · simp [Plan.closed, hemitting, ← hgate]

/-- The walk over a term leaves the scopes of the block in the innermost one. -/
theorem walked (block : Block) : Walked block :=
  body_induction (fun _ => walked_of_body) block

end Block

/-! ## The top level -/

namespace Root

variable {root : Root} {run : Run} {place : Standing} {more : List String}

/-- The names a chain of the top level declares around everything. -/
def globalNames (root : Root) : List String :=
  if root.isGlobal then Scope.declarable (root.chain.map (·.field FieldName.new)) else []

theorem noting_head (base : Snapshot) (h : root.head.kind.opensGate = false) :
    base.noting root.head = base := by
  simp only [Kind.opensGate, Bool.or_eq_false_iff, decide_eq_false_iff_not] at h
  simp [Snapshot.noting, Snapshot.signing, Block.isDefinition, h.1, h.2]

/-- The place once a chain of the top level has been walked. -/
def pastChain (root : Root) (place : Standing) : Standing :=
  { place.extend root.globalNames root.scopes with base := place.base.noting root.head }

/-- The keys that a chain of the top level leaves are its own. -/
theorem keys_scopes_sublist (root : Root) :
    (OrderedMap.keys root.scopes).Sublist (Block.keysOf root.chain) := by
  rw [scopes, chain, Block.keysOf_cons]
  split_ifs
  · exact (Block.keys_scopesOf_sublist root.head).trans (List.sublist_append_left _ _)
  · simp [OrderedMap.keys]

theorem nodup_pastChain (hat : run.At place (Block.keysOf root.chain ++ more)) :
    (OrderedMap.keys (root.pastChain place).scope.children ++ more).Nodup := by
  refine hat.nodup.sublist ?_
  rw [pastChain, Standing.extend, Scope.children_extend, OrderedMap.keys, List.map_append,
    List.append_assoc]
  exact (root.keys_scopes_sublist.append_right more).append_left _

/-- Outside of programs and definitions nothing but names counts. -/
theorem not_counts_head (hglobal : root.isGlobal = false)
    (hgate : root.head.kind.opensGate = false) (hemitting : run.emitting = false) :
    run.counts root.head.kind = false := by
  simp only [isGlobal, decide_eq_false_iff_not] at hglobal
  simp only [Kind.opensGate, Bool.or_eq_false_iff, decide_eq_false_iff_not] at hgate
  simp [Run.counts, Kind.bypassesGate, hglobal, hgate.1, hgate.2, hemitting]

/-- A chain of the top level leaves its names and scopes in the outermost scope. -/
theorem walked (placed : root.wellPlaced = true) (hemitting : run.emitting = false)
    (hat : run.At place (Block.keysOf root.chain ++ more)) :
    (Block.traceChain [] root.chain run).run.At (root.pastChain place) more ∧
      (Block.traceChain [] root.chain run).run.emitting = false := by
  by_cases hglobal : root.isGlobal = true
  · have hkinds := kind_of_isGlobal placed hglobal
    have hhead : root.head.kind.opensGate = false := by
      simp [hkinds root.head List.mem_cons_self, Kind.opensGate]
    have hpast : root.pastChain place =
        place.extend (Scope.declarable (root.chain.map (·.field FieldName.new))) [] := by
      simp [pastChain, Standing.extend, noting_head _ hhead, globalNames, hglobal, scopes, hhead]
    rw [Block.run_names [] _ _ fun block hb => by
      simp [hkinds block hb, Kind.isName, Run.counts, Kind.bypassesGate]]
    refine ⟨⟨?_, hat.fresh, nodup_pastChain hat⟩, hemitting⟩
    rw [hpast, hat.scopes]
    exact Scopes.declareAll_opened hat.fresh _ _
  by_cases hgate : root.head.kind.opensGate = true
  · have hcounts := Block.counts_of_opensGate run hgate
    have hterm := Kind.isTerm_of_opensGate hgate
    have hchain := chain_of_opensGate placed hgate
    have hpast : root.pastChain place = place.past root.head := by
      simp [pastChain, Standing.past, globalNames, hglobal, scopes, hgate]
    rw [hchain, Block.keysOf_cons, Block.keysOf_nil, List.append_nil] at hat
    obtain ⟨hwalk, hstill⟩ := Block.walked root.head [] []
      (of_wellPlaced placed _ List.mem_cons_self) hterm hcounts hat
    rw [hchain, Block.traceChain_singleton, hpast]
    exact ⟨hwalk, by rw [hstill, hemitting]; rfl⟩
  · have hhead : root.head.kind.opensGate = false := by simpa using hgate
    rw [chain, Block.traceChain_of_not_counts
      (not_counts_head (by simpa using hglobal) hhead hemitting)]
    refine ⟨⟨?_, hat.fresh, nodup_pastChain hat⟩, hemitting⟩
    simp [hat.scopes, Standing.scopes, pastChain, Standing.extend, noting_head _ hhead,
      globalNames, hglobal, scopes, hhead]

/-- The place once chains of the top level have been walked. -/
def pastChains (roots : List Root) (place : Standing) : Standing :=
  roots.foldl (fun place root => root.pastChain place) place

theorem walked_roots : ∀ {roots : List Root} {run : Run} {place : Standing},
    (∀ root ∈ roots, root.wellPlaced = true) → run.emitting = false →
    run.At place ((roots.flatMap fun root => Block.keysOf root.chain) ++ more) →
      (traceRoots roots run).run.At (pastChains roots place) more ∧
        (traceRoots roots run).run.emitting = false
  | [], run, place, _, hemitting, hat => by simpa [traceRoots, pastChains, hemitting] using hat
  | root :: roots, run, place, placed, hemitting, hat => by
    rw [List.flatMap_cons, List.append_assoc] at hat
    obtain ⟨hown, hstill⟩ := walked (placed root List.mem_cons_self) hemitting hat
    have hrest := walked_roots (fun root hr => placed root (List.mem_cons_of_mem _ hr)) hstill hown
    exact hrest

/-- The signatures of the definitions among chains of the top level. -/
def signatures (roots : List Root) : List (String × Signature) :=
  ((roots.map head).filter Block.isDefinition).map Block.signature

theorem pastChains_eq (roots : List Root) (place : Standing) : pastChains roots place =
    { place.extend (roots.flatMap globalNames) (roots.flatMap scopes) with
      base := { place.base with
        declaredMain := place.base.declaredMain ||
          roots.any fun root => decide (root.head.kind = .main)
        processes := (signatures roots).foldl (fun map entry => map.insert entry.1 entry.2)
          place.base.processes } } := by
  induction roots generalizing place with
  | nil => simp [pastChains, signatures, Standing.extend]
  | cons root roots ih =>
    rw [pastChains, List.foldl_cons, ← pastChains, ih]
    by_cases h : root.head.isDefinition = true <;>
      simp [pastChain, Standing.extend, Snapshot.noting, Snapshot.signing, signatures, h,
        Bool.or_assoc]

end Root

namespace Tree

variable (tree : Tree)

theorem filter_visitOrder {p : Root → Bool} (h : ∀ root, p root = true → root.isGlobal = false) :
    tree.visitOrder.filter p = tree.ordered.filter p := by
  have hglobal (root : Root) : (p root && root.isGlobal) = false := by
    cases hp : p root <;> simp [h root, hp]
  have hlocal (root : Root) : (p root && !root.isGlobal) = p root := by
    cases hp : p root <;> simp [h root, hp]
  simp [visitOrder, List.filter_append, List.filter_filter, hglobal, hlocal]

/-- The chains of global names declare the global names of the tree. -/
theorem flatMap_globalNames_of_isGlobal :
    (tree.ordered.filter Root.isGlobal).flatMap Root.globalNames = tree.globalNames := by
  have hdeclarable (roots : List Root) : (roots.filter Root.isGlobal).flatMap Root.globalNames =
      Scope.declarable ((roots.filter Root.isGlobal).flatMap fun root =>
        root.chain.map (·.field FieldName.new)) := by
    induction roots with
    | nil => rfl
    | cons root roots ih =>
      by_cases h : root.isGlobal = true
      · rw [List.filter_cons_of_pos h, List.flatMap_cons, List.flatMap_cons, ih, Root.globalNames,
          if_pos h, Scope.declarable_append]
      · rw [List.filter_cons_of_neg h, ih]
  exact hdeclarable tree.ordered

theorem flatMap_globalNames : tree.visitOrder.flatMap Root.globalNames = tree.globalNames := by
  have hlocal : (tree.ordered.filter fun root => !root.isGlobal).flatMap Root.globalNames = [] := by
    simp +contextual [List.flatMap_eq_nil_iff, Root.globalNames]
  rw [visitOrder, List.flatMap_append, flatMap_globalNames_of_isGlobal, hlocal, List.append_nil]

theorem isGlobal_of_opensGate {root : Root} (h : root.head.kind.opensGate = true) :
    root.isGlobal = false := by
  simp only [Kind.opensGate, Bool.or_eq_true, decide_eq_true_eq] at h
  rcases h with h | h <;> simp [Root.isGlobal, h]

theorem flatMap_scopes (roots : List Root) : roots.flatMap Root.scopes =
    (roots.filter fun root => root.head.kind.opensGate).flatMap fun root =>
      Block.scopesOf root.head := by
  induction roots with
  | nil => rfl
  | cons root roots ih =>
    by_cases h : root.head.kind.opensGate = true <;> simp [Root.scopes, h, ih]

theorem signatures_visitOrder :
    Root.signatures tree.visitOrder = tree.definitions.map Block.signature := by
  have hdefinition : ∀ root : Root, root.head.isDefinition = true → root.isGlobal = false :=
    fun root h => isGlobal_of_opensGate (by
      simp only [Block.isDefinition, Bool.and_eq_true, decide_eq_true_eq] at h
      simp [Kind.opensGate, h.1])
  simp only [Root.signatures, definitions, List.filter_map]
  rw [show Block.isDefinition ∘ Root.head = fun root => root.head.isDefinition from rfl,
    tree.filter_visitOrder hdefinition]

theorem any_visitOrder (p : Root → Bool) : tree.visitOrder.any p = tree.ordered.any p := by
  have hmem (root : Root) : root ∈ tree.visitOrder ↔ root ∈ tree.ordered :=
    (List.filter_append_perm Root.isGlobal tree.ordered).mem_iff
  rw [Bool.eq_iff_iff]
  simp only [List.any_eq_true, hmem]

/-- Where the walk of a pass begins. -/
def outset (scopes : Scopes) : Standing where
  base := {}
  committed := scopes.committed
  key := Scope.globalKey
  scope := .empty .global
  outer := []

theorem nodup_visitOrder (distinct : (tree.ids.map Scope.key).Nodup) :
    (tree.visitOrder.flatMap fun root => Block.keysOf root.chain).Nodup := by
  have hkeys := (tree.ids_perm.map Scope.key).nodup_iff.2 distinct
  rwa [List.map_flatMap] at hkeys

theorem nodup_ordered (distinct : (tree.ids.map Scope.key).Nodup) :
    (tree.ordered.flatMap fun root => Block.keysOf root.chain).Nodup := by
  have hperm := tree.visitOrder_perm.trans tree.ordered_perm.symm
  exact (hperm.flatMap_right _).nodup_iff.1 (tree.nodup_visitOrder distinct)

theorem at_outset (distinct : (tree.ids.map Scope.key).Nodup) (scopes : Scopes) :
    Run.At { scopes := scopes.begin } (outset scopes)
      ((tree.visitOrder.flatMap fun root => Block.keysOf root.chain) ++ []) := by
  refine ⟨rfl, trivial, ?_⟩
  rw [List.append_nil]
  exact tree.nodup_visitOrder distinct

/-- The walk ends with the snapshot that the tree gives. -/
theorem active_trace (placed : tree.wellPlaced = true)
    (distinct : (tree.ids.map Scope.key).Nodup) (scopes : Scopes) :
    (tree.trace scopes).run.scopes.active = tree.snapshot := by
  have hwalk := (Root.walked_roots (fun root => wellPlaced_of_mem placed) rfl
    (tree.at_outset distinct scopes)).1.scopes
  rw [trace, hwalk, Root.pastChains_eq, flatMap_globalNames, flatMap_scopes,
    signatures_visitOrder, any_visitOrder, tree.filter_visitOrder fun root => isGlobal_of_opensGate,
    ← flatMap_scopes]
  simp [outset, Standing.scopes, Standing.extend, Snapshot.opened, Frame.plug, Frame.path,
    Scope.empty, Scope.extend, snapshot, OrderedMap.foldl_insert_eq]

/-- A pass over a well-placed tree whose keys are distinct commits what the tree says about
names. -/
theorem committed_pass (placed : tree.wellPlaced = true)
    (distinct : (tree.ids.map Scope.key).Nodup) (scopes : Scopes) (canonical : Bool) :
    (tree.pass scopes canonical).2.committed = tree.snapshot := by
  simp only [pass, generate_eq]
  exact tree.active_trace placed distinct scopes

/-- A program with a chain inside. -/
def program (chain : List Block) : Tree where
  roots := [⟨.mk "main" .main [] [(SlotName.main, chain)], [], none⟩]

/-- A block that sends a name on itself. -/
def sending (name : String) : Block :=
  .mk "send" .send [] [
    (SlotName.on, [.mk "channel" .reference [(FieldName.name, name)] []]),
    (SlotName.message, [.mk "message" .reference [(FieldName.name, name)] []])]

/-- A program that restricts a name and sends it on itself. -/
def restricting (name : String) : Tree :=
  program [.mk "restrict" .restrict [(FieldName.new, name)] [(SlotName.scope, [sending name])]]

theorem nodup_keys_restricting : ((restricting "x").ids.map Scope.key).Nodup := by
  decide +kernel

theorem committed_pass_restricting : (restricting "x").wellPlaced = true ∧
    ((restricting "x").ids.map Scope.key).Nodup ∧
    ((restricting "x").pass {} true).2.committed = {
      global := .mk .global [] [(Scope.key "main", .mk .main [] [
        (Scope.key "restrict", .mk .restrict ["x"] [])])]
      declaredMain := true } :=
  ⟨by decide, nodup_keys_restricting,
    (committed_pass _ (by decide) nodup_keys_restricting _ _).trans (by decide +kernel)⟩

/-- The walk comes to a restriction that selects no name and leaves no scope for it. -/
theorem no_scope_of_restricting_nothing : (restricting "").wellPlaced = true ∧
    ((restricting "").ids.map Scope.key).Nodup ∧
    ∃ visit ∈ (restricting "").visits {}, visit.run.emitting = true ∧
      visit.site.block.kind.opensScope = true ∧ visit.site.owner.map Block.id = some "main" ∧
      ((restricting "").pass {} true).2.committed.global.at?
        [Scope.key "main", Scope.key visit.site.block.id] = none := by
  decide +kernel

end Tree

end PiBlocks
