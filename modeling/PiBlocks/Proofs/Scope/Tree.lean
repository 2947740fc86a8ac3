import PiBlocks.Proofs.Block.Placement
import PiBlocks.Proofs.Scope.Open

/-!
# The scopes of a tree

What a tree says about scopes can be read off its blocks without a walk. A block of a kind
with a scope has one under the key of its id (`scope?` ; a restriction that selects no name is
the exception), and in it are the names it binds (`binds`) and the scopes of the blocks in
the chain inside (`body`). Put together for all chains of the top level, with the global names
around them, this is `Tree.scopes` ; `Tree.snapshot` adds the signatures of the processes.

The keys of the scopes in a chain are among those of its blocks (`keys_scopesIn_sublist`).
-/

namespace PiBlocks

/-! ## Scopes of blocks -/

/-- The slot of the chain inside of the scope that such a block opens. -/
def Kind.bodySlot : Kind → Option String
  | .main => some SlotName.main
  | .process => some SlotName.body
  | .restrict | .multiRestrict | .receive | .multiReceive | .guarded => some SlotName.scope
  | .parallelFork => some SlotName.parallel
  | .choiceFork => some SlotName.choice
  | .parallelBranch | .choiceBranch => some SlotName.scope
  | _ => none

theorem Kind.bodySlot_eq_none {kind : Kind} (h : kind.opensScope = false) :
    kind.bodySlot = none := by
  cases kind <;> first | rfl | cases h

namespace Block

/-- The names a block binds in the chain inside, in order. -/
def binds (block : Block) : List String :=
  Scope.declarable (match block.kind with
    | .restrict | .receive => [block.field FieldName.new]
    | .multiRestrict | .multiReceive => namesIn FieldName.new (block.chain SlotName.names)
    | .process => namesIn FieldName.new (block.chain SlotName.params)
    | _ => [])

/-- The scope a visit of the block opens. A restriction that selects no name opens none. -/
def scope? (block : Block) : Option ScopeKind :=
  if block.kind = .restrict ∧ selectsNothing (block.field FieldName.new) = true then none
  else block.kind.scope?

/-- Whether the chain inside is passed over : that of a restriction without names is. -/
def skipsBody (block : Block) : Bool :=
  (block.kind = .restrict && selectsNothing (block.field FieldName.new))
    || (block.kind = .multiRestrict && (namesIn FieldName.new (block.chain SlotName.names)).isEmpty)

/-- The chain inside that a visit goes through. -/
def body (block : Block) : List Block :=
  if block.skipsBody then [] else (block.kind.bodySlot.map block.chain).getD []

mutual

/-- The scope a visit of a block leaves in the scope around it, under its key. -/
def scopesOf : Block → List (String × Scope)
  | .mk id kind fields slots =>
    match (Block.mk id kind fields slots).scope? with
    | none => []
    | some scopeKind => [(Scope.key id, .mk scopeKind (Block.mk id kind fields slots).binds
        (if (Block.mk id kind fields slots).skipsBody then []
          else scopesInSlot kind.bodySlot slots))]

/-- The scopes of the blocks of a chain. -/
def scopesIn : List Block → List (String × Scope)
  | [] => []
  | block :: rest => scopesOf block ++ scopesIn rest

/-- The scopes of the blocks of the chain in a slot. -/
def scopesInSlot (slot : Option String) : List (String × List Block) → List (String × Scope)
  | [] => []
  | (name, chain) :: slots => if some name = slot then scopesIn chain else scopesInSlot slot slots

end

theorem scopesInSlot_some (slot : String) (slots : List (String × List Block)) :
    scopesInSlot (some slot) slots = scopesIn ((OrderedMap.get? slot slots).getD []) := by
  induction slots with
  | nil => simp [scopesInSlot, OrderedMap.get?, scopesIn]
  | cons entry slots ih =>
    by_cases h : entry.1 = slot <;> simp [scopesInSlot, OrderedMap.get?, h, ih]

theorem scopesInSlot_none (slots : List (String × List Block)) :
    scopesInSlot none slots = [] := by
  induction slots with
  | nil => simp [scopesInSlot]
  | cons _ _ ih => simp [scopesInSlot, ih]

theorem scopesOf_of_none {block : Block} (h : block.scope? = none) : scopesOf block = [] := by
  obtain ⟨id, kind, fields, slots⟩ := block
  simp [scopesOf, h]

/-- A scope has the names its block binds and the scopes of the chain inside. -/
theorem scopesOf_of_some {block : Block} {kind : ScopeKind} (h : block.scope? = some kind) :
    scopesOf block = [(Scope.key block.id, .mk kind block.binds (scopesIn block.body))] := by
  obtain ⟨id, blockKind, fields, slots⟩ := block
  rw [scopesOf, h, body]
  cases hslot : blockKind.bodySlot with
  | none => simp [hslot, scopesInSlot_none, scopesIn]
  | some slot => split_ifs <;> simp [hslot, scopesInSlot_some, scopesIn, chain]

/-! ## Keys -/

theorem body_eq_nil_or (block : Block) : block.body = [] ∨
    ∃ slot, block.kind.bodySlot = some slot ∧ block.body = block.chain slot := by
  rw [body]
  cases hslot : block.kind.bodySlot with
  | none => simp
  | some slot => by_cases h : block.skipsBody = true <;> simp [h]

theorem binds_eq_nil {block : Block} (h : block.kind.opensScope = false) : block.binds = [] := by
  obtain ⟨id, kind, fields, slots⟩ := block
  cases kind <;> first | rfl | cases h

/-- What holds of a block whenever it holds of the chain inside holds of all blocks. -/
theorem body_induction {motive : Block → Prop}
    (step : ∀ block, (∀ inner ∈ block.body, motive inner) → motive block) (block : Block) :
    motive block := by
  induction block using induction with
  | mk id kind fields slots ih =>
    refine step _ fun inner hinner => ?_
    rcases (Block.mk id kind fields slots).body_eq_nil_or with h | ⟨slot, -, h⟩
    · simp [h] at hinner
    · rw [h] at hinner
      exact forall_mem_slot ih slot inner hinner

theorem idsOf_body_sublist (block : Block) : (idsOf block.body).Sublist (idsBelow block) := by
  rcases block.body_eq_nil_or with h | ⟨slot, -, h⟩
  · simp [h]
  · exact h ▸ idsOf_chain_sublist slot block

/-- The keys of everything in a chain. -/
def keysOf (chain : List Block) : List String := (idsOf chain).map Scope.key

/-- The keys of a block and of everything that hangs off it. -/
def ownKeys (block : Block) : List String :=
  Scope.key block.id :: (idsBelow block).map Scope.key

@[simp] theorem keysOf_nil : keysOf [] = [] := by
  simp [keysOf]

theorem keysOf_cons (block : Block) (rest : List Block) :
    keysOf (block :: rest) = block.ownKeys ++ keysOf rest := by
  simp [keysOf, ownKeys]

theorem key_mem_keysOf {block : Block} : ∀ {chain : List Block}, block ∈ chain →
    Scope.key block.id ∈ keysOf chain
  | first :: rest, h => by
    rw [keysOf_cons]
    rcases List.mem_cons.1 h with rfl | h
    · exact List.mem_append_left _ List.mem_cons_self
    · exact List.mem_append_right _ (key_mem_keysOf h)

theorem keysOf_body_sublist (block : Block) :
    (keysOf block.body).Sublist ((idsBelow block).map Scope.key) :=
  block.idsOf_body_sublist.map _

theorem keys_scopesOf_sublist (block : Block) :
    (OrderedMap.keys (scopesOf block)).Sublist block.ownKeys := by
  cases h : block.scope? with
  | none => simp [scopesOf_of_none h, OrderedMap.keys]
  | some kind => simp [scopesOf_of_some h, OrderedMap.keys, ownKeys]

/-- The keys of the scopes in a chain are those of some of its blocks. -/
theorem keys_scopesIn_sublist (chain : List Block) :
    (OrderedMap.keys (scopesIn chain)).Sublist (keysOf chain) := by
  induction chain with
  | nil => simp [scopesIn, OrderedMap.keys]
  | cons block rest ih =>
    rw [scopesIn, keysOf_cons, OrderedMap.keys, List.map_append]
    exact (keys_scopesOf_sublist block).append ih

end Block

/-! ## The whole tree -/

/-- The scopes a chain of the top level leaves among the global names. -/
def Root.scopes (root : Root) : List (String × Scope) :=
  if root.head.kind.opensGate then Block.scopesOf root.head else []

/-- Whether the block defines a process under a name. -/
def Block.isDefinition (block : Block) : Bool :=
  block.kind = .process && !(block.field FieldName.process).isEmpty

/-- The signature of a definition under its name. -/
def Block.signature (block : Block) : String × Signature :=
  (block.field FieldName.process, {
    key := Scope.key block.id
    block := block.id
    params := Block.namesIn FieldName.new (block.chain SlotName.params) })

namespace Tree

variable (tree : Tree)

/-- The names declared around everything, in reading order. -/
def globalNames : List String :=
  Scope.declarable ((tree.ordered.filter Root.isGlobal).flatMap fun root =>
    root.chain.map fun block => block.field FieldName.new)

/-- The definitions that have a name, in reading order. -/
def definitions : List Block :=
  (tree.ordered.map Root.head).filter Block.isDefinition

/-- What a tree says about names. -/
def snapshot : Snapshot where
  global := .mk .global tree.globalNames (tree.ordered.flatMap Root.scopes)
  stack := [Scope.globalKey]
  processes := OrderedMap.ofEntries (tree.definitions.map Block.signature)
  declaredMain := tree.ordered.any fun root => root.head.kind = .main

end Tree

end PiBlocks
