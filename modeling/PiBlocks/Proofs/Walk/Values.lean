import PiBlocks.Proofs.Walk.Scopes

/-!
# Values

The values of a block are references, at most one in a slot. What a reference gives hangs on its
name and on where the walk stands (`Block.printed`) : it is the name if that is visible, and nothing
outside of programs and definitions. So the values that a visit reads can be told without the walk
(`Block.parts_values`).
-/

namespace PiBlocks

namespace Block

/-- What a reference gives where a run stands. -/
def printed (run : Run) (block : Block) : String :=
  if run.emitting && run.scopes.isVisible (block.field FieldName.name) then
    block.field FieldName.name
  else ""

/-- What the reference in a slot gives, if there is one. -/
def printedIn (run : Run) (slot : Option String) (block : Block) : String :=
  ((slot.bind fun slot => (block.chain slot).head?).map (printed run)).getD ""

/-- What the references in a slot of the blocks in another slot give. -/
def printedItems (run : Run) (items : Option (String × String)) (block : Block) : List String :=
  (items.map fun pair => (block.chain pair.1).map (printedIn run (some pair.2))).getD []

variable {block : Block}

theorem value_of_reference (trail followers) (h : block.kind = .reference) (run : Run) :
    (traceBlock trail followers block run).value = block.printed run := by
  obtain ⟨id, kind, fields, slots⟩ := block
  obtain rfl : kind = .reference := h
  cases hemitting : run.emitting with
  | false => simp [traceBlock, printed, Run.counts, Kind.bypassesGate, hemitting]
  | true =>
    cases hvisible : run.scopes.isVisible ((OrderedMap.get? FieldName.name fields).getD "") <;>
      simp +contextual [traceBlock, printed, Run.counts, hemitting, hvisible, field_mk,
        Parts.ownText, Plan.ofBlock, Plan.opened, Plan.closed, Plan.enter, Scopes.declareAll]

theorem value_slot (trail) (placed : block.wellPlaced = true) {slot : Option String}
    (hslot : ∀ name ∈ slot, name ∈ SlotName.values) (run : Run) :
    (traceSlot trail slot block.slots run).value = block.printedIn run slot := by
  cases slot with
  | none => simp [printedIn]
  | some slot =>
    have hvalues := hslot slot rfl
    rw [traceSlot_some, printedIn, Option.bind_some]
    change (traceChain trail (block.chain slot) run).value = _
    rcases chain_of_mem_values hvalues (wellPlaced_chain placed slot) with hchain | ⟨inner, hchain⟩
    · simp [hchain, traceChain]
    · have hkind := kind_of_mem_values placed hvalues (hchain ▸ List.mem_cons_self)
      rw [hchain, List.head?_cons, Option.map_some, Option.getD_some,
        ← value_of_reference trail [] hkind run]
      by_cases hcounts : run.counts inner.kind = true
      · refine value_traceChain_singleton ?_
        rwa [run_reference trail [] hkind]
      · rw [Bool.not_eq_true] at hcounts
        rw [traceChain_of_not_counts hcounts, traceBlock_of_not_counts hcounts]

theorem value_items {item : String} (hitem : item ∈ SlotName.values) (run : Run) :
    ∀ (trail) {chain : List Block}, (∀ block ∈ chain, block.wellPlaced = true) →
      (traceItems trail item chain run).value = chain.map (printedIn run (some item))
  | trail, [], _ => by simp [traceItems]
  | trail, .mk id kind fields slots :: rest, placed => by
    have hplaced := placed _ List.mem_cons_self
    have hvalues : ∀ name ∈ some item, name ∈ SlotName.values := by simpa using hitem
    have hrun : (traceSlot (.owner (.mk id kind fields slots) :: trail) (some item) slots run).run =
        run := run_value _ run hplaced hvalues
    have hown : (traceSlot (.owner (.mk id kind fields slots) :: trail) (some item) slots
        run).value = printedIn run (some item) (.mk id kind fields slots) :=
      value_slot _ hplaced hvalues run
    have hrest := value_items hitem run (.previous (.mk id kind fields slots) :: trail)
      fun block hb => placed block (List.mem_cons_of_mem _ hb)
    simp only [traceItems, hrun, hown, hrest, List.map_cons]

theorem value_itemsIn (trail) (placed : block.wellPlaced = true)
    {items : Option (String × String)} (hitems : ∀ pair ∈ items, pair.2 ∈ SlotName.values)
    (run : Run) :
    (traceItemsIn trail items block.slots run).value = block.printedItems run items := by
  cases items with
  | none => simp [printedItems]
  | some pair =>
    obtain ⟨slot, item⟩ := pair
    rw [traceItemsIn_some]
    exact value_items (hitems _ rfl) run trail fun inner => wellPlaced_of_mem placed

/-- The values that a visit reads. -/
theorem parts_values (trail) (placed : block.wellPlaced = true) (run : Run) :
    (block.parts trail run).first = block.printedIn run block.plan.first ∧
      (block.parts trail run).second = block.printedIn run block.plan.second ∧
      (block.parts trail run).items = block.printedItems run block.plan.items := by
  obtain ⟨hfirst, hsecond, hitems, -⟩ := Plan.head_slots block.fields block.slots block.kind
  exact ⟨value_slot _ placed hfirst run, value_slot _ placed hsecond run,
    value_itemsIn _ placed hitems run⟩

end Block

end PiBlocks
