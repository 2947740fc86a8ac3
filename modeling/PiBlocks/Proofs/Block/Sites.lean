import PiBlocks.Block.Site
import Mathlib.Data.List.Infix

/-!
# Sites of a tree

The sites below a block are those of the chains in its slots, so a chain in one slot has
some of them in the same order (`sitesOf_chain_sublist`). What stands at the sites does not
depend on the trail (`map_block_sitesOf`), and the trail of a site goes on with the trail
of the chain it was found in (`suffix_of_mem_sitesOf`).

`Block.induction` is the induction on block trees that the walk asks for : what holds of all
blocks in the slots of a block holds of the block.
-/

namespace PiBlocks

namespace Block

theorem field_mk (id kind fields slots name) :
    (Block.mk id kind fields slots).field name = (OrderedMap.get? name fields).getD "" := rfl

theorem chain_mk (id kind fields slots slot) :
    (Block.mk id kind fields slots).chain slot = (OrderedMap.get? slot slots).getD [] := rfl

@[elab_as_elim]
theorem induction {motive : Block → Prop}
    (mk : ∀ id kind fields slots, (∀ slot ∈ slots, ∀ block ∈ slot.2, motive block) →
      motive (.mk id kind fields slots)) (block : Block) : motive block :=
  @Block.rec motive (fun slots => ∀ slot ∈ slots, ∀ block ∈ slot.2, motive block)
    (fun slot => ∀ block ∈ slot.2, motive block) (fun chain => ∀ block ∈ chain, motive block)
    mk (by simp) (fun _ _ head tail => List.forall_mem_cons.2 ⟨head, tail⟩)
    (fun _ _ chain => chain) (by simp) (fun _ _ head tail => List.forall_mem_cons.2 ⟨head, tail⟩)
    block

/-- What holds of all blocks in slots holds of the chain in one of them. -/
theorem forall_mem_slot {motive : Block → Prop} {slots : List (String × List Block)}
    (h : ∀ slot ∈ slots, ∀ block ∈ slot.2, motive block) (name : String) :
    ∀ block ∈ (OrderedMap.get? name slots).getD [], motive block := by
  cases hget : OrderedMap.get? name slots with
  | none => simp
  | some chain => exact h _ (OrderedMap.mem_of_get? hget)

/-! ## Chains in slots -/

theorem sitesOf_sublist_sitesInSlots (trail : List Step) (slot : String) : ∀ slots,
    (sitesOf trail ((OrderedMap.get? slot slots).getD [])).Sublist (sitesInSlots trail slots)
  | [] => by simp [OrderedMap.get?, sitesOf]
  | (name, chain) :: slots => by
    by_cases h : name = slot
    · simp [OrderedMap.get?, sitesInSlots, h]
    · simpa [OrderedMap.get?, sitesInSlots, h] using
        (sitesOf_sublist_sitesInSlots trail slot slots).trans (List.sublist_append_right _ _)

/-- The sites of a chain in a slot are sites below the block. -/
theorem sitesOf_chain_sublist (trail : List Step) (slot : String) (block : Block) :
    (sitesOf (.owner block :: trail) (block.chain slot)).Sublist (sitesBelow trail block) := by
  obtain ⟨id, kind, fields, slots⟩ := block
  rw [sitesBelow]
  exact sitesOf_sublist_sitesInSlots _ slot slots

/-! ## Trails -/

mutual

theorem suffix_of_mem_sitesBelow {site : Site} : ∀ (block : Block) (trail : List Step),
    site ∈ sitesBelow trail block → (.owner block :: trail) <:+ site.trail
  | .mk id kind fields slots, trail, h => by
    rw [sitesBelow] at h
    exact suffix_of_mem_sitesInSlots slots _ h

theorem suffix_of_mem_sitesInSlots {site : Site} :
    ∀ (slots : List (String × List Block)) (trail : List Step),
      site ∈ sitesInSlots trail slots → trail <:+ site.trail
  | [], trail, h => by simp [sitesInSlots] at h
  | (_, chain) :: slots, trail, h => by
    rw [sitesInSlots, List.mem_append] at h
    exact h.elim (suffix_of_mem_sitesOf chain trail) (suffix_of_mem_sitesInSlots slots trail)

/-- The trail of a site goes on with the trail of the chain. -/
theorem suffix_of_mem_sitesOf {site : Site} : ∀ (chain : List Block) (trail : List Step),
    site ∈ sitesOf trail chain → trail <:+ site.trail
  | [], trail, h => by simp [sitesOf] at h
  | block :: rest, trail, h => by
    rw [sitesOf, List.mem_cons, List.mem_append] at h
    rcases h with rfl | h | h
    · exact List.suffix_refl trail
    · exact (List.suffix_cons _ trail).trans (suffix_of_mem_sitesBelow block trail h)
    · exact (List.suffix_cons _ trail).trans (suffix_of_mem_sitesOf rest _ h)

end

mutual

theorem map_block_sitesBelow (trail trail' : List Step) : ∀ block : Block,
    (sitesBelow trail block).map Site.block = (sitesBelow trail' block).map Site.block
  | .mk id kind fields slots => by
    rw [sitesBelow, sitesBelow]
    exact map_block_sitesInSlots _ _ slots

theorem map_block_sitesInSlots (trail trail' : List Step) :
    ∀ slots : List (String × List Block),
      (sitesInSlots trail slots).map Site.block = (sitesInSlots trail' slots).map Site.block
  | [] => by simp [sitesInSlots]
  | (_, chain) :: slots => by
    rw [sitesInSlots, sitesInSlots, List.map_append, List.map_append,
      map_block_sitesOf trail trail' chain, map_block_sitesInSlots trail trail' slots]

/-- The blocks at the sites of a chain do not depend on the trail. -/
theorem map_block_sitesOf (trail trail' : List Step) : ∀ chain : List Block,
    (sitesOf trail chain).map Site.block = (sitesOf trail' chain).map Site.block
  | [] => by simp [sitesOf]
  | block :: rest => by
    rw [sitesOf, sitesOf, List.map_cons, List.map_cons, List.map_append, List.map_append,
      map_block_sitesBelow trail trail' block, map_block_sitesOf _ (.previous block :: trail') rest]

end

/-! ## Ids -/

/-- The ids of everything in a chain. -/
def idsOf (chain : List Block) : List String := (sitesOf [] chain).map fun site => site.block.id

/-- The ids of everything that hangs off a block. -/
def idsBelow (block : Block) : List String :=
  (sitesBelow [] block).map fun site => site.block.id

theorem map_id_sitesOf (trail : List Step) (chain : List Block) :
    ((sitesOf trail chain).map fun site => site.block.id) = idsOf chain := by
  simpa [idsOf, Function.comp_def] using
    congrArg (List.map Block.id) (map_block_sitesOf trail [] chain)

@[simp] theorem idsOf_nil : idsOf [] = [] := by
  simp [idsOf, sitesOf]

@[simp] theorem idsOf_cons (block : Block) (rest : List Block) :
    idsOf (block :: rest) = block.id :: (idsBelow block ++ idsOf rest) := by
  rw [← map_id_sitesOf [.previous block] rest]
  simp [idsOf, idsBelow, sitesOf]

/-- The ids of everything in slots. -/
def slotIds (slots : List (String × List Block)) : List String :=
  slots.flatMap fun slot => idsOf slot.2

theorem slotIds_cons (slot : String) (chain : List Block) (slots : List (String × List Block)) :
    slotIds ((slot, chain) :: slots) = idsOf chain ++ slotIds slots :=
  List.flatMap_cons

theorem idsBelow_mk (id : String) (kind : Kind) (fields : OrderedMap String)
    (slots : List (String × List Block)) : idsBelow (.mk id kind fields slots) = slotIds slots := by
  have hslots (trail : List Step) :
      ((sitesInSlots trail slots).map fun site => site.block.id) = slotIds slots := by
    induction slots with
    | nil => simp [sitesInSlots, slotIds]
    | cons slot slots ih =>
      rw [sitesInSlots, List.map_append, map_id_sitesOf, ih, slotIds_cons]
  rw [idsBelow, sitesBelow, hslots]

/-- The ids in a slot are among those below the block. -/
theorem idsOf_chain_sublist (slot : String) (block : Block) :
    (idsOf (block.chain slot)).Sublist (idsBelow block) := by
  rw [← map_id_sitesOf [.owner block]]
  exact (sitesOf_chain_sublist [] slot block).map _

end Block

end PiBlocks
