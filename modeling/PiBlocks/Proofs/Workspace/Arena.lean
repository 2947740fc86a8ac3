import PiBlocks.Proofs.Workspace.Walks

/-!
# Arenas as images of what was saved

An arena that is made of saved blocks has a node for each that is reached, and its chains and
slots hold what was linked, by the numbers of what is reached (`Arena.Mirrors`). The heads of its
top level are in reading order (`Arena.Precedes`), which is that of the entries they were sorted
by. With `Arena.Linked` this is all that a walk over an arena relies on (`Arena.mirrors_ofSaved`).
-/

namespace PiBlocks

namespace Arena

open SavedBlock

theorem le_of_mem_numbered : ∀ {blocks : List SavedBlock} {index : Nat} {entry : Nat × SavedBlock},
    entry ∈ numbered index blocks → index ≤ entry.1
  | _ :: _, _, _, h => by
    rcases List.mem_cons.1 h with rfl | h
    · exact Nat.le_refl _
    · exact (Nat.le_add_right _ _).trans (le_of_mem_numbered h)

theorem map_head_entriesFrom : ∀ (blocks : List SavedBlock) (order index : Nat),
    (entriesFrom order index blocks).map Entry.head = (numbered index blocks).map Prod.fst
  | [], _, _ => rfl
  | _ :: blocks, _, index => congrArg (index :: ·) (map_head_entriesFrom blocks _ _)

theorem mem_entriesFrom : ∀ {blocks : List SavedBlock} {order index : Nat} {entry : Entry},
    entry ∈ entriesFrom order index blocks → order ≤ entry.order ∧
      ∃ block, (entry.head, block) ∈ numbered index blocks ∧ entry.key = block.key
  | block :: _, _, _, _, h => by
    rcases List.mem_cons.1 h with rfl | h
    · exact ⟨Nat.le_refl _, block, List.mem_cons_self, rfl⟩
    · obtain ⟨horder, other, hother, hkey⟩ := mem_entriesFrom h
      exact ⟨Nat.le_of_succ_le horder, other, List.mem_cons_of_mem _ hother, hkey⟩

theorem index_le_of_mem_placesFrom : ∀ {blocks : List SavedBlock} {index : Nat}
    {entry : Nat × Float × Float}, entry ∈ placesFrom index blocks → index ≤ entry.1
  | block :: blocks, index, entry, h => by
    rcases List.mem_append.1 h with h | h
    · exact (Nat.le_add_right _ _).trans (index_le_of_mem_placesFrom h)
    · exact (fst_of_mem_place h).ge

/-- A head stands where its chain was saved. -/
theorem lookup_placesFrom : ∀ {blocks : List SavedBlock} {index : Nat} {entry : Nat × SavedBlock},
    entry ∈ numbered index blocks → (placesFrom index blocks).lookup entry.1 = entry.2.place
  | block :: blocks, index, entry, h => by
    have hpos := length_reached_pos block
    rw [placesFrom, List.lookup_append]
    rcases List.mem_cons.1 h with rfl | h
    · have hnone : (placesFrom (index + block.reached.length) blocks).lookup index = none :=
        lookup_eq_none fun entry hentry => by
          have hle := index_le_of_mem_placesFrom hentry
          omega
      rw [hnone]
      cases block.place <;> simp
    · have hle := le_of_mem_numbered h
      have hnone : ((block.place.map fun place => (index, place)).toList).lookup entry.1 = none :=
        lookup_eq_none fun other hother => by
          have hfirst := fst_of_mem_place hother
          omega
      rw [lookup_placesFrom h, hnone, Option.or_none]

/-- Heads are numbered in the order of the file. -/
theorem pairwise_entriesFrom : ∀ (blocks : List SavedBlock) (order index : Nat),
    (entriesFrom order index blocks).Pairwise fun entry other =>
      entry.order < other.order ∧ entry.head < other.head
  | [], _, _ => .nil
  | block :: blocks, order, index => by
    refine List.pairwise_cons.2 ⟨fun other hother => ?_, pairwise_entriesFrom blocks _ _⟩
    obtain ⟨horder, next, hnext, -⟩ := mem_entriesFrom hother
    have hpos := length_reached_pos block
    have hle := le_of_mem_numbered hnext
    have hlt : index < other.head := by omega
    exact ⟨horder, hlt⟩

/-- Sorted entries come by their keys, and for equal keys by their heads. -/
theorem pairwise_mergeSort (blocks : List SavedBlock) :
    ((entriesFrom 0 0 blocks).mergeSort Entry.le).Pairwise fun entry other =>
      Float.rank entry.key < Float.rank other.key ∨
        Float.rank entry.key = Float.rank other.key ∧ entry.head < other.head := by
  have hagree : (entriesFrom 0 0 blocks).Pairwise fun entry other =>
      (entry.order < other.order ∧ entry.head < other.head) ∨
        (other.order < entry.order ∧ other.head < entry.head) :=
    (pairwise_entriesFrom blocks 0 0).imp .inl
  have hsorted := List.pairwise_mergeSort Entry.le_trans Entry.le_total (entriesFrom 0 0 blocks)
  have hperm := List.mergeSort_perm (entriesFrom 0 0 blocks) Entry.le
  refine (hsorted.and ((hperm.pairwise_iff fun h => h.symm).2 hagree)).imp
    fun {entry other} ⟨hle, hagree⟩ => ?_
  rw [Entry.le_iff] at hle
  omega

/-- What is known of the top level of an arena : its order, and where chains stand. -/
theorem roots_of_ofSaved {blocks : List SavedBlock} {arena : Arena}
    (keyed : ∀ block ∈ blocks, block.wellKeyed = true) (hbuilt : ofSaved blocks = .ok arena) :
    arena.places = placesFrom 0 blocks ∧
      arena.roots = ((entriesFrom 0 0 blocks).mergeSort Entry.le).map Entry.head := by
  cases hrepeated : firstRepeated [] (idsFrom 0 (blocks.flatMap reached)) with
  | some id =>
    rw [ofSaved_eq_error keyed hrepeated] at hbuilt
    cases hbuilt
  | none =>
    obtain ⟨filled, hgrown, hfilled⟩ := exists_ofSaved_eq_ok keyed hrepeated
    rw [hfilled] at hbuilt
    cases hbuilt
    exact ⟨hgrown.places.trans (List.append_nil _), rfl⟩

/-- One head of the top level comes before another : its key is smaller, or the keys are equal and
it has the smaller number. -/
def Precedes (arena : Arena) (head other : Nat) : Prop :=
  Float.rank (arena.key head) < Float.rank (arena.key other) ∨
    Float.rank (arena.key head) = Float.rank (arena.key other) ∧ head < other

/-- Nodes are those of saved blocks that are linked, one behind the other. -/
def Holds (blocks : List SavedBlock) (nodes : List Nat) (linked : List (Nat × SavedBlock)) : Prop :=
  nodes = linked.map Prod.fst ∧
    ∀ entry ∈ linked, (blocks.flatMap reached)[entry.1]? = some entry.2

/-- An arena as the image of saved blocks. -/
structure Mirrors (arena : Arena) (blocks : List SavedBlock) : Prop where
  /-- there is one node for every saved block that is reached, in the same order, with its kind and
  fields, and its id or else the one made of its number -/
  nodes : List.Forall₂ (fun saved node => node.id = idFrom saved ∧ node.kind = saved.1.kind ∧
    node.fields = saved.1.fields) (blocks.flatMap reached).zipIdx arena.nodes.toList
  /-- a slot holds what is linked at the input -/
  slots : ∀ saved ∈ (blocks.flatMap reached).zipIdx, ∀ slot,
    Holds blocks (arena.slotChildren saved.2 slot) (linkedAt slot (saved.2 + 1) saved.1.inputs)
  /-- the heads of the top level are those of the saved chains -/
  roots : arena.roots.Perm ((numbered 0 blocks).map Prod.fst)
  /-- a chain of the top level is the saved one, and stands where that was saved -/
  chains : ∀ entry ∈ numbered 0 blocks,
    Holds blocks (arena.chain (some entry.1)) (linked entry.1 entry.2) ∧
      arena.key entry.1 = entry.2.key
  /-- heads are in the order of their keys, as far as these are numbers, and for equal keys in that
  of the file, in which they are numbered -/
  ordered : arena.roots.Pairwise fun head other =>
    (arena.key head).isNaN = false → (arena.key other).isNaN = false → arena.Precedes head other
  distinct : (arena.nodes.toList.map Node.id).Nodup
  /-- an id is that of one node, which is found -/
  find : ∀ id node, arena.find? id = some node ↔ arena.nodes[node]?.map Node.id = some id

theorem key_of_numbered {blocks : List SavedBlock} {arena : Arena}
    (hplaces : arena.places = placesFrom 0 blocks) {entry : Nat × SavedBlock}
    (h : entry ∈ numbered 0 blocks) : arena.key entry.1 = entry.2.key := by
  rw [key, hplaces, lookup_placesFrom h]
  rfl

/-- The top level of an arena is in order. -/
theorem precedes_of_ofSaved {blocks : List SavedBlock} {arena : Arena}
    (hplaces : arena.places = placesFrom 0 blocks)
    (hroots : arena.roots = ((entriesFrom 0 0 blocks).mergeSort Entry.le).map Entry.head) :
    arena.roots.Pairwise arena.Precedes := by
  have hkey : ∀ entry ∈ (entriesFrom 0 0 blocks).mergeSort Entry.le,
      arena.key entry.head = entry.key := by
    intro entry hentry
    obtain ⟨-, block, hblock, hkey⟩ :=
      mem_entriesFrom ((List.mergeSort_perm _ _).mem_iff.1 hentry)
    exact (key_of_numbered hplaces hblock).trans hkey.symm
  rw [hroots]
  refine List.pairwise_map.2 ((pairwise_mergeSort blocks).imp_of_mem ?_)
  intro entry other hentry hother h
  rwa [Precedes, hkey entry hentry, hkey other hother]

end Arena

section Made

open SavedBlock

/-- The node of a block tells of it what was saved. -/
theorem told_of_makes {number : String → Nat} {saved : SavedBlock × Nat} {site : Site}
    (h : Makes (saved.2, saved.1) site.block) :
    (site.node number).id = idFrom saved ∧ (site.node number).kind = saved.1.kind ∧
      (site.node number).fields = saved.1.fields := by
  obtain ⟨⟨kind, id, x, y, fields, inputs, next⟩, index⟩ := saved
  obtain ⟨block, followers, trail⟩ := site
  cases h
  exact ⟨rfl, rfl, rfl⟩

theorem makes_chain {saved : SavedBlock × Nat} {block : Block}
    (h : Makes (saved.2, saved.1) block) (slot : String) :
    List.Forall₂ Makes (linkedAt slot (saved.2 + 1) saved.1.inputs) (block.chain slot) := by
  obtain ⟨⟨kind, id, x, y, fields, inputs, next⟩, index⟩ := saved
  cases h with
  | mk _ hslots => exact hslots slot

theorem exists_getElem?_of_forall₂ {α β : Type} {relation : α → β → Prop} :
    ∀ {entries : List α} {others : List β}, List.Forall₂ relation entries others →
      ∀ {index : Nat} {entry : α}, entries[index]? = some entry →
        ∃ other, others[index]? = some other ∧ relation entry other
  | _ :: _, other :: _, .cons hfirst _, 0, _, rfl => ⟨other, rfl, hfirst⟩
  | _ :: _, _ :: _, .cons _ hrest, _ + 1, _, h => exists_getElem?_of_forall₂ hrest h

namespace Tree

theorem toList_nodes_arena (tree : Tree) :
    tree.arena.nodes.toList = tree.sites.map (Site.node tree.number) := rfl

theorem map_id_nodes_arena (tree : Tree) :
    tree.arena.nodes.toList.map Arena.Node.id = tree.ids := by
  rw [toList_nodes_arena, List.map_map]
  rfl

/-- If no id comes twice, each is found. -/
theorem find?_arena {tree : Tree} (distinct : tree.ids.Nodup) (id : String) (index : Nat) :
    tree.arena.find? id = some index ↔ tree.arena.nodes[index]?.map Arena.Node.id = some id := by
  have hkeys : OrderedMap.keys tree.ids.zipIdx = tree.ids := List.zipIdx_map_fst ..
  have hnode : tree.arena.nodes[index]?.map Arena.Node.id = tree.ids[index]? := by
    rw [← map_id_nodes_arena, List.getElem?_map, Array.getElem?_toList]
  rw [hnode, ← List.mem_zipIdx_iff_getElem? (x := (id, index))]
  exact ⟨OrderedMap.mem_of_get?, OrderedMap.get?_of_mem (hkeys.symm ▸ distinct)⟩

/-- A tree is made of saved blocks, and no id comes twice in it. -/
structure MadeOf (tree : Tree) (blocks : List SavedBlock) : Prop where
  ids : tree.ids = idsFrom 0 (blocks.flatMap reached)
  distinct : tree.ids.Nodup
  roots : List.Forall₂ Root.Made (numbered 0 blocks) tree.roots
  sites : List.Forall₂ MakesSite (blocks.flatMap reached).zipIdx tree.sites

variable {blocks : List SavedBlock} {tree : Tree}

theorem madeOf_of_ofSaved (keyed : ∀ block ∈ blocks, block.wellKeyed = true)
    (h : ofSaved blocks = .ok tree) : tree.MadeOf blocks := by
  obtain ⟨rfl, distinct⟩ := ofSaved_eq_ok_iff.1 h
  obtain ⟨hroots, hsites⟩ := Root.made_ofSaved 0 keyed
  exact ⟨ids_ofSaved blocks, distinct, hroots, hsites⟩

namespace MadeOf

variable (made : tree.MadeOf blocks)
include made

theorem nodup_slots {site : Site} (h : site ∈ tree.sites) :
    (OrderedMap.keys site.block.slots).Nodup := by
  obtain ⟨index, hindex, rfl⟩ := List.mem_iff_getElem.1 h
  exact (made.sites.get (made.sites.length_eq ▸ hindex) hindex).2

theorem number_idFrom {saved : SavedBlock × Nat}
    (h : saved ∈ (blocks.flatMap reached).zipIdx) : tree.number (idFrom saved) = saved.2 := by
  have hat : tree.ids[saved.2]? = some (idFrom saved) := by
    rw [made.ids, idsFrom, List.getElem?_map, List.getElem?_zipIdx,
      List.mem_zipIdx_iff_getElem?.1 h, Nat.zero_add]
    rfl
  obtain ⟨hlt, heq⟩ := List.getElem?_eq_some_iff.1 hat
  exact heq ▸ made.distinct.idxOf_getElem saved.2 hlt

/-- The numbers of blocks that are made of linked ones are those by which they are linked. -/
theorem holds_map_number {linked : List (Nat × SavedBlock)} {chain : List Block}
    (hmakes : List.Forall₂ Makes linked chain)
    (hlinked : ∀ entry ∈ linked, (entry.2, entry.1) ∈ (blocks.flatMap reached).zipIdx) :
    Arena.Holds blocks (chain.map fun block => tree.number block.id) linked := by
  constructor
  · induction hmakes with
    | nil => rfl
    | @cons entry block linked chain hblock _ ih =>
      obtain ⟨hentry, hlinked⟩ := List.forall_mem_cons.1 hlinked
      have hid : block.id = idFrom (entry.2, entry.1) := by
        cases hblock
        rfl
      rw [List.map_cons, List.map_cons, ih hlinked, hid, made.number_idFrom hentry]
  · intro entry hentry
    exact List.mem_zipIdx_iff_getElem?.1 (hlinked entry hentry)

theorem holds_slotChildren {saved : SavedBlock × Nat}
    (h : saved ∈ (blocks.flatMap reached).zipIdx) (slot : String) :
    Arena.Holds blocks (tree.arena.slotChildren saved.2 slot)
      (linkedAt slot (saved.2 + 1) saved.1.inputs) := by
  have hat : (blocks.flatMap reached).zipIdx[saved.2]? = some saved := by
    rw [List.getElem?_zipIdx, List.mem_zipIdx_iff_getElem?.1 h, Nat.zero_add]
    rfl
  obtain ⟨site, hsite, hmakes⟩ := exists_getElem?_of_forall₂ made.sites hat
  rw [slotChildren_eq made.distinct (fun _ => made.nodup_slots) hsite]
  exact made.holds_map_number (makes_chain hmakes.1 slot) fun entry hentry =>
    closed_flatMap blocks 0 saved h (mem_zipIdx_of_mem_linkedAt hentry)

theorem holds_chain {entry : Nat × SavedBlock} (h : entry ∈ numbered 0 blocks) :
    Arena.Holds blocks (tree.arena.chain (some entry.1)) (linked entry.1 entry.2) := by
  obtain ⟨place, hplace⟩ := List.getElem?_of_mem h
  obtain ⟨root, hroot, hchain, -⟩ := exists_getElem?_of_forall₂ made.roots hplace
  have hholds := made.holds_map_number hchain fun linked hlinked =>
    zipIdx_subset_of_mem_numbered h (mem_zipIdx_of_mem_linked hlinked)
  have hhead : tree.number root.head.id = entry.1 := by
    obtain ⟨index, kind, id, x, y, fields, inputs, next⟩ := entry
    have hfirst := congrArg List.head? hholds.1
    rw [linked] at hfirst
    exact Option.some.inj hfirst
  rw [← hhead, chain_eq made.distinct (mem_sites_of_root (List.mem_of_getElem? hroot))]
  exact hhead ▸ hholds

end MadeOf

end Tree

end Made

namespace Arena

open SavedBlock

theorem exists_tree_of_ofSaved {blocks : List SavedBlock} {arena : Arena}
    (keyed : ∀ block ∈ blocks, block.wellKeyed = true) (hbuilt : ofSaved blocks = .ok arena) :
    ∃ tree, Tree.ofSaved blocks = .ok tree ∧ tree.arena = arena := by
  rw [ofSaved_eq_map keyed] at hbuilt
  cases htree : Tree.ofSaved blocks with
  | error id =>
    rw [htree] at hbuilt
    cases hbuilt
  | ok tree =>
    rw [htree] at hbuilt
    exact ⟨tree, rfl, Except.ok.inj hbuilt⟩

/-- The arena of saved blocks is an image of them, and its links agree with each other and lead
round no cycle. -/
theorem mirrors_ofSaved {blocks : List SavedBlock} {arena : Arena}
    (keyed : ∀ block ∈ blocks, block.wellKeyed = true) (hbuilt : ofSaved blocks = .ok arena) :
    arena.Mirrors blocks ∧ arena.Linked := by
  obtain ⟨hplaces, hroots⟩ := roots_of_ofSaved keyed hbuilt
  obtain ⟨tree, htree, rfl⟩ := exists_tree_of_ofSaved keyed hbuilt
  have made := Tree.madeOf_of_ofSaved keyed htree
  refine ⟨{
    nodes := ?_
    slots := fun _ hsaved slot => made.holds_slotChildren hsaved slot
    roots := ?_
    chains := fun _ hentry => ⟨made.holds_chain hentry, key_of_numbered hplaces hentry⟩
    ordered := (precedes_of_ofSaved hplaces hroots).imp fun h _ _ => h
    distinct := (Tree.map_id_nodes_arena tree).symm ▸ made.distinct
    find := Tree.find?_arena made.distinct },
    Tree.linked_arena made.distinct fun _ => made.nodup_slots⟩
  · rw [Tree.toList_nodes_arena, List.forall₂_map_right_iff]
    exact made.sites.imp fun _ _ hmakes => told_of_makes hmakes.1
  · rw [hroots, ← map_head_entriesFrom blocks 0 0]
    exact (List.mergeSort_perm _ _).map _

/-- A chain of three blocks in a program, the second with another one inside it and the last one a
shadow, and a definition that is read before the program. -/
def stacked : List SavedBlock := [
  { kind := .main
    x := some 0.0
    y := some 60.0
    inputs := [(SlotName.main, .of {
      kind := .send
      next := some (.of {
        kind := .restrict
        inputs := [(SlotName.scope, .of (.ofKind .termination))]
        next := some ⟨none, some (.ofKind .termination)⟩ }) })] },
  { kind := .globalName, id := some "name" }]

theorem mirrors_ofSaved_stacked :
    (∀ block ∈ stacked, block.wellKeyed = true) ∧
    ∃ arena, ofSaved stacked = .ok arena ∧ arena.Mirrors stacked ∧ arena.Linked ∧
      arena.nodes.size = 6 ∧ arena.roots = [5, 0] ∧
      arena.slotChildren 0 SlotName.main = [1, 2, 4] := by
  have keyed : ∀ block ∈ stacked, block.wellKeyed = true := by decide
  have hfacts : (ofSaved stacked).toOption.map (fun arena =>
      (arena.nodes.size, arena.roots, arena.slotChildren 0 SlotName.main)) =
        some (6, [5, 0], [1, 2, 4]) := by
    rw [ofSaved_eq_map keyed]
    decide +kernel
  cases hbuilt : ofSaved stacked with
  | error id => simp [hbuilt, Except.toOption] at hfacts
  | ok arena =>
    obtain ⟨hmirrors, hlinked⟩ := mirrors_ofSaved keyed hbuilt
    obtain ⟨hsize, hroots, hchildren⟩ : arena.nodes.size = 6 ∧ arena.roots = [5, 0] ∧
        arena.slotChildren 0 SlotName.main = [1, 2, 4] := by
      simpa [hbuilt, Except.toOption] using hfacts
    exact ⟨keyed, arena, rfl, hmirrors, hlinked, hsize, hroots, hchildren⟩

end Arena

end PiBlocks
