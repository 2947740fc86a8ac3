import PiBlocks.Proofs.Block.Links
import PiBlocks.Proofs.Workspace.Insertion

/-!
# Nodes and sites

The arena of saved blocks is that of their tree (`Arena.ofSaved_eq_map`) : it has one node for each
site, in the same order, and its links are the numbers of the blocks that the site is linked to
(`Site.node`).
-/

namespace PiBlocks

namespace Site

/-- The block a trail leads to first, if that is in the same chain. -/
def previousOn : List Step → Option Block
  | .previous block :: _ => some block
  | _ => none

theorem previous_eq (site : Site) : site.previous = previousOn site.trail := by
  obtain ⟨block, followers, _ | ⟨_ | _, trail⟩⟩ := site <;> rfl

/-- The node of a site, its links being the numbers of ids. -/
def node (number : String → Nat) (site : Site) : Arena.Node where
  id := site.block.id
  kind := site.block.kind
  fields := site.block.fields
  slots := Block.headsOf number site.block.slots
  owner := site.owner.map fun block => number block.id
  previous := site.previous.map fun block => number block.id
  next := site.next.map fun block => number block.id

end Site

namespace Block

variable (number : String → Nat)

mutual

theorem map_node_sitesBelow (trail : List Step) : ∀ block : Block,
    (sitesBelow trail block).map (Site.node number) = nodesBelow number block
  | .mk id kind fields slots => by
    rw [sitesBelow, nodesBelow]
    exact map_node_sitesInSlots _ slots

theorem map_node_sitesInSlots {owner : Block} (trail : List Step) :
    ∀ slots : List (String × List Block),
      (sitesInSlots (.owner owner :: trail) slots).map (Site.node number) =
        nodesInSlots number (some (number owner.id)) slots
  | [] => by
    rw [sitesInSlots, nodesInSlots]
    rfl
  | (_, chain) :: slots => by
    rw [sitesInSlots, nodesInSlots, List.map_append, map_node_sitesInSlots trail slots,
      map_node_sitesOf _ chain]
    rfl

/-- The nodes of the sites of a chain are those of the chain. -/
theorem map_node_sitesOf (trail : List Step) : ∀ chain : List Block,
    (sitesOf trail chain).map (Site.node number) =
      nodesOf number ((Site.firstOwner trail).map fun block => number block.id)
        ((Site.previousOn trail).map fun block => number block.id) chain
  | [] => by
    rw [sitesOf, nodesOf]
    rfl
  | block :: rest => by
    rw [sitesOf, nodesOf, List.map_cons, List.map_append, map_node_sitesBelow _ block,
      map_node_sitesOf _ rest, Site.node, Site.previous_eq]
    rfl

end

end Block

/-! ## The arena of a tree -/

/-- The arena with a node for each site of a tree. -/
def Tree.arena (tree : Tree) : Arena where
  nodes := (tree.sites.map (Site.node tree.number)).toArray
  roots := tree.ordered.map fun root => tree.number root.head.id
  byId := tree.ids.zipIdx
  places := (tree.roots.filterMap fun root =>
    root.place.map fun place => (tree.number root.head.id, place)).reverse

theorem numbers_idxOf {ids : List String} (h : ids.Nodup) : Numbers ids.idxOf 0 ids := by
  refine List.ext_getElem (by simp) fun index hindex _ => ?_
  have hat : index < ids.length := by simpa using hindex
  simp [h.idxOf_getElem index hat]

theorem SavedBlock.key_eq_root (block : SavedBlock) (head : Block) (rest : List Block) :
    block.key = (⟨head, rest, block.place⟩ : Root).key := by
  rw [key, Root.key]
  cases block.place with
  | none => rfl
  | some place => rfl

namespace Arena

open SavedBlock

/-- The entry of a chain of the top level with its number in the file. -/
def Entry.ofRoot (number : String → Nat) (root : Root × Nat) : Entry :=
  ⟨root.1.key, root.2, number root.1.head.id⟩

section

variable {number : String → Nat}

theorem numbers_flatMap {block : SavedBlock} {blocks : List SavedBlock} {index : Nat}
    (h : Numbers number index (idsFrom index ((block :: blocks).flatMap reached))) :
    number (block.toChain.run index).1.1.id = index ∧
      Numbers number (index + block.reached.length)
        (idsFrom (index + block.reached.length) (blocks.flatMap reached)) := by
  rw [List.flatMap_cons, idsFrom_append] at h
  obtain ⟨hhead, hrest⟩ := numbers_append.1 h
  exact ⟨number_head hhead, length_idsFrom index block.reached ▸ hrest⟩

theorem entriesFrom_eq : ∀ {blocks : List SavedBlock} {order index : Nat},
    Numbers number index (idsFrom index (blocks.flatMap reached)) →
      entriesFrom order index blocks =
        (((Root.ofSaved blocks).run index).1.zipIdx order).map (Entry.ofRoot number)
  | [], _, _, _ => rfl
  | block :: blocks, order, index, h => by
    obtain ⟨hhead, hrest⟩ := numbers_flatMap h
    rw [entriesFrom, entriesFrom_eq hrest, run_ofSaved_cons, List.zipIdx_cons, List.map_cons,
      Entry.ofRoot, hhead, ← key_eq_root]

theorem placesFrom_eq : ∀ {blocks : List SavedBlock} {index : Nat},
    Numbers number index (idsFrom index (blocks.flatMap reached)) →
      placesFrom index blocks = (((Root.ofSaved blocks).run index).1.filterMap fun root =>
        root.place.map fun place => (number root.head.id, place)).reverse
  | [], _, _ => rfl
  | block :: blocks, index, h => by
    obtain ⟨hhead, hrest⟩ := numbers_flatMap h
    rw [placesFrom, placesFrom_eq hrest, run_ofSaved_cons]
    cases hplace : block.place with
    | none => simp
    | some place => simp [hhead]

end

/-! ### Reading order -/

theorem Entry.le_iff {entry other : Entry} : entry.le other = true ↔
    Float.rank entry.key < Float.rank other.key ∨
      Float.rank entry.key = Float.rank other.key ∧ entry.order ≤ other.order := by
  simp [Entry.le]

theorem Entry.le_trans (entry other third : Entry) (h : entry.le other = true)
    (h' : other.le third = true) : entry.le third = true := by
  rw [Entry.le_iff] at h h' ⊢
  omega

theorem Entry.le_total (entry other : Entry) : (entry.le other || other.le entry) = true := by
  rw [Bool.or_eq_true, Entry.le_iff, Entry.le_iff]
  omega

/-- Sorted entries are those of the chains in reading order. -/
theorem map_head_mergeSort (number : String → Nat) (roots : List Root) :
    ((roots.zipIdx.map (Entry.ofRoot number)).mergeSort Entry.le).map Entry.head =
      (Root.sort roots).map fun root => number root.head.id := by
  obtain ⟨placed, hperm, hmap, hplaced⟩ :=
    Root.exists_foldl_insertSorted roots 0 List.Pairwise.nil (List.forall_mem_nil _)
  have hsort : placed.map Prod.fst = Root.sort roots := hmap
  have hsorted : (placed.map (Entry.ofRoot number)).Pairwise fun entry other =>
      entry.le other = true :=
    List.pairwise_map.2 (hplaced.imp fun h =>
      Entry.le_iff.2 (h.imp_right fun ⟨heq, hlt⟩ => ⟨heq, hlt.le⟩))
  have hmerged := List.mergeSort_perm (roots.zipIdx.map (Entry.ofRoot number)) Entry.le
  have hsame : (roots.zipIdx.map (Entry.ofRoot number)).mergeSort Entry.le =
      placed.map (Entry.ofRoot number) := by
    refine List.Perm.eq_of_pairwise (fun entry other hentry hother hle hge => ?_)
      (List.pairwise_mergeSort Entry.le_trans Entry.le_total _) hsorted
      (hmerged.trans (hperm.map _).symm)
    -- entries that may come in either order have the same number in the file
    obtain ⟨⟨root, order⟩, hroot, rfl⟩ := List.mem_map.1 (hmerged.mem_iff.1 hentry)
    obtain ⟨⟨root', order'⟩, hroot', rfl⟩ := List.mem_map.1 hother
    have hat := List.mem_zipIdx_iff_getElem?.1 hroot
    have hat' := List.mem_zipIdx_iff_getElem?.1 (hperm.mem_iff.1 hroot')
    obtain rfl : order = order' := by
      simp only [Entry.le_iff, Entry.ofRoot] at hle hge
      omega
    obtain rfl : root = root' := Option.some.inj (hat.symm.trans hat')
    rfl
  rw [hsame, ← hsort, List.map_map, List.map_map]
  rfl

/-- What has been filled with all chains is the arena of the tree. -/
theorem eq_arena_of_grown {blocks : List SavedBlock} {after : Arena} {tree : Tree}
    (htree : tree = { roots := ((Root.ofSaved blocks).run 0).1 }) (distinct : tree.ids.Nodup)
    (hgrown : Grown {} (idsFrom 0 (blocks.flatMap reached)) (placesFrom 0 blocks)
      (fun number => ((Root.ofSaved blocks).run 0).1.flatMap fun root =>
        Block.nodesOf number none none root.chain) after) :
    { after with roots := ((entriesFrom 0 0 blocks).mergeSort Entry.le).map Entry.head } =
      tree.arena := by
  have hids : tree.ids = idsFrom 0 (blocks.flatMap reached) := htree ▸ Tree.ids_ofSaved blocks
  have hroots : ((Root.ofSaved blocks).run 0).1 = tree.roots := by rw [htree]
  have hnumbers : Numbers tree.number 0 (idsFrom 0 (blocks.flatMap reached)) :=
    hids ▸ numbers_idxOf distinct
  have hnodes : after.nodes = (tree.sites.map (Site.node tree.number)).toArray := by
    rw [← Array.toList_inj, hgrown.nodes _ hnumbers, hroots, Tree.sites, List.map_flatMap]
    exact List.flatMap_congr fun root _ => (Block.map_node_sitesOf tree.number [] root.chain).symm
  have hordered : ((entriesFrom 0 0 blocks).mergeSort Entry.le).map Entry.head =
      tree.ordered.map fun root => tree.number root.head.id := by
    rw [entriesFrom_eq hnumbers, map_head_mergeSort, hroots]
    rfl
  have hplaces := hgrown.places
  rw [placesFrom_eq hnumbers, hroots] at hplaces
  rw [hordered, hnodes, hgrown.byId, hplaces, ← hids, List.append_nil]
  rfl

/-- Saved blocks make the arena of their tree, and an id that comes twice is refused by both. -/
theorem ofSaved_eq_map {blocks : List SavedBlock}
    (keyed : ∀ block ∈ blocks, block.wellKeyed = true) :
    ofSaved blocks = (Tree.ofSaved blocks).map Tree.arena := by
  have hids := Tree.ids_ofSaved blocks
  rw [Tree.ofSaved]
  cases hrepeated : firstRepeated [] (idsFrom 0 (blocks.flatMap reached)) with
  | some id =>
    rw [ofSaved_eq_error keyed hrepeated]
    simp only [hids, hrepeated]
    rfl
  | none =>
    obtain ⟨filled, hgrown, hfilled⟩ := exists_ofSaved_eq_ok keyed hrepeated
    rw [hfilled]
    simp only [hids, hrepeated]
    exact congrArg Except.ok (eq_arena_of_grown rfl
      (hids ▸ (firstRepeated_eq_none_iff.1 hrepeated).1) hgrown)

end Arena

end PiBlocks
