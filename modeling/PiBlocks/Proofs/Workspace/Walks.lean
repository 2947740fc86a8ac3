import PiBlocks.Proofs.Workspace.Nodes
import Mathlib.Data.List.Chain
import Mathlib.Data.List.Perm.Subperm

/-!
# Walks in an arena

Nothing about a vector of nodes keeps its links from leading round a cycle, so that a walk along
them ends is to be shown (`Arena.Follows`, `Arena.Ends`). In the arena of a tree a link leads to the
node of the site that the site of the first one is linked to (`Tree.Joins`). So what is known of
sites is known of nodes : their links agree with each other, and they lead to smaller numbers or to
larger ones (`Tree.linked_arena`).
-/

namespace PiBlocks

namespace Arena

/-! ## Walks -/

/-- The nodes that are met from a cursor on along links to the next node, up to one that has none.
All of them are there. -/
inductive Follows (arena : Arena) : Option Nat → List Nat → Prop
  | stop : Follows arena none []
  | step {node : Nat} {rest : List Nat} (hnode : node < arena.nodes.size)
      (hrest : Follows arena (arena.next? node) rest) : Follows arena (some node) (node :: rest)

/-- No walk along links visits more nodes than there are. -/
def Ends (arena : Arena) (links : Nat → Nat → Prop) : Prop :=
  ∀ walk : List Nat, (∀ node ∈ walk, node < arena.nodes.size) → walk.IsChain links →
    walk.length ≤ arena.nodes.size

variable {arena : Arena}

@[simp] theorem chain_none (arena : Arena) : arena.chain none = [] := by
  rw [chain]
  cases arena.nodes.size <;> rfl

theorem walk_eq_of_follows {cursor : Option Nat} {nodes : List Nat}
    (h : arena.Follows cursor nodes) : ∀ {steps : Nat}, nodes.length ≤ steps →
      arena.walk steps cursor = nodes := by
  induction h with
  | stop =>
    intro steps _
    cases steps <;> rfl
  | step hnode hrest ih =>
    intro steps hsteps
    cases steps with
    | zero => cases hsteps
    | succ steps => exact congrArg _ (ih (Nat.le_of_succ_le_succ hsteps))

theorem length_le_of_lt {size : Nat} {walk : List Nat} (hmem : ∀ node ∈ walk, node < size)
    (h : walk.IsChain (· < ·)) : walk.length ≤ size := by
  have hnodup : walk.Nodup := h.pairwise.imp fun hlt => hlt.ne
  have hsub : walk ⊆ List.range size := fun node hnode => List.mem_range.2 (hmem node hnode)
  simpa using (List.subperm_of_subset hnodup hsub).length_le

/-- Walks along links that lead to nodes with larger numbers end. -/
theorem ends_of_lt {links : Nat → Nat → Prop} (h : ∀ node other, links node other → node < other) :
    arena.Ends links := fun _ hmem hwalk => length_le_of_lt hmem (hwalk.imp fun _ _ => h _ _)

/-- So do walks along links that lead to nodes with smaller numbers. -/
theorem ends_of_gt {links : Nat → Nat → Prop} (h : ∀ node other, links node other → other < node) :
    arena.Ends links := fun walk hmem hwalk => by
  have hback : walk.reverse.IsChain (· < ·) :=
    List.isChain_reverse.2 (hwalk.imp fun _ _ => h _ _)
  simpa using length_le_of_lt (fun node hnode => hmem node (List.mem_reverse.1 hnode)) hback

theorem Follows.lt {cursor : Option Nat} {nodes : List Nat} (h : arena.Follows cursor nodes) :
    ∀ node ∈ nodes, node < arena.nodes.size := by
  induction h with
  | stop => exact List.forall_mem_nil _
  | step hnode _ ih => exact List.forall_mem_cons.2 ⟨hnode, ih⟩

theorem Follows.isChain {cursor : Option Nat} {nodes : List Nat} (h : arena.Follows cursor nodes) :
    nodes.IsChain fun node other => arena.next? node = some other := by
  induction h with
  | stop => exact .nil
  | @step node rest hnode hrest ih =>
    cases rest with
    | nil => exact .singleton node
    | cons other rest =>
      refine .cons_cons ?_ ih
      generalize arena.next? node = cursor at hrest
      cases hrest
      rfl

end Arena

/-! ## Links of the arena of a tree -/

theorem Block.get?_headsOf (number : String → Nat) (slot : String) :
    ∀ {slots : List (String × List Block)}, (OrderedMap.keys slots).Nodup →
      OrderedMap.get? slot (headsOf number slots) =
        ((OrderedMap.get? slot slots).getD []).head?.map fun head => number head.id
  | [], _ => rfl
  | (name, chain) :: slots, h => by
    obtain ⟨hnew, hslots⟩ := List.nodup_cons.1 h
    have hrest := get?_headsOf number slot hslots
    cases chain with
    | nil =>
      have hnone (heq : name = slot) : OrderedMap.get? slot slots = none :=
        OrderedMap.get?_eq_none_iff.2 (heq ▸ hnew)
      have hheads : headsOf number ((name, []) :: slots) = headsOf number slots := rfl
      rw [hheads, hrest, OrderedMap.get?]
      split_ifs with heq
      · rw [hnone heq]
        rfl
      · rfl
    | cons head rest =>
      have hheads : headsOf number ((name, head :: rest) :: slots) =
        (name, number head.id) :: headsOf number slots := rfl
      rw [hheads, OrderedMap.get?, OrderedMap.get?]
      split_ifs with heq
      · rfl
      · exact hrest

namespace Tree

variable {tree : Tree}

theorem nodes_arena (index : Nat) :
    tree.arena.nodes[index]? = tree.sites[index]?.map (Site.node tree.number) := by
  simp [arena]

theorem size_arena : tree.arena.nodes.size = tree.sites.length := by
  simp [arena]

/-- The number of the block a site is linked to. -/
def follow (tree : Tree) (link : Site → Option Block) (index : Nat) : Option Nat :=
  tree.sites[index]?.bind fun site => (link site).map fun block => tree.number block.id

/-- A link leads from the site with one number to the block of the site with another. -/
def Joins (tree : Tree) (link : Site → Option Block) (index target : Nat) : Prop :=
  ∃ site other, tree.sites[index]? = some site ∧ tree.sites[target]? = some other ∧
    link site = some other.block

theorem next?_arena (index : Nat) : tree.arena.next? index = tree.follow Site.next index := by
  rw [Arena.next?, nodes_arena, Option.bind_map]
  rfl

theorem previous?_arena (index : Nat) :
    tree.arena.previous? index = tree.follow Site.previous index := by
  rw [Arena.previous?, nodes_arena, Option.bind_map]
  rfl

theorem enclosing?_arena (index : Nat) :
    tree.arena.enclosing? index = tree.follow Site.owner index := by
  rw [Arena.enclosing?, nodes_arena, Option.bind_map]
  rfl

theorem parent?_arena (index : Nat) : tree.arena.parent? index = tree.follow Site.parent index := by
  rw [Arena.parent?, nodes_arena, Option.bind_map, follow]
  refine Option.bind_congr fun site _ => ?_
  rw [Site.parent_eq, Option.map_or]
  rfl

section Distinct

variable (distinct : tree.ids.Nodup)
  (hslots : ∀ site ∈ tree.sites, (OrderedMap.keys site.block.slots).Nodup)

include hslots in
theorem slotHead?_arena (index : Nat) (slot : String) :
    tree.arena.slotHead? index slot =
      tree.follow (fun site => (site.block.chain slot).head?) index := by
  rw [Arena.slotHead?, nodes_arena, Option.bind_map, follow]
  refine Option.bind_congr fun site hsite => ?_
  exact Block.get?_headsOf _ slot (hslots site (List.mem_of_getElem? hsite))

include hslots in
theorem slotChildren_of_none {index : Nat} (h : tree.sites[index]? = none) (slot : String) :
    tree.arena.slotChildren index slot = [] := by
  rw [Arena.slotChildren, slotHead?_arena hslots, follow, h, Option.bind_none, Arena.chain_none]

include distinct in
/-- Links between sites are followed to them. -/
theorem follow_eq_some_iff {link : Site → Option Block}
    (hinside : ∀ site ∈ tree.sites, ∀ block ∈ link site, ∃ other ∈ tree.sites, other.block = block)
    {index target : Nat} :
    tree.follow link index = some target ↔ tree.Joins link index target := by
  constructor
  · intro h
    obtain ⟨site, hsite, hlink⟩ := Option.bind_eq_some_iff.1 h
    obtain ⟨block, hblock, hnumber⟩ := Option.map_eq_some_iff.1 hlink
    obtain ⟨other, hother, rfl⟩ := hinside site (List.mem_of_getElem? hsite) block hblock
    obtain ⟨place, hplace⟩ := List.getElem?_of_mem hother
    rw [number_of_getElem? distinct hplace] at hnumber
    exact ⟨site, other, hsite, hnumber ▸ hplace, hblock⟩
  · rintro ⟨site, other, hsite, hother, hlink⟩
    rw [follow, hsite, Option.bind_some, hlink, Option.map_some,
      number_of_getElem? distinct hother]

theorem mem_roots_arena {index : Nat} :
    index ∈ tree.arena.roots ↔ ∃ root ∈ tree.roots, tree.number root.head.id = index := by
  simp [arena, mem_ordered]

include distinct in
theorem follow_iff {link : Site → Option Block}
    (hinside : ∀ site ∈ tree.sites, ∀ block ∈ link site, ∃ other ∈ tree.sites, other.block = block)
    {index target : Nat} {site other : Site} (hsite : tree.sites[index]? = some site)
    (hother : tree.sites[target]? = some other) :
    tree.follow link index = some target ↔ link site = some other.block := by
  rw [follow_eq_some_iff distinct hinside]
  constructor
  · rintro ⟨_, _, hfirst, hsecond, hlink⟩
    rw [hsite, Option.some.injEq] at hfirst
    rw [hother, Option.some.injEq] at hsecond
    rwa [hfirst, hsecond]
  · exact fun hlink => ⟨site, other, hsite, hother, hlink⟩

include distinct

variable {index target : Nat}

theorem next?_eq_some_iff :
    tree.arena.next? index = some target ↔ tree.Joins Site.next index target := by
  rw [next?_arena]
  exact follow_eq_some_iff distinct fun site hsite block hblock => mem_sites_of_next hsite hblock

theorem previous?_eq_some_iff :
    tree.arena.previous? index = some target ↔ tree.Joins Site.previous index target := by
  rw [previous?_arena]
  refine follow_eq_some_iff distinct fun site hsite block hblock => ?_
  obtain ⟨place, hplace⟩ := List.getElem?_of_mem hsite
  exact mem_sites_of_before (exists_previous_lt hplace hblock)

theorem enclosing?_eq_some_iff :
    tree.arena.enclosing? index = some target ↔ tree.Joins Site.owner index target := by
  rw [enclosing?_arena]
  refine follow_eq_some_iff distinct fun site hsite block hblock => ?_
  obtain ⟨place, hplace⟩ := List.getElem?_of_mem hsite
  exact mem_sites_of_before (exists_owner_lt hplace hblock)

theorem parent?_eq_some_iff :
    tree.arena.parent? index = some target ↔ tree.Joins Site.parent index target := by
  rw [parent?_arena]
  refine follow_eq_some_iff distinct fun site hsite block hblock => ?_
  obtain ⟨place, hplace⟩ := List.getElem?_of_mem hsite
  rw [Option.mem_def, Site.parent_eq, Option.or_eq_some_iff] at hblock
  rcases hblock with hprevious | ⟨-, howner⟩
  · exact mem_sites_of_before (exists_previous_lt hplace hprevious)
  · exact mem_sites_of_before (exists_owner_lt hplace howner)

include hslots in
theorem slotHead?_eq_some_iff {slot : String} : tree.arena.slotHead? index slot = some target ↔
    tree.Joins (fun site => (site.block.chain slot).head?) index target := by
  rw [slotHead?_arena hslots]
  exact follow_eq_some_iff distinct fun site hsite block hblock => mem_sites_of_slot hsite hblock

/-- A chain is followed from its head to its end. -/
theorem follows_chain : ∀ {block : Block} {followers : List Block} {trail : List Step},
    ⟨block, followers, trail⟩ ∈ tree.sites →
      tree.arena.Follows (some (tree.number block.id))
        ((block :: followers).map fun block => tree.number block.id)
  | block, followers, trail, h => by
    obtain ⟨place, hplace⟩ := List.getElem?_of_mem h
    have hnumber := number_of_getElem? distinct hplace
    refine .step (size_arena ▸ number_lt h) ?_
    rw [hnumber, next?_arena, follow, hplace, Option.bind_some]
    cases followers with
    | nil => exact .stop
    | cons next rest => exact follows_chain (mem_sites_of_leads h .next)

/-- A node is numbered as the block of its site. -/
theorem lt_of_number_lt {site other : Site} (hsite : tree.sites[index]? = some site)
    (hother : tree.sites[target]? = some other)
    (h : tree.number site.block.id < tree.number other.block.id) : index < target := by
  rwa [number_of_getElem? distinct hsite, number_of_getElem? distinct hother] at h

/-- Links down lead to larger numbers. -/
theorem lt_of_next? (h : tree.arena.next? index = some target) : index < target := by
  obtain ⟨site, other, hsite, hother, hnext⟩ := (next?_eq_some_iff distinct).1 h
  exact lt_of_number_lt distinct hsite hother (number_lt_of_down distinct
    (List.mem_of_getElem? hsite) (List.mem_of_getElem? hother) (.inl hnext))

/-- Links up lead to smaller ones. -/
theorem lt_of_previous? (h : tree.arena.previous? index = some target) : target < index := by
  obtain ⟨site, other, hsite, hother, hlink⟩ := (previous?_eq_some_iff distinct).1 h
  exact lt_of_number_lt distinct hother hsite
    (number_lt_of_previous distinct (List.mem_of_getElem? hsite) hlink)

theorem lt_of_enclosing? (h : tree.arena.enclosing? index = some target) : target < index := by
  obtain ⟨site, other, hsite, hother, hlink⟩ := (enclosing?_eq_some_iff distinct).1 h
  exact lt_of_number_lt distinct hother hsite
    (number_lt_of_owner distinct (List.mem_of_getElem? hsite) hlink)

theorem lt_of_parent? (h : tree.arena.parent? index = some target) : target < index := by
  obtain ⟨site, other, hsite, hother, hlink⟩ := (parent?_eq_some_iff distinct).1 h
  exact lt_of_number_lt distinct hother hsite
    (number_lt_of_parent distinct (List.mem_of_getElem? hsite) hlink)

theorem chain_eq {block : Block} {followers : List Block} {trail : List Step}
    (h : ⟨block, followers, trail⟩ ∈ tree.sites) :
    tree.arena.chain (some (tree.number block.id)) =
      (block :: followers).map fun block => tree.number block.id := by
  have hfollows := follows_chain distinct h
  exact Arena.walk_eq_of_follows hfollows (Arena.length_le_of_lt hfollows.lt
    (hfollows.isChain.imp fun _ _ => lt_of_next? distinct))

include hslots in
/-- What is found in a slot of a node is the chain in that slot of its block. -/
theorem slotChildren_eq {site : Site} (h : tree.sites[index]? = some site) (slot : String) :
    tree.arena.slotChildren index slot =
      (site.block.chain slot).map fun block => tree.number block.id := by
  rw [Arena.slotChildren, slotHead?_arena hslots, follow, h, Option.bind_some]
  cases hchain : site.block.chain slot with
  | nil => exact Arena.chain_none _
  | cons head rest => exact chain_eq distinct (mem_sites_of_chain (List.mem_of_getElem? h) hchain)

include hslots in
theorem lt_of_mem_slotChildren {slot : String}
    (h : target ∈ tree.arena.slotChildren index slot) : index < target := by
  cases hsite : tree.sites[index]? with
  | none => simp [slotChildren_of_none hslots hsite] at h
  | some site =>
    rw [slotChildren_eq distinct hslots hsite] at h
    obtain ⟨block, hblock, rfl⟩ := List.mem_map.1 h
    have hmem := List.mem_of_getElem? hsite
    obtain ⟨other, hother, rfl, -⟩ := exists_mem_slot hmem hblock
    have hlt := number_lt_of_down distinct hmem hother (.inr ⟨slot, hblock⟩)
    rwa [number_of_getElem? distinct hsite] at hlt

/-! ### How links agree -/

/-- The next node is the one that has this one before it. -/
theorem next?_iff_previous? :
    tree.arena.next? index = some target ↔ tree.arena.previous? target = some index := by
  rw [next?_eq_some_iff distinct, previous?_eq_some_iff distinct]
  constructor
  · rintro ⟨site, behind, hsite, hbehind, hlink⟩
    exact ⟨behind, site, hbehind, hsite, (next_iff_previous distinct (List.mem_of_getElem? hsite)
      (List.mem_of_getElem? hbehind)).1 hlink⟩
  · rintro ⟨behind, site, hbehind, hsite, hlink⟩
    exact ⟨site, behind, hsite, hbehind, (next_iff_previous distinct (List.mem_of_getElem? hsite)
      (List.mem_of_getElem? hbehind)).2 hlink⟩

/-- It has the same owner. -/
theorem enclosing?_of_next? (h : tree.arena.next? index = some target) :
    tree.arena.enclosing? target = tree.arena.enclosing? index := by
  obtain ⟨site, behind, hsite, hbehind, hlink⟩ := (next?_eq_some_iff distinct).1 h
  rw [enclosing?_arena, enclosing?_arena, follow, follow, hsite, hbehind, Option.bind_some,
    Option.bind_some, owner_eq_of_next distinct (List.mem_of_getElem? hsite)
      (List.mem_of_getElem? hbehind) hlink]

include hslots in
/-- The head of the chain in a slot has none before it and is owned by the node of the slot. -/
theorem begins_of_slotHead? {slot : String} (h : tree.arena.slotHead? index slot = some target) :
    tree.arena.previous? target = none ∧ tree.arena.enclosing? target = some index := by
  obtain ⟨site, other, hsite, hother, hhead⟩ := (slotHead?_eq_some_iff distinct hslots).1 h
  obtain ⟨rest, hchain⟩ := List.head?_eq_some_iff.1 hhead
  have hbehind := mem_sites_of_chain (List.mem_of_getElem? hsite) hchain
  have hsame := eq_of_block_eq distinct hbehind (List.mem_of_getElem? hother) rfl
  rw [← hsame] at hother
  constructor
  · rw [previous?_arena, follow, hother]
    rfl
  · exact (enclosing?_eq_some_iff distinct).2 ⟨_, site, hother, hsite, rfl⟩

include hslots in
/-- A node with none before it begins the chain in one slot of its owner, or one of the top
level. -/
theorem slotHead?_or_mem_roots (h : index < tree.arena.nodes.size)
    (hprevious : tree.arena.previous? index = none) :
    (∃ owner, tree.arena.enclosing? index = some owner ∧
      ∃! slot, tree.arena.slotHead? owner slot = some index) ∨
      tree.arena.enclosing? index = none ∧ index ∈ tree.arena.roots := by
  rw [size_arena] at h
  obtain ⟨site, hsite⟩ : ∃ site, tree.sites[index]? = some site := ⟨_, List.getElem?_eq_getElem h⟩
  rw [previous?_arena, follow, hsite, Option.bind_some, Option.map_eq_none_iff] at hprevious
  rcases begins_or_led hsite with ⟨root, hroot, rfl⟩ | ⟨place, -, before, hbefore, hleads⟩
  · refine .inr ⟨?_, mem_roots_arena.2 ⟨root, hroot, number_of_getElem? distinct hsite⟩⟩
    rw [enclosing?_arena, follow, hsite]
    rfl
  · cases hleads with
    | next => cases hprevious
    | @slot block head followers rest trail slot hslot =>
      have howner := List.mem_of_getElem? hbefore
      have hiff (slot : String) : tree.arena.slotHead? place slot = some index ↔
          (block.chain slot).head? = some head := by
        rw [slotHead?_arena hslots]
        exact follow_iff distinct (fun site hsite block hblock => mem_sites_of_slot hsite hblock)
          hbefore hsite
      refine .inl ⟨place, (enclosing?_eq_some_iff distinct).2 ⟨_, _, hsite, hbefore, rfl⟩, ?_⟩
      simp only [hiff]
      exact existsUnique_slot distinct howner (hslots _ howner) hslot

/-- A head of the top level has none before it and no owner. -/
theorem begins_of_mem_roots (h : index ∈ tree.arena.roots) :
    index < tree.arena.nodes.size ∧ tree.arena.previous? index = none ∧
      tree.arena.enclosing? index = none := by
  obtain ⟨root, hroot, rfl⟩ := mem_roots_arena.1 h
  obtain ⟨place, hplace⟩ := List.getElem?_of_mem (mem_sites_of_root hroot)
  rw [number_of_getElem? distinct hplace, previous?_arena, enclosing?_arena, follow, follow,
    hplace, size_arena]
  exact ⟨(List.getElem?_eq_some_iff.1 hplace).1, rfl, rfl⟩

theorem nodup_roots_arena : tree.arena.roots.Nodup := by
  have hheads : (tree.ordered.map fun root => root.head.id).Nodup :=
    ((tree.ordered_perm.map fun root => root.head.id).nodup_iff).2 (nodup_heads distinct)
  have hroots : tree.arena.roots =
      (tree.ordered.map fun root => root.head.id).map tree.number := by
    rw [List.map_map]
    rfl
  rw [hroots]
  refine hheads.map_on fun id hid other _ heq => ?_
  obtain ⟨root, hroot, rfl⟩ := List.mem_map.1 hid
  have hknown : root.head.id ∈ tree.ids :=
    List.mem_map_of_mem (mem_sites_of_root ((mem_ordered _).1 hroot))
  exact (List.idxOf_inj hknown).1 heq

/-- A walk along a chain ends at a node with none behind it. -/
theorem follows_of_lt_size (h : index < tree.arena.nodes.size) :
    tree.arena.Follows (some index) (tree.arena.chain (some index)) := by
  rw [size_arena] at h
  obtain ⟨site, hsite⟩ : ∃ site, tree.sites[index]? = some site := ⟨_, List.getElem?_eq_getElem h⟩
  have hmem := List.mem_of_getElem? hsite
  rw [← number_of_getElem? distinct hsite, chain_eq distinct hmem]
  exact follows_chain distinct hmem

end Distinct

end Tree

namespace Arena

/-- What the links of an arena say of each other. -/
structure Linked (arena : Arena) : Prop where
  /-- a link to the node before is one to a smaller number -/
  previous : ∀ node before, arena.previous? node = some before → before < node
  /-- a link to the owner is one to a smaller number -/
  owner : ∀ node owner, arena.enclosing? node = some owner → owner < node
  /-- links to the next node and to the one before are inverse, so the next one is there -/
  next_iff : ∀ node other, arena.next? node = some other ↔ arena.previous? other = some node
  /-- the nodes of a chain have one owner -/
  owner_of_next : ∀ node other, arena.next? node = some other →
    arena.enclosing? other = arena.enclosing? node
  /-- the head of the chain in a slot is a node with none before it, owned by that of the slot -/
  slot : ∀ node slot head, arena.slotHead? node slot = some head →
    arena.previous? head = none ∧ arena.enclosing? head = some node
  /-- a node with none before it is the head of one slot of its owner, or has none and is the
  head of a chain of the top level -/
  head : ∀ node < arena.nodes.size, arena.previous? node = none →
    (∃ owner, arena.enclosing? node = some owner ∧
      ∃! slot, arena.slotHead? owner slot = some node) ∨
      arena.enclosing? node = none ∧ node ∈ arena.roots
  /-- a head of the top level has none before it and no owner -/
  root : ∀ node ∈ arena.roots, node < arena.nodes.size ∧ arena.previous? node = none ∧
    arena.enclosing? node = none
  distinct : arena.roots.Nodup
  /-- a walk along a chain ends at a node with none behind it -/
  chain : ∀ node < arena.nodes.size, arena.Follows (some node) (arena.chain (some node))
  /-- a walk along chains and into slots ends -/
  down : arena.Ends fun node other =>
    arena.next? node = some other ∨ ∃ slot, other ∈ arena.slotChildren node slot
  /-- a walk back ends -/
  up : arena.Ends fun node other => arena.parent? node = some other

end Arena

namespace Tree

variable {tree : Tree}

/-- In the arena of a tree in which no id comes twice, and no slot, the links agree with each other
and no walk along them comes back. -/
theorem linked_arena (distinct : tree.ids.Nodup)
    (hslots : ∀ site ∈ tree.sites, (OrderedMap.keys site.block.slots).Nodup) :
    tree.arena.Linked where
  previous _ _ := lt_of_previous? distinct
  owner _ _ := lt_of_enclosing? distinct
  next_iff _ _ := next?_iff_previous? distinct
  owner_of_next _ _ := enclosing?_of_next? distinct
  slot _ _ _ := begins_of_slotHead? distinct hslots
  head _ := slotHead?_or_mem_roots distinct hslots
  root _ := begins_of_mem_roots distinct
  distinct := nodup_roots_arena distinct
  chain _ := follows_of_lt_size distinct
  down := Arena.ends_of_lt fun _ _ h => by
    rcases h with hnext | ⟨slot, hslot⟩
    · exact lt_of_next? distinct hnext
    · exact lt_of_mem_slotChildren distinct hslots hslot
  up := Arena.ends_of_gt fun _ _ => lt_of_parent? distinct

end Tree

end PiBlocks
