import PiBlocks.Proofs.Block.Sites
import PiBlocks.Proofs.Maps
import PiBlocks.Workspace.Tree
import Mathlib.Data.List.Flatten
import Mathlib.Data.List.Nodup

/-!
# Links between sites

A site tells its links by blocks : the one before it, the one behind it, the owner of its slot. In
a tree in which no id comes twice a block has one site, so these are links between sites. Following
one down, to the next block or into a slot, leads to another site (`mem_sitesOf_of_leads`), and in
the order of the file every site that begins no chain of the top level comes behind one that leads
to it (`Block.led_sitesOf`). That is all it takes : the links agree with each other
(`Tree.next_iff_previous`, `Tree.owner_eq_of_next`), and they go one way in the order of the sites
(`Tree.number_lt_of_down`, `Tree.number_lt_of_parent`).
-/

namespace PiBlocks

theorem Site.parent_eq (site : Site) : site.parent = site.previous.or site.owner := by
  obtain ⟨block, followers, _ | ⟨_ | _, trail⟩⟩ := site <;> rfl

/-- One link down, to the next block of the chain or to the first of a chain in a slot. -/
inductive Site.Leads : Site → Site → Prop
  | next {block follower : Block} {rest : List Block} {trail : List Step} :
      Leads ⟨block, follower :: rest, trail⟩ ⟨follower, rest, .previous block :: trail⟩
  | slot {block head : Block} {followers rest : List Block} {trail : List Step} {slot : String}
      (h : (slot, head :: rest) ∈ block.slots) :
      Leads ⟨block, followers, trail⟩ ⟨head, rest, .owner block :: trail⟩

/-- Every site of the second list may begin a chain, or a site before it or in the first list leads
to it. -/
def Led (begins : Site → Prop) : List Site → List Site → Prop
  | _, [] => True
  | known, site :: rest =>
    (begins site ∨ ∃ before ∈ known, before.Leads site) ∧ Led begins (site :: known) rest

section

variable {begins : Site → Prop}

theorem Led.mono : ∀ {sites known more : List Site}, Led begins known sites → known ⊆ more →
    Led begins more sites
  | [], _, _, _, _ => trivial
  | site :: _, _, _, ⟨hsite, hrest⟩, hsub =>
    ⟨hsite.imp_right fun ⟨before, hbefore, hleads⟩ => ⟨before, hsub hbefore, hleads⟩,
      hrest.mono (List.cons_subset_cons site hsub)⟩

theorem Led.append : ∀ {sites more known : List Site}, Led begins known sites →
    Led begins known more → Led begins known (sites ++ more)
  | [], _, _, _, hmore => hmore
  | site :: _, _, _, ⟨hsite, hrest⟩, hmore =>
    ⟨hsite, hrest.append (hmore.mono (List.subset_cons_self site _))⟩

/-- The site that leads to another is known or comes before it. -/
theorem Led.getElem? : ∀ {sites known : List Site} {index : Nat} {site : Site},
    Led begins known sites → sites[index]? = some site →
      begins site ∨ (∃ before ∈ known, before.Leads site) ∨
        ∃ place < index, ∃ before, sites[place]? = some before ∧ before.Leads site
  | _ :: _, _, 0, _, ⟨hfirst, _⟩, rfl => hfirst.imp_right .inl
  | first :: _, _, index + 1, site, ⟨_, hrest⟩, hget => by
    rcases hrest.getElem? hget with hbegins | ⟨before, hbefore, hleads⟩ | ⟨place, hlt, hplace⟩
    · exact .inl hbegins
    · rcases List.mem_cons.1 hbefore with rfl | hknown
      · exact .inr (.inr ⟨0, index.succ_pos, before, rfl, hleads⟩)
      · exact .inr (.inl ⟨before, hknown, hleads⟩)
    · exact .inr (.inr ⟨place + 1, Nat.succ_lt_succ hlt, hplace⟩)

end

namespace Block

section

variable {begins : Site → Prop}

mutual

theorem led_sitesBelow {followers : List Block} : ∀ (block : Block) {trail : List Step}
    {known : List Site}, ⟨block, followers, trail⟩ ∈ known →
      Led begins known (sitesBelow trail block)
  | .mk id kind fields slots, trail, known, h => by
    rw [sitesBelow]
    exact led_sitesInSlots slots fun _ _ _ hslot => ⟨_, h, .slot hslot⟩

theorem led_sitesInSlots : ∀ (slots : List (String × List Block)) {trail : List Step}
    {known : List Site}, (∀ slot head rest, (slot, head :: rest) ∈ slots →
      ∃ before ∈ known, before.Leads ⟨head, rest, trail⟩) →
        Led begins known (sitesInSlots trail slots)
  | [], _, _, _ => by
    rw [sitesInSlots]
    trivial
  | (slot, chain) :: slots, trail, known, h => by
    rw [sitesInSlots]
    refine .append (led_sitesOf chain fun head rest hchain => .inr ?_)
      (led_sitesInSlots slots fun name head rest hslot => h name head rest ?_)
    · exact h slot head rest (by rw [hchain]; exact List.mem_cons_self)
    · exact List.mem_cons_of_mem _ hslot

/-- Each site of a chain but the first comes behind one that leads to it. -/
theorem led_sitesOf : ∀ (chain : List Block) {trail : List Step} {known : List Site},
    (∀ head rest, chain = head :: rest → begins ⟨head, rest, trail⟩ ∨
      ∃ before ∈ known, before.Leads ⟨head, rest, trail⟩) → Led begins known (sitesOf trail chain)
  | [], _, _, _ => by
    rw [sitesOf]
    trivial
  | block :: rest, trail, known, h => by
    rw [sitesOf]
    refine ⟨h block rest rfl, .append (led_sitesBelow block List.mem_cons_self)
      (led_sitesOf rest fun follower behind hrest => .inr ?_)⟩
    subst hrest
    exact ⟨_, List.mem_cons_self, .next⟩

end

end

theorem sitesOf_subset_sitesInSlots {slot : String} {chain : List Block} (trail : List Step) :
    ∀ {slots : List (String × List Block)}, (slot, chain) ∈ slots →
      sitesOf trail chain ⊆ sitesInSlots trail slots
  | (name, first) :: slots, h => by
    rw [sitesInSlots]
    rcases List.mem_cons.1 h with heq | h
    · cases heq
      exact List.subset_append_left _ _
    · exact List.Subset.trans (sitesOf_subset_sitesInSlots trail h) (List.subset_append_right _ _)

mutual

theorem mem_sitesBelow_of_leads {site other : Site} : ∀ (block : Block) {trail : List Step},
    site ∈ sitesBelow trail block → site.Leads other → other ∈ sitesBelow trail block
  | .mk id kind fields slots, trail, h, hleads => by
    rw [sitesBelow] at h ⊢
    exact mem_sitesInSlots_of_leads slots h hleads

theorem mem_sitesInSlots_of_leads {site other : Site} : ∀ (slots : List (String × List Block))
    {trail : List Step}, site ∈ sitesInSlots trail slots → site.Leads other →
      other ∈ sitesInSlots trail slots
  | [], _, h, _ => by simp [sitesInSlots] at h
  | (_, chain) :: slots, trail, h, hleads => by
    rw [sitesInSlots, List.mem_append] at h ⊢
    exact h.imp (mem_sitesOf_of_leads chain · hleads) (mem_sitesInSlots_of_leads slots · hleads)

/-- Links lead from sites of a chain to sites of the chain. -/
theorem mem_sitesOf_of_leads {site other : Site} : ∀ (chain : List Block) {trail : List Step},
    site ∈ sitesOf trail chain → site.Leads other → other ∈ sitesOf trail chain
  | [], _, h, _ => by simp [sitesOf] at h
  | block :: rest, trail, h, hleads => by
    rw [sitesOf, List.mem_cons, List.mem_append] at h ⊢
    rcases h with rfl | h | h
    · cases hleads with
      | next => exact .inr (.inr (by rw [sitesOf]; exact List.mem_cons_self))
      | slot hslot =>
        obtain ⟨id, kind, fields, slots⟩ := block
        refine .inr (.inl ?_)
        rw [sitesBelow]
        exact sitesOf_subset_sitesInSlots _ hslot (by rw [sitesOf]; exact List.mem_cons_self)
    · exact .inr (.inl (mem_sitesBelow_of_leads block h hleads))
    · exact .inr (.inr (mem_sitesOf_of_leads rest h hleads))

end

mutual

theorem sitesBelow_sublist_sitesBelow {site : Site} : ∀ (block : Block) {trail : List Step},
    site ∈ sitesBelow trail block →
      (sitesBelow site.trail site.block).Sublist (sitesBelow trail block)
  | .mk id kind fields slots, trail, h => by
    simp only [sitesBelow] at h ⊢
    exact sitesBelow_sublist_sitesInSlots slots h

theorem sitesBelow_sublist_sitesInSlots {site : Site} : ∀ (slots : List (String × List Block))
    {trail : List Step}, site ∈ sitesInSlots trail slots →
      (sitesBelow site.trail site.block).Sublist (sitesInSlots trail slots)
  | [], _, h => by simp [sitesInSlots] at h
  | (_, chain) :: slots, trail, h => by
    rw [sitesInSlots, List.mem_append] at h
    rw [sitesInSlots]
    rcases h with h | h
    · exact (sitesBelow_sublist_sitesOf chain h).trans (List.sublist_append_left _ _)
    · exact (sitesBelow_sublist_sitesInSlots slots h).trans (List.sublist_append_right _ _)

/-- The sites below a site of a chain are among those of the chain, in the same order. -/
theorem sitesBelow_sublist_sitesOf {site : Site} : ∀ (chain : List Block) {trail : List Step},
    site ∈ sitesOf trail chain →
      (sitesBelow site.trail site.block).Sublist (sitesOf trail chain)
  | [], _, h => by simp [sitesOf] at h
  | block :: rest, trail, h => by
    rw [sitesOf, List.mem_cons, List.mem_append] at h
    rw [sitesOf]
    refine List.Sublist.cons _ ?_
    rcases h with rfl | h | h
    · exact List.sublist_append_left _ _
    · exact (sitesBelow_sublist_sitesBelow block h).trans (List.sublist_append_left _ _)
    · exact (sitesBelow_sublist_sitesOf rest h).trans (List.sublist_append_right _ _)

end

theorem id_mem_of_get? {slot : String} {head : Block} {rest : List Block} (trail : List Step) :
    ∀ {slots : List (String × List Block)}, OrderedMap.get? slot slots = some (head :: rest) →
      head.id ∈ (sitesInSlots trail slots).map fun site => site.block.id := by
  intro slots h
  refine List.mem_map.2 ⟨⟨head, rest, trail⟩,
    sitesOf_subset_sitesInSlots trail (OrderedMap.mem_of_get? h) ?_, rfl⟩
  rw [sitesOf]
  exact List.mem_cons_self

/-- If no id comes twice, a block begins the chain of one slot only. -/
theorem slot_unique {first second : String} {head other : Block} {rest behind : List Block}
    (hid : head.id = other.id) (trail : List Step) : ∀ {slots : List (String × List Block)},
      ((sitesInSlots trail slots).map fun site => site.block.id).Nodup →
        OrderedMap.get? first slots = some (head :: rest) →
          OrderedMap.get? second slots = some (other :: behind) → first = second
  | (name, chain) :: slots, distinct, hfirst, hsecond => by
    rw [sitesInSlots, List.map_append, List.nodup_append] at distinct
    obtain ⟨-, hslots, hapart⟩ := distinct
    have hhead {block : Block} {more : List Block} (hchain : chain = block :: more) :
        block.id ∈ (sitesOf trail chain).map fun site => site.block.id := by
      simp [hchain, sitesOf]
    rw [OrderedMap.get?] at hfirst hsecond
    split_ifs at hfirst hsecond with h h' h'
    · exact h.symm.trans h'
    · exact absurd hid
        (hapart _ (hhead (Option.some.inj hfirst)) _ (id_mem_of_get? trail hsecond))
    · exact absurd hid.symm
        (hapart _ (hhead (Option.some.inj hsecond)) _ (id_mem_of_get? trail hfirst))
    · exact slot_unique hid trail hslots hfirst hsecond

end Block

namespace Tree

variable {tree : Tree}

theorem mem_sites_of_leads {site other : Site} (h : site ∈ tree.sites) (hleads : site.Leads other) :
    other ∈ tree.sites := by
  obtain ⟨root, hroot, hsite⟩ := List.mem_flatMap.1 h
  exact List.mem_flatMap.2 ⟨root, hroot, Block.mem_sitesOf_of_leads _ hsite hleads⟩

theorem mem_sites_of_root {root : Root} (h : root ∈ tree.roots) :
    ⟨root.head, root.rest, []⟩ ∈ tree.sites :=
  List.mem_flatMap.2 ⟨root, h, by simp [Root.chain, Block.sitesOf]⟩

theorem mem_sites_of_next {site : Site} (h : site ∈ tree.sites) {block : Block}
    (hnext : site.next = some block) : ∃ other ∈ tree.sites, other.block = block := by
  obtain ⟨first, followers, trail⟩ := site
  obtain ⟨rest, rfl⟩ := List.head?_eq_some_iff.1 hnext
  exact ⟨_, mem_sites_of_leads h .next, rfl⟩

/-- The head of the chain in a slot has its site behind that of the owner. -/
theorem mem_sites_of_chain {site : Site} (h : site ∈ tree.sites) {slot : String} {head : Block}
    {rest : List Block} (hchain : site.block.chain slot = head :: rest) :
    ⟨head, rest, .owner site.block :: site.trail⟩ ∈ tree.sites := by
  rw [Block.chain] at hchain
  cases hget : OrderedMap.get? slot site.block.slots with
  | none => simp [hget] at hchain
  | some chain =>
    obtain rfl : chain = head :: rest := by simpa [hget] using hchain
    exact mem_sites_of_leads h (.slot (OrderedMap.mem_of_get? hget))

theorem mem_sites_of_slot {site : Site} (h : site ∈ tree.sites) {slot : String} {head : Block}
    (hhead : (site.block.chain slot).head? = some head) :
    ∃ other ∈ tree.sites, other.block = head := by
  obtain ⟨rest, hchain⟩ := List.head?_eq_some_iff.1 hhead
  exact ⟨_, mem_sites_of_chain h hchain, rfl⟩

theorem led_sites (begins : Site → Prop) : ∀ {roots : List Root},
    (∀ root ∈ roots, begins ⟨root.head, root.rest, []⟩) →
      Led begins [] (roots.flatMap fun root => Block.sitesOf [] root.chain)
  | [], _ => trivial
  | root :: roots, h => by
    obtain ⟨hroot, hroots⟩ := List.forall_mem_cons.1 h
    refine .append (Block.led_sitesOf root.chain fun head rest hchain => .inl ?_)
      (led_sites begins hroots)
    cases hchain
    exact hroot

/-- A site begins a chain of the top level or comes behind one that leads to it. -/
theorem begins_or_led {index : Nat} {site : Site} (h : tree.sites[index]? = some site) :
    (∃ root ∈ tree.roots, site = ⟨root.head, root.rest, []⟩) ∨
      ∃ place < index, ∃ before, tree.sites[place]? = some before ∧ before.Leads site := by
  have hled : Led (fun site => ∃ root ∈ tree.roots, site = ⟨root.head, root.rest, []⟩) []
      tree.sites := led_sites _ fun root hroot => ⟨root, hroot, rfl⟩
  rcases hled.getElem? h with hbegins | ⟨before, hnone, -⟩ | hplace
  · exact .inl hbegins
  · cases hnone
  · exact .inr hplace

/-- The number of the node with an id. -/
def number (tree : Tree) (id : String) : Nat := tree.ids.idxOf id

theorem number_lt {site : Site} (h : site ∈ tree.sites) :
    tree.number site.block.id < tree.sites.length := by
  have hid : site.block.id ∈ tree.ids := List.mem_map_of_mem h
  simpa [ids, number] using List.idxOf_lt_length_of_mem hid

section Distinct

variable (distinct : tree.ids.Nodup) {site other : Site}
include distinct

theorem eq_of_block_eq (h : site ∈ tree.sites) (h' : other ∈ tree.sites)
    (hblock : site.block = other.block) : site = other :=
  List.inj_on_of_nodup_map distinct h h' (congrArg Block.id hblock)

theorem number_of_getElem? {index : Nat} (h : tree.sites[index]? = some site) :
    tree.number site.block.id = index := by
  obtain ⟨hindex, rfl⟩ := List.getElem?_eq_some_iff.1 h
  have hids : index < tree.ids.length := by simpa [ids] using hindex
  have hat : tree.ids[index] = tree.sites[index].block.id := by simp [ids]
  exact hat ▸ distinct.idxOf_getElem index hids

/-- A block behind another one has it before it, and the other way round. -/
theorem next_iff_previous (h : site ∈ tree.sites) (h' : other ∈ tree.sites) :
    site.next = some other.block ↔ other.previous = some site.block := by
  constructor
  · intro hnext
    obtain ⟨block, followers, trail⟩ := site
    obtain ⟨rest, rfl⟩ := List.head?_eq_some_iff.1 hnext
    rw [← eq_of_block_eq distinct (mem_sites_of_leads h .next) h' rfl]
    rfl
  · intro hprevious
    obtain ⟨index, hindex⟩ := List.getElem?_of_mem h'
    rcases begins_or_led hindex with ⟨root, -, rfl⟩ | ⟨place, -, before, hbefore, hleads⟩
    · cases hprevious
    · cases hleads with
      | slot => cases hprevious
      | next =>
        rw [← eq_of_block_eq distinct (List.mem_of_getElem? hbefore) h (Option.some.inj hprevious)]
        rfl

theorem owner_eq_of_next (h : site ∈ tree.sites) (h' : other ∈ tree.sites)
    (hnext : site.next = some other.block) : other.owner = site.owner := by
  obtain ⟨block, followers, trail⟩ := site
  obtain ⟨rest, rfl⟩ := List.head?_eq_some_iff.1 hnext
  rw [← eq_of_block_eq distinct (mem_sites_of_leads h .next) h' rfl]
  rfl

end Distinct

theorem exists_owner_lt {index : Nat} {site : Site} (h : tree.sites[index]? = some site)
    {block : Block} (howner : site.owner = some block) :
    ∃ before < index, tree.sites[before]?.map Site.block = some block := by
  induction index using Nat.strong_induction_on generalizing site with
  | _ index ih =>
    rcases begins_or_led h with ⟨root, -, rfl⟩ | ⟨place, hlt, before, hbefore, hleads⟩
    · cases howner
    · cases hleads with
      | next =>
        obtain ⟨outer, houter, hblock⟩ := ih place hlt hbefore howner
        exact ⟨outer, houter.trans hlt, hblock⟩
      | slot =>
        refine ⟨place, hlt, ?_⟩
        rw [hbefore]
        exact howner

theorem exists_previous_lt {index : Nat} {site : Site} (h : tree.sites[index]? = some site)
    {block : Block} (hprevious : site.previous = some block) :
    ∃ before < index, tree.sites[before]?.map Site.block = some block := by
  rcases begins_or_led h with ⟨root, -, rfl⟩ | ⟨place, hlt, before, hbefore, hleads⟩
  · cases hprevious
  · cases hleads with
    | slot => cases hprevious
    | next =>
      refine ⟨place, hlt, ?_⟩
      rw [hbefore]
      exact hprevious

/-- The blocks on the way back are those of sites. -/
theorem mem_sites_of_before {index : Nat} {block : Block}
    (h : ∃ before < index, tree.sites[before]?.map Site.block = some block) :
    ∃ other ∈ tree.sites, other.block = block := by
  obtain ⟨before, -, hbefore⟩ := h
  obtain ⟨other, hother, rfl⟩ := Option.map_eq_some_iff.1 hbefore
  exact ⟨other, List.mem_of_getElem? hother, rfl⟩

/-- The blocks of the rest of a chain are nodes with the same owner. -/
theorem exists_mem_followers {block : Block} : ∀ (trail : List Step) {chain : List Block},
    (∀ head rest, chain = head :: rest → ⟨head, rest, trail⟩ ∈ tree.sites) → block ∈ chain →
      ∃ other ∈ tree.sites, other.block = block ∧ other.owner = Site.firstOwner trail
  | trail, head :: rest, h, hblock => by
    have hhead := h head rest rfl
    rcases List.mem_cons.1 hblock with rfl | hblock
    · exact ⟨_, hhead, rfl, rfl⟩
    · refine exists_mem_followers (.previous head :: trail) (fun next behind hrest => ?_) hblock
      subst hrest
      exact mem_sites_of_leads hhead .next

theorem exists_mem_slot {site : Site} (h : site ∈ tree.sites) {slot : String} {block : Block}
    (hblock : block ∈ site.block.chain slot) :
    ∃ other ∈ tree.sites, other.block = block ∧ other.owner = some site.block := by
  rw [Block.chain] at hblock
  cases hget : OrderedMap.get? slot site.block.slots with
  | none => simp [hget] at hblock
  | some chain =>
    rw [hget, Option.getD_some] at hblock
    refine exists_mem_followers (.owner site.block :: site.trail)
      (fun head rest hchain => ?_) hblock
    subst hchain
    exact mem_sites_of_leads h (.slot (OrderedMap.mem_of_get? hget))

/-- The sites below a site of a tree are among those of the tree, in the same order. -/
theorem sitesBelow_sublist {site : Site} (h : site ∈ tree.sites) :
    (Block.sitesBelow site.trail site.block).Sublist tree.sites := by
  obtain ⟨root, hroot, hsite⟩ := List.mem_flatMap.1 h
  have hroots : (Block.sitesOf [] root.chain).Sublist tree.sites := by
    simpa [sites] using
      (List.singleton_sublist.2 hroot).flatMap fun root => Block.sitesOf [] root.chain
  exact (Block.sitesBelow_sublist_sitesOf _ hsite).trans hroots

/-- The head of a chain in a slot is that of no other slot. -/
theorem existsUnique_slot (distinct : tree.ids.Nodup) {site : Site} (h : site ∈ tree.sites)
    (hkeys : (OrderedMap.keys site.block.slots).Nodup) {slot : String} {head : Block}
    {rest : List Block} (hslot : (slot, head :: rest) ∈ site.block.slots) :
    ∃! slot, (site.block.chain slot).head? = some head := by
  have hbelow : ((Block.sitesBelow site.trail site.block).map fun site => site.block.id).Nodup :=
    distinct.sublist ((sitesBelow_sublist h).map _)
  have hget := OrderedMap.get?_of_mem hkeys hslot
  refine ⟨slot, by simp [Block.chain, hget], fun other hother => ?_⟩
  obtain ⟨⟨id, kind, fields, slots⟩, followers, trail⟩ := site
  obtain ⟨behind, hbehind⟩ := List.head?_eq_some_iff.1 hother
  rw [Block.sitesBelow] at hbelow
  rw [Block.chain] at hbehind
  cases hfound : OrderedMap.get? other slots with
  | none => simp [hfound] at hbehind
  | some chain =>
    rw [Block.slots_mk, hfound, Option.getD_some] at hbehind
    exact Block.slot_unique rfl _ hbelow (hbehind ▸ hfound) hget

/-- No block is the head of two chains of the top level. -/
theorem nodup_heads (distinct : tree.ids.Nodup) :
    (tree.roots.map fun root => root.head.id).Nodup := by
  refine distinct.sublist ?_
  rw [ids, sites, List.map_flatMap, List.map_eq_flatMap]
  refine List.Sublist.flatMap_right _ fun root _ => ?_
  simp [Root.chain, Block.sitesOf]

section Distinct

variable (distinct : tree.ids.Nodup) {site other : Site}
include distinct

/-- A block found at a smaller index has a smaller number. -/
theorem number_lt_of_getElem? {before : Nat}
    (hbefore : tree.sites[before]?.map Site.block = some other.block)
    (hlt : before < tree.number site.block.id) :
    tree.number other.block.id < tree.number site.block.id := by
  obtain ⟨found, hfound, hblock⟩ := Option.map_eq_some_iff.1 hbefore
  rwa [← hblock, number_of_getElem? distinct hfound]

theorem number_lt_of_previous (h : site ∈ tree.sites)
    (hprevious : site.previous = some other.block) :
    tree.number other.block.id < tree.number site.block.id := by
  obtain ⟨index, hindex⟩ := List.getElem?_of_mem h
  obtain ⟨before, hlt, hbefore⟩ := exists_previous_lt hindex hprevious
  exact number_lt_of_getElem? distinct hbefore (number_of_getElem? distinct hindex ▸ hlt)

theorem number_lt_of_owner (h : site ∈ tree.sites) (howner : site.owner = some other.block) :
    tree.number other.block.id < tree.number site.block.id := by
  obtain ⟨index, hindex⟩ := List.getElem?_of_mem h
  obtain ⟨before, hlt, hbefore⟩ := exists_owner_lt hindex howner
  exact number_lt_of_getElem? distinct hbefore (number_of_getElem? distinct hindex ▸ hlt)

theorem number_lt_of_down (h : site ∈ tree.sites) (h' : other ∈ tree.sites)
    (hdown : site.next = some other.block ∨ ∃ slot, other.block ∈ site.block.chain slot) :
    tree.number site.block.id < tree.number other.block.id := by
  rcases hdown with hnext | ⟨slot, hslot⟩
  · exact number_lt_of_previous distinct h' ((next_iff_previous distinct h h').1 hnext)
  · obtain ⟨found, hfound, hblock, howner⟩ := exists_mem_slot h hslot
    obtain rfl := eq_of_block_eq distinct hfound h' hblock
    exact number_lt_of_owner distinct h' howner

theorem number_lt_of_parent (h : site ∈ tree.sites) (hparent : site.parent = some other.block) :
    tree.number other.block.id < tree.number site.block.id := by
  obtain ⟨block, followers, _ | ⟨_ | _, trail⟩⟩ := site
  · cases hparent
  · exact number_lt_of_previous distinct h hparent
  · exact number_lt_of_owner distinct h hparent

end Distinct

end Tree

end PiBlocks
