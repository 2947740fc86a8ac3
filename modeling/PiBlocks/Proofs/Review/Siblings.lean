import PiBlocks.Proofs.Block.Links
import PiBlocks.Proofs.Review.WayBack
import PiBlocks.Proofs.Walk.Branches

/-!
# Branches on the way back

The way back from a block passes the branches that stand in front of one it lies in. They are not
around the block, so its ancestry leaves them out : a branch is dropped if the walk comes to it from
a branch of the same kind. The walk comes to an owner from the head of a chain in its slots, and to
a block in front from the one behind it. So the ancestry has the branches that own what is on the
way, and those from which the walk did not come by a branch of their kind (`Tree.Behind`). The first
step of the walk is one of these : the branch in front of a block is among its ancestors, also if
the block is a branch of the same fork (`Tree.branches_in_ancestry`).
-/

namespace PiBlocks

theorem continuesRun_eq {kind : Kind} (h : kind.isBranch = true) (last : Option Kind) :
    Ancestry.continuesRun last kind = decide (last = some kind) := by
  revert h
  cases kind <;> intro h <;> first | (cases h; done) | simp [Ancestry.continuesRun]

theorem opensScope_of_isBranch {kind : Kind} (h : kind.isBranch = true) :
    kind.opensScope = true := by
  cases kind <;> first | rfl | cases h

theorem Ancestry.mem_alongTrail_cons {id : String} {last : Option Kind} {block : Block}
    {rest : List Block} : id ∈ alongTrail last (block :: rest) ↔
      (id = block.id ∧ block.kind.opensScope = true ∧ continuesRun last block.kind = false) ∨
        id ∈ alongTrail (some block.kind) rest := by
  rw [alongTrail]
  split_ifs with h <;> simp only [Bool.and_eq_true, Bool.not_eq_true'] at h <;> simp [h]

theorem Step.owners_subset : ∀ trail : List Step, owners trail ⊆ trail.map Step.block
  | [] => List.Subset.refl _
  | .previous _ :: trail => List.Subset.trans (owners_subset trail) (List.subset_cons_self _ _)
  | .owner block :: trail => List.cons_subset_cons block (owners_subset trail)

theorem Step.firstOwner_mem : ∀ {trail : List Step} {block : Block},
    Site.firstOwner trail = some block → block ∈ trail.map Step.block
  | .previous _ :: _, _, h => List.mem_cons_of_mem _ (firstOwner_mem h)
  | .owner _ :: _, _, h => Option.some.inj h ▸ List.mem_cons_self

theorem Site.mem_trail_of_previous {site : Site} {block : Block} (h : site.previous = some block) :
    block ∈ site.trail.map Step.block := by
  obtain ⟨own, followers, _ | ⟨_ | _, trail⟩⟩ := site
  · cases h
  · exact Option.some.inj h ▸ List.mem_cons_self
  · cases h

namespace Tree

variable {tree : Tree}

/-- What holds of the heads of the top level and goes along links holds of all sites. -/
@[elab_as_elim]
theorem sites_induction {motive : (site : Site) → site ∈ tree.sites → Prop}
    (root : ∀ (root : Root) (h : ⟨root.head, root.rest, []⟩ ∈ tree.sites), motive _ h)
    (leads : ∀ before (hbefore : before ∈ tree.sites) site (h : site ∈ tree.sites),
      before.Leads site → motive before hbefore → motive site h)
    (site : Site) (h : site ∈ tree.sites) : motive site h := by
  obtain ⟨index, hindex⟩ := List.getElem?_of_mem h
  induction index using Nat.strong_induction_on generalizing site with
  | _ index ih =>
    rcases begins_or_led hindex with ⟨first, -, rfl⟩ | ⟨place, hlt, before, hbefore, hleads⟩
    · exact root first h
    · have hmem := List.mem_of_getElem? hbefore
      exact leads before hmem site h hleads (ih place hlt before hmem hbefore)

/-- Branches stand in the slots of forks of their kind. -/
def forked (tree : Tree) : Bool :=
  tree.sites.all fun site => !site.block.kind.isBranch ||
    site.owner.any fun fork => fork.kind.isFork && fork.kind.branch = site.block.kind

/-- A branch in a slot of a fork. -/
structure BranchOf (tree : Tree) (fork : Block) (branch : Site) : Prop where
  mem : branch ∈ tree.sites
  kind : branch.block.kind.isBranch = true
  owner : branch.owner = some fork

/-- The branch stands directly in front of one of the blocks, which is of another kind. -/
def Leaves (tree : Tree) (blocks : List Block) (branch : Block) : Prop :=
  ∃ inner ∈ tree.sites, inner.block ∈ blocks ∧ inner.block.kind ≠ branch.kind ∧
    inner.previous = some branch

/-- The branch stands directly in front of the site, or of a block of another kind on the way
back from it. -/
def Behind (tree : Tree) (site : Site) (branch : Block) : Prop :=
  site.previous = some branch ∨ tree.Leaves (site.trail.map Step.block) branch

/-- If only branches stand behind branches, a branch is left on the first step or not at all. -/
theorem behind_iff (uniform : ∀ inner ∈ tree.sites, ∀ before ∈ inner.previous,
    before.kind.isBranch = true → inner.block.kind = before.kind) {site : Site} {branch : Block}
    (hbranch : branch.kind.isBranch = true) :
    tree.Behind site branch ↔ site.previous = some branch := by
  refine or_iff_left ?_
  rintro ⟨inner, hinner, -, hkind, hprevious⟩
  exact hkind (uniform inner hinner branch hprevious hbranch)

theorem isFork_of_forked (forked : tree.forked = true) {site : Site} (h : site ∈ tree.sites)
    (hbranch : site.block.kind.isBranch = true) {owner : Block} (howner : site.owner = some owner) :
    owner.kind.isFork = true := by
  have hsite := List.all_eq_true.1 forked site h
  simp only [hbranch, howner, Bool.not_true, Bool.false_or, Option.any_some, Bool.and_eq_true]
    at hsite
  exact hsite.1

/-- The walk does not skip an owner : it comes to it from the head of a chain in a slot, and that
is no branch of a branch. -/
theorem continuesRun_of_slot (forked : tree.forked = true) {site : Site} (h : site ∈ tree.sites)
    {owner : Block} (howner : site.owner = some owner) {last : Option Kind}
    (hlast : ∀ kind ∈ last, kind = site.block.kind) :
    Ancestry.continuesRun last owner.kind = false := by
  cases hbranch : owner.kind.isBranch with
  | false => exact continuesRun_of_not_isBranch hbranch last
  | true =>
    rw [continuesRun_eq hbranch, decide_eq_false_iff_not]
    intro heq
    have hkind := hlast _ heq
    have hfork := isFork_of_forked forked h (hkind ▸ hbranch) howner
    rw [Kind.not_isBranch_of_isFork hfork] at hbranch
    cases hbranch

section Distinct

variable (distinct : tree.ids.Nodup) {site branch before : Site}
include distinct

theorem id_eq_iff (hbranch : branch ∈ tree.sites) (hbefore : before ∈ tree.sites) :
    branch.block.id = before.block.id ↔ before.block = branch.block :=
  ⟨fun h => congrArg Site.block (List.inj_on_of_nodup_map distinct hbefore hbranch h.symm),
    fun h => h ▸ rfl⟩

theorem leaves_cons (hbefore : before ∈ tree.sites) {blocks : List Block} {branch : Block} :
    tree.Leaves (before.block :: blocks) branch ↔
      (before.block.kind ≠ branch.kind ∧ before.previous = some branch) ∨
        tree.Leaves blocks branch := by
  constructor
  · rintro ⟨inner, hinner, hmem, hkind, hprevious⟩
    rcases List.mem_cons.1 hmem with hblock | hmem
    · obtain rfl := eq_of_block_eq distinct hinner hbefore hblock
      exact .inl ⟨hkind, hprevious⟩
    · exact .inr ⟨inner, hinner, hmem, hkind, hprevious⟩
  · rintro (⟨hkind, hprevious⟩ | ⟨inner, hinner, hmem, hkind, hprevious⟩)
    · exact ⟨before, hbefore, List.mem_cons_self, hkind, hprevious⟩
    · exact ⟨inner, hinner, List.mem_cons_of_mem _ hmem, hkind, hprevious⟩

/-- The branches along a way back, on which nothing has been visited before or the site itself. -/
theorem mem_alongTrail_iff (forked : tree.forked = true) (hbranch : branch ∈ tree.sites)
    (hkind : branch.block.kind.isBranch = true) (h : site ∈ tree.sites) :
    ∀ last : Option Kind, (∀ kind ∈ last, kind = site.block.kind) →
      (branch.block.id ∈ Ancestry.alongTrail last (site.trail.map Step.block) ↔
        branch.block ∈ Step.owners site.trail ∨
          (Ancestry.continuesRun last branch.block.kind = false ∧
            site.previous = some branch.block) ∨
          tree.Leaves (site.trail.map Step.block) branch.block) := by
  have hopens := opensScope_of_isBranch hkind
  induction site, h using sites_induction with
  | root root h =>
    intro last _
    simp [Ancestry.alongTrail, Step.owners, Site.previous, Leaves]
  | leads before hbefore site hsite hleads ih =>
    intro last hlast
    have hid := id_eq_iff distinct hbranch hbefore
    have hrest := ih (some before.block.kind) (by simp)
    have hkinds : Ancestry.continuesRun (some before.block.kind) branch.block.kind = false ↔
        before.block.kind ≠ branch.block.kind := by
      rw [continuesRun_eq hkind]
      simp
    rw [hkinds, ← leaves_cons distinct hbefore] at hrest
    cases hleads with
    | @next block _ rest trail =>
      have hown : (branch.block.id = block.id ∧ block.kind.opensScope = true ∧
          Ancestry.continuesRun last block.kind = false) ↔
          Ancestry.continuesRun last branch.block.kind = false ∧
            some block = some branch.block := by
        rw [hid, Option.some.injEq]
        constructor
        · rintro ⟨rfl, -, hrun⟩
          exact ⟨hrun, rfl⟩
        · rintro ⟨hrun, rfl⟩
          exact ⟨rfl, hopens, hrun⟩
      rw [List.map_cons, Step.block, Ancestry.mem_alongTrail_cons, hown, hrest, Step.owners]
      exact or_left_comm
    | @slot block head _ rest trail _ hslot =>
      have hown : (branch.block.id = block.id ∧ block.kind.opensScope = true ∧
          Ancestry.continuesRun last block.kind = false) ↔ branch.block = block := by
        rw [hid]
        constructor
        · exact fun h => h.1.symm
        · rintro rfl
          exact ⟨rfl, hopens, continuesRun_of_slot forked hsite rfl hlast⟩
      rw [List.map_cons, Step.block, Ancestry.mem_alongTrail_cons, hown, hrest, Step.owners,
        List.mem_cons, or_assoc]
      simp [Site.previous]

/-- A branch is in the ancestry of what it owns and of what the way back comes to it from, unless
from a branch of its kind. -/
theorem mem_ancestry_iff (forked : tree.forked = true) (hbranch : branch ∈ tree.sites)
    (hkind : branch.block.kind.isBranch = true) (h : site ∈ tree.sites) :
    branch.block.id ∈ site.ancestry ↔
      branch.block ∈ Step.owners site.trail ∨ tree.Behind site branch.block := by
  rw [Site.ancestry, Ancestry.ofBlock, List.mem_reverse]
  split_ifs with hscope
  · rw [mem_alongTrail_iff distinct forked hbranch hkind h none (by simp), Behind,
      continuesRun_of_last (by simp), eq_self_iff_true, true_and]
  · have hplain := not_isBranch_of_not_opensScope (Bool.eq_false_iff.2 hscope)
    have hskip : branch.block.id ∈ Ancestry.alongTrail none
        (site.block :: site.trail.map Step.block) ↔ branch.block.id ∈
          Ancestry.alongTrail (some site.block.kind) (site.trail.map Step.block) := by
      simp [Ancestry.mem_alongTrail_cons, hscope]
    rw [hskip, mem_alongTrail_iff distinct forked hbranch hkind h _ (by simp), Behind,
      continuesRun_of_last (by simpa using hplain), eq_self_iff_true, true_and]

/-! ## Owners -/

theorem number_lt_of_leads (h : site ∈ tree.sites) (hleads : before.Leads site) :
    tree.number before.block.id < tree.number site.block.id := by
  cases hleads with
  | next => exact number_lt_of_parent distinct h rfl
  | slot => exact number_lt_of_parent distinct h rfl

/-- Numbers grow along a trail, seen from the root. -/
theorem number_lt_of_mem_trail (h : site ∈ tree.sites) : ∀ block ∈ site.trail.map Step.block,
    tree.number block.id < tree.number site.block.id := by
  induction site, h using sites_induction with
  | root root h => simp
  | leads before hbefore site hsite hleads ih =>
    have hstep := number_lt_of_leads distinct hsite hleads
    have hrest := fun block hblock => (ih block hblock).trans hstep
    cases hleads with
    | next => exact List.forall_mem_cons.2 ⟨hstep, hrest⟩
    | slot => exact List.forall_mem_cons.2 ⟨hstep, hrest⟩

/-- The owners on a trail are the owner and those further outside. -/
theorem number_le_of_mem_owners (h : site ∈ tree.sites) : ∀ block ∈ Step.owners site.trail,
    ∃ owner, site.owner = some owner ∧ tree.number block.id ≤ tree.number owner.id := by
  induction site, h using sites_induction with
  | root root h => simp [Step.owners]
  | leads before hbefore site hsite hleads ih =>
    cases hleads with
    | next => exact ih
    | slot =>
      refine List.forall_mem_cons.2 ⟨⟨_, rfl, le_refl _⟩, fun block hblock => ⟨_, rfl, ?_⟩⟩
      exact (number_lt_of_mem_trail distinct hbefore block (Step.owners_subset _ hblock)).le

/-- Nothing on the way back comes to an owner from the block behind it. -/
theorem previous_ne_of_mem_owners (h : site ∈ tree.sites) : ∀ block ∈ Step.owners site.trail,
    ∀ inner ∈ tree.sites, inner.block ∈ site.block :: site.trail.map Step.block →
      inner.previous ≠ some block := by
  induction site, h using sites_induction with
  | root root h => simp [Step.owners]
  | leads before hbefore site hsite hleads ih =>
    intro block hblock inner hinner hmem
    cases hleads with
    | @next first _ rest trail =>
      rcases List.mem_cons.1 hmem with hown | hmem
      · obtain rfl := eq_of_block_eq distinct hinner hsite hown
        rintro ⟨⟩
        exact (number_lt_of_mem_trail distinct hbefore _ (Step.owners_subset _ hblock)).false
      · exact ih block hblock inner hinner hmem
    | @slot first _ _ rest trail _ hslot =>
      rcases List.mem_cons.1 hmem with hown | hmem
      · obtain rfl := eq_of_block_eq distinct hinner hsite hown
        rintro ⟨⟩
      rcases List.mem_cons.1 hblock with rfl | hblock
      · intro hprevious
        have hlt :=
          number_lt_of_mem_trail distinct hinner _ (Site.mem_trail_of_previous hprevious)
        rcases List.mem_cons.1 hmem with hfirst | hmem
        · exact hlt.ne (congrArg (fun block => tree.number block.id) hfirst.symm)
        · exact hlt.asymm (number_lt_of_mem_trail distinct hbefore _ hmem)
      · exact ih block hblock inner hinner hmem

theorem not_behind_of_mem_owners (h : site ∈ tree.sites) {block : Block}
    (hblock : block ∈ Step.owners site.trail) : ¬tree.Behind site block := by
  rintro (hprevious | ⟨inner, hinner, hmem, -, hprevious⟩)
  · exact previous_ne_of_mem_owners distinct h block hblock site h List.mem_cons_self hprevious
  · exact previous_ne_of_mem_owners distinct h block hblock inner hinner
      (List.mem_cons_of_mem _ hmem) hprevious

/-- No owner of a branch's fork is a branch of the fork. -/
theorem not_mem_owners_of_branchOf {fork : Block} {other : Site}
    (hbranch : tree.BranchOf fork branch) (hother : tree.BranchOf fork other) :
    other.block ∉ Step.owners branch.trail := by
  intro hmem
  obtain ⟨owner, howner, hle⟩ := number_le_of_mem_owners distinct hbranch.mem _ hmem
  obtain rfl : owner = fork := Option.some.inj (howner.symm.trans hbranch.owner)
  have hlt := number_lt_of_mem_trail distinct hother.mem _ (Step.firstOwner_mem hother.owner)
  exact hlt.not_ge hle

/-- At most one branch of a fork is around a site. -/
theorem branch_unique {fork : Block} {other : Site} (hbranch : tree.BranchOf fork branch)
    (hother : tree.BranchOf fork other) (h : site ∈ tree.sites)
    (hmem : branch.block ∈ Step.owners site.trail) (hmem' : other.block ∈ Step.owners site.trail) :
    branch = other := by
  induction site, h using sites_induction with
  | root root h => cases hmem
  | leads before hbefore site hsite hleads ih =>
    cases hleads with
    | next => exact ih hmem hmem'
    | slot =>
      rcases List.mem_cons.1 hmem with hfirst | hmem <;>
        rcases List.mem_cons.1 hmem' with hfirst' | hmem'
      · exact eq_of_block_eq distinct hbranch.mem hother.mem (hfirst.trans hfirst'.symm)
      · obtain rfl := eq_of_block_eq distinct hbranch.mem hbefore hfirst
        exact absurd hmem' (not_mem_owners_of_branchOf distinct hbranch hother)
      · obtain rfl := eq_of_block_eq distinct hother.mem hbefore hfirst'
        exact absurd hmem (not_mem_owners_of_branchOf distinct hother hbranch)
      · exact ih hmem hmem'

end Distinct

/-- Of the branches of a fork, at most one is around a site, and the ancestry has it and those
that the way back from the site comes to from a block of another kind, or first of all. So the
ancestry tells which branch is around the site if and only if there is none of these. -/
theorem branches_in_ancestry (forked : tree.forked = true) (distinct : tree.ids.Nodup)
    (fork : Block) {site : Site} (h : site ∈ tree.sites) :
    (∀ branch other, tree.BranchOf fork branch → tree.BranchOf fork other →
      branch.block ∈ Step.owners site.trail → other.block ∈ Step.owners site.trail →
        branch = other) ∧
      (∀ branch, tree.BranchOf fork branch → (branch.block.id ∈ site.ancestry ↔
        branch.block ∈ Step.owners site.trail ∨ tree.Behind site branch.block)) ∧
      ((∀ branch, tree.BranchOf fork branch →
          (branch.block.id ∈ site.ancestry ↔ branch.block ∈ Step.owners site.trail)) ↔
        ∀ branch, tree.BranchOf fork branch → ¬tree.Behind site branch.block) := by
  have hancestry : ∀ branch, tree.BranchOf fork branch → (branch.block.id ∈ site.ancestry ↔
      branch.block ∈ Step.owners site.trail ∨ tree.Behind site branch.block) :=
    fun branch hbranch => mem_ancestry_iff distinct forked hbranch.mem hbranch.kind h
  refine ⟨fun branch other hbranch hother => branch_unique distinct hbranch hother h, hancestry,
    forall₂_congr fun branch hbranch => ?_⟩
  rw [hancestry branch hbranch]
  constructor
  · exact fun hiff hbehind => not_behind_of_mem_owners distinct h (hiff.1 (.inr hbehind)) hbehind
  · exact fun hbehind => or_iff_left hbehind

/-- Inside of a branch, no other branch of the fork is among the ancestors. -/
theorem branches_in_ancestry_forking : (program [forking]).forked = true ∧
    (program [forking]).ids.Nodup ∧ ∃ site ∈ (program [forking]).sites,
      site.ancestry = ["main", "fork", "right"] ∧
      ∀ branch, (program [forking]).BranchOf forking branch →
        (branch.block.id ∈ site.ancestry ↔ branch.block ∈ Step.owners site.trail) := by
  have forked : (program [forking]).forked = true := by decide
  have distinct : (program [forking]).ids.Nodup := by decide
  have uniform : ∀ inner ∈ (program [forking]).sites, ∀ before ∈ inner.previous,
      before.kind.isBranch = true → inner.block.kind = before.kind := by decide
  have hsite : (program [forking]).sites[5]? = some _ := rfl
  have hmem := List.mem_of_getElem? hsite
  refine ⟨forked, distinct, _, hmem, by decide, ?_⟩
  refine (branches_in_ancestry forked distinct forking hmem).2.2.2 fun branch hbranch => ?_
  rw [behind_iff uniform hbranch.kind]
  rintro ⟨⟩

/-- The branch in front of another one is among its ancestors, though it is not around it. -/
theorem left_in_ancestry_of_right : (program [forking]).forked = true ∧
    (program [forking]).ids.Nodup ∧ ∃ left right,
      (program [forking]).BranchOf forking left ∧ (program [forking]).BranchOf forking right ∧
      right.ancestry = ["main", "fork", "left"] ∧ left.block.id ∈ right.ancestry ∧
      left.block ∉ Step.owners right.trail := by
  have hleft : (program [forking]).sites[2]? = some _ := rfl
  have hright : (program [forking]).sites[4]? = some _ := rfl
  refine ⟨by decide, by decide, _, _, ⟨List.mem_of_getElem? hleft, rfl, rfl⟩,
    ⟨List.mem_of_getElem? hright, rfl, rfl⟩, by decide, by decide, fun hmem => ?_⟩
  exact absurd (List.mem_map_of_mem (f := Block.id) hmem) (by decide)

end Tree

end PiBlocks
