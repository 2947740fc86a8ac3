import PiBlocks.Proofs.Review.Siblings
import PiBlocks.Proofs.Workspace.Rebuild

/-!
# What is around a block is among its ancestors

An editor finds the ancestry of a block by a loop (`Climb.step`) : it goes to the block in front, or
from the head of a chain to its owner, notes the id of every block that opens a scope and skips
branches that go on with a run of them. A step leads from a node to one with a smaller number, so
the loop ends, and what it has noted then is the ancestry (`Climb.iterate_step`).

A loop that skips could miss a block that is around. It does not : it comes to an owner from the
head of a chain in a slot of it, and if the owner is a branch, that head is none, as branches stand
in forks only (`Tree.continuesRun_of_slot`). So everything around a block that opens a scope is
noted, the outermost first (`Tree.enclosing_in_ancestry`).
-/

namespace PiBlocks

/-! ## The loop -/

/-- Where the way back leads from a block, looked up in the tree. -/
def Tree.parentOf? (tree : Tree) (block : Block) : Option Block :=
  (tree.find? block.id).bind Site.parent

/-- What the loop remembers between two blocks : the next one, the kind of the one visited before,
and the ids noted so far, the last one first. -/
structure Climb where
  cursor : Option Block
  last : Option Kind
  noted : List String

namespace Climb

/-- The loop begins with the block itself, or behind it if it opens a scope. -/
def start (tree : Tree) (block : Block) : Climb where
  cursor := if block.kind.opensScope then tree.parentOf? block else some block
  last := none
  noted := []

/-- One round of the loop. Without a next block, nothing happens any more. -/
def step (tree : Tree) (climb : Climb) : Climb :=
  match climb.cursor with
  | none => climb
  | some block =>
    let notes := block.kind.opensScope && !Ancestry.continuesRun climb.last block.kind
    { cursor := tree.parentOf? block
      last := some block.kind
      noted := if notes then block.id :: climb.noted else climb.noted }

/-- How many rounds there can be : one more than the number of the next block. -/
def height (tree : Tree) (climb : Climb) : Nat :=
  climb.cursor.elim 0 fun block => tree.number block.id + 1

/-- What has been noted and what will be noted on the way back from the next block is the result. -/
inductive Yields (tree : Tree) (result : List String) : Climb → Prop
  | done {last : Option Kind} : Yields tree result ⟨none, last, result⟩
  | going {site : Site} {last : Option Kind} {noted : List String} (h : site ∈ tree.sites)
      (hrest : (Ancestry.alongTrail last (site.block :: site.trail.map Step.block)).reverse ++
        noted = result) : Yields tree result ⟨some site.block, last, noted⟩

end Climb

theorem Site.Leads.parent_eq {before site : Site} (h : before.Leads site) :
    site.parent = some before.block := by
  cases h <;> rfl

theorem Site.Leads.trail_eq {before site : Site} (h : before.Leads site) :
    site.trail.map Step.block = before.block :: before.trail.map Step.block := by
  cases h <;> rfl

namespace Tree

variable {tree : Tree} {site : Site}

/-- A site begins a chain of the top level, or another one leads to it. -/
theorem trail_eq_nil_or_led (h : site ∈ tree.sites) :
    site.trail = [] ∨ ∃ before ∈ tree.sites, before.Leads site := by
  induction site, h using sites_induction with
  | root root h => exact .inl rfl
  | leads before hbefore site hsite hleads => exact .inr ⟨before, hbefore, hleads⟩

/-- The way back passes sites of the tree. -/
theorem exists_site_of_mem_trail (h : site ∈ tree.sites) :
    ∀ block ∈ site.trail.map Step.block, ∃ other ∈ tree.sites, other.block = block := by
  induction site, h using sites_induction with
  | root root h => simp
  | leads before hbefore site hsite hleads ih =>
    rw [hleads.trail_eq]
    exact List.forall_mem_cons.2 ⟨⟨before, hbefore, rfl⟩, ih⟩

section Distinct

variable (distinct : tree.ids.Nodup)
include distinct

theorem parentOf?_eq (h : site ∈ tree.sites) : tree.parentOf? site.block = site.parent := by
  rw [parentOf?, (find?_eq_some_iff distinct).2 ⟨h, rfl⟩, Option.bind_some]

/-- One round keeps the result. -/
theorem yields_step {result : List String} {climb : Climb} (h : Climb.Yields tree result climb) :
    Climb.Yields tree result (climb.step tree) := by
  cases h with
  | done => exact .done
  | @going site last noted hsite hrest =>
    rw [Climb.step]
    simp only [parentOf?_eq distinct hsite]
    have hnoted :
        (Ancestry.alongTrail (some site.block.kind) (site.trail.map Step.block)).reverse ++
          (if site.block.kind.opensScope && !Ancestry.continuesRun last site.block.kind then
            site.block.id :: noted else noted) = result := by
      rw [← hrest, Ancestry.alongTrail]
      split_ifs <;> simp
    rcases trail_eq_nil_or_led hsite with hroot | ⟨before, hbefore, hleads⟩
    · rw [hroot] at hnoted
      rw [Site.parent, hroot]
      exact hnoted ▸ .done
    · rw [hleads.parent_eq]
      rw [hleads.trail_eq] at hnoted
      exact .going hbefore hnoted

/-- One round leads to a block with a smaller number, or ends the loop. -/
theorem height_step {result : List String} {climb : Climb} (h : Climb.Yields tree result climb) :
    (climb.step tree).height tree ≤ climb.height tree - 1 := by
  cases h with
  | done => exact Nat.le_refl 0
  | @going site last noted hsite hrest =>
    rw [Climb.height, Climb.height, Climb.step]
    simp only [parentOf?_eq distinct hsite, Option.elim_some, Nat.add_sub_cancel]
    rcases trail_eq_nil_or_led hsite with hroot | ⟨before, hbefore, hleads⟩
    · rw [Site.parent, hroot]
      exact Nat.zero_le _
    · rw [hleads.parent_eq]
      exact number_lt_of_leads distinct hsite hleads

/-- As many rounds as the height end the loop with the result. -/
theorem ends_of_yields {result : List String} : ∀ {rounds : Nat} {climb : Climb},
    Climb.Yields tree result climb → climb.height tree ≤ rounds →
      ∃ last, (Climb.step tree)^[rounds] climb = ⟨none, last, result⟩
  | 0, _, .done, _ => ⟨_, rfl⟩
  | rounds + 1, climb, h, hheight => by
    have hstep := height_step distinct h
    rw [Function.iterate_succ_apply]
    exact ends_of_yields (yields_step distinct h) (by omega)

/-- At its beginning the loop yields the ancestry. -/
theorem yields_start (h : site ∈ tree.sites) :
    Climb.Yields tree site.ancestry (.start tree site.block) := by
  unfold Climb.start Site.ancestry Ancestry.ofBlock
  split_ifs with hscope
  · rw [parentOf?_eq distinct h]
    rcases trail_eq_nil_or_led h with hroot | ⟨before, hbefore, hleads⟩
    · rw [Site.parent, hroot]
      exact .done
    · rw [hleads.parent_eq, hleads.trail_eq]
      exact .going hbefore (List.append_nil _)
  · exact .going h (List.append_nil _)

theorem height_start_le (h : site ∈ tree.sites) :
    (Climb.start tree site.block).height tree ≤ tree.number site.block.id + 1 := by
  unfold Climb.start Climb.height
  split_ifs with hscope
  · rw [parentOf?_eq distinct h]
    rcases trail_eq_nil_or_led h with hroot | ⟨before, hbefore, hleads⟩
    · rw [Site.parent, hroot]
      exact Nat.zero_le _
    · rw [hleads.parent_eq]
      exact Nat.le_succ_of_le (number_lt_of_leads distinct h hleads)
  · exact Nat.le_refl _

/-! ## What is noted -/

/-- No block is met twice on the way back. -/
theorem nodup_ids_of_trail (h : site ∈ tree.sites) :
    ((site.block :: site.trail.map Step.block).map Block.id).Nodup := by
  induction site, h using sites_induction with
  | root root h => exact List.nodup_singleton _
  | leads before hbefore site hsite hleads ih =>
    rw [List.map_cons, hleads.trail_eq]
    refine List.nodup_cons.2 ⟨fun hmem => ?_, ih⟩
    rw [← hleads.trail_eq] at hmem
    obtain ⟨block, hblock, hid⟩ := List.mem_map.1 hmem
    have hlt := number_lt_of_mem_trail distinct hsite block hblock
    rw [hid] at hlt
    exact hlt.false

end Distinct

end Tree

/-- The ids of the blocks that open scopes. -/
def Block.scopeIds (blocks : List Block) : List String :=
  (blocks.filter fun block => block.kind.opensScope).map Block.id

theorem Block.scopeIds_cons (block : Block) (rest : List Block) :
    scopeIds (block :: rest) =
      if block.kind.opensScope then block.id :: scopeIds rest else scopeIds rest := by
  rw [scopeIds, List.filter_cons]
  split_ifs <;> rfl

theorem Block.scopeIds_reverse (blocks : List Block) :
    scopeIds blocks.reverse = (scopeIds blocks).reverse := by
  rw [scopeIds, List.filter_reverse, List.map_reverse, scopeIds]

theorem Block.scopeIds_sublist (blocks : List Block) :
    (scopeIds blocks).Sublist (blocks.map Block.id) :=
  List.filter_sublist.map Block.id

namespace Ancestry

theorem alongTrail_sublist : ∀ (last : Option Kind) (blocks : List Block),
    (alongTrail last blocks).Sublist (Block.scopeIds blocks)
  | _, [] => List.Sublist.slnil
  | last, block :: rest => by
    have hrest := alongTrail_sublist (some block.kind) rest
    rw [alongTrail, Block.scopeIds_cons]
    cases block.kind.opensScope with
    | true =>
      rw [Bool.true_and, if_pos rfl]
      split_ifs
      · exact hrest.cons_cons _
      · exact hrest.cons _
    | false => exact hrest

/-- What is noted does not depend on the block itself : it opens no scope or is left out. -/
theorem exists_ofBlock_eq (block : Block) (wayBack : List Block) :
    ∃ last : Option Kind, (∀ kind ∈ last, kind = block.kind) ∧
      ofBlock block wayBack = (alongTrail last wayBack).reverse := by
  unfold ofBlock
  split_ifs with hscope
  · exact ⟨none, by simp, rfl⟩
  · refine ⟨some block.kind, by simp, ?_⟩
    rw [alongTrail, if_neg (by simp [hscope])]

end Ancestry

namespace Tree

variable {tree : Tree} {site : Site}

/-- The blocks around a site, found along the links to owners, from the inside out. -/
inductive Enclosing (tree : Tree) : Site → List Block → Prop
  | outermost {site : Site} (h : site.owner = none) : Enclosing tree site []
  | inside {site outer : Site} {chain : List Block} (hmem : outer ∈ tree.sites)
      (h : site.owner = some outer.block) (hs : Enclosing tree outer chain) :
      Enclosing tree site (outer.block :: chain)

/-- These are the owners on the trail. -/
theorem enclosing_owners (h : site ∈ tree.sites) :
    tree.Enclosing site (Step.owners site.trail) := by
  induction site, h using sites_induction with
  | root root h => exact .outermost rfl
  | leads before hbefore site hsite hleads ih =>
    cases hleads with
    | next =>
      -- the block in front has the same owners
      generalize hchain : Step.owners _ = chain at ih
      rw [Step.owners, hchain]
      cases ih with
      | outermost h => exact .outermost h
      | inside hmem h hs => exact .inside hmem h hs
    | slot => exact .inside hbefore rfl ih

/-- The owners that open scopes are noted, in their order. -/
theorem owners_sublist_alongTrail (forked : tree.forked = true) (h : site ∈ tree.sites) :
    ∀ last : Option Kind, (∀ kind ∈ last, kind = site.block.kind) →
      (Block.scopeIds (Step.owners site.trail)).Sublist
        (Ancestry.alongTrail last (site.trail.map Step.block)) := by
  induction site, h using sites_induction with
  | root root h => exact fun last _ => List.Sublist.slnil
  | leads before hbefore site hsite hleads ih =>
    intro last hlast
    have hrest := ih (some before.block.kind) (by simp)
    rw [hleads.trail_eq, Ancestry.alongTrail]
    cases hleads with
    | next =>
      rw [Step.owners]
      split_ifs
      · exact hrest.cons _
      · exact hrest
    | slot =>
      rw [Step.owners, Block.scopeIds_cons, continuesRun_of_slot forked hsite rfl hlast,
        Bool.not_false, Bool.and_true]
      split_ifs
      · exact hrest.cons_cons _
      · exact hrest

/-- In a tree in which branches stand in forks of their kind only, the loop that looks for the
ancestry of a block ends, after no more rounds than there are nodes up to the block. It finds no id
twice, ids of blocks that open scopes only, and not that of the block. And it finds all blocks
around it that open scopes, the outermost first. -/
theorem enclosing_in_ancestry (forked : tree.forked = true) (distinct : tree.ids.Nodup)
    (h : site ∈ tree.sites) :
    (∀ rounds > tree.number site.block.id, ∃ last,
      (Climb.step tree)^[rounds] (.start tree site.block) = ⟨none, last, site.ancestry⟩) ∧
    site.ancestry.Nodup ∧
    (∀ id ∈ site.ancestry,
      ∃ other ∈ tree.sites, other.block.id = id ∧ other.block.kind.opensScope = true) ∧
    site.block.id ∉ site.ancestry ∧
    ∃ around, tree.Enclosing site around ∧
      (Block.scopeIds around.reverse).Sublist site.ancestry := by
  obtain ⟨last, hlast, hancestry⟩ :=
    Ancestry.exists_ofBlock_eq site.block (site.trail.map Step.block)
  have hscopes := Ancestry.alongTrail_sublist last (site.trail.map Step.block)
  have htrail := hscopes.trans (Block.scopeIds_sublist _)
  have hnodup := List.nodup_cons.1 (nodup_ids_of_trail distinct h)
  have hends (rounds) (hrounds : rounds > tree.number site.block.id) :=
    ends_of_yields distinct (yields_start distinct h) ((height_start_le distinct h).trans hrounds)
  refine ⟨hends, ?_⟩
  rw [Site.ancestry, hancestry]
  refine ⟨List.nodup_reverse.2 (hnodup.2.sublist htrail), fun id hid => ?_, fun hid => ?_, _,
    enclosing_owners h, ?_⟩
  · obtain ⟨block, hblock, rfl⟩ := List.mem_map.1 (hscopes.subset (List.mem_reverse.1 hid))
    obtain ⟨hmem, hscope⟩ := List.mem_filter.1 hblock
    obtain ⟨other, hother, rfl⟩ := exists_site_of_mem_trail h block hmem
    exact ⟨other, hother, rfl, hscope⟩
  · exact hnodup.1 (htrail.subset (List.mem_reverse.1 hid))
  · rw [Block.scopeIds_reverse]
    exact (owners_sublist_alongTrail forked h last hlast).reverse

/-- From inside of the second branch of a fork that stands behind a restriction, the loop comes past
the first branch and the restriction, and finds what is around and the restriction. -/
theorem enclosing_in_ancestry_behind :
    let tree := program [.mk "before" .restrict [] [], forking]
    tree.forked = true ∧ tree.ids.Nodup ∧ ∃ site ∈ tree.sites,
      site.block.id = "right end" ∧ site.ancestry = ["main", "before", "fork", "right"] ∧
      (∃ last, (Climb.step tree)^[7] (.start tree site.block) =
        ⟨none, last, ["main", "before", "fork", "right"]⟩) ∧
      ∃ around, tree.Enclosing site around ∧
        (Block.scopeIds around.reverse).Sublist ["main", "before", "fork", "right"] := by
  intro tree
  have forked : tree.forked = true := by decide
  have distinct : tree.ids.Nodup := by decide
  have hsite : tree.sites[6]? = some _ := rfl
  have hmem := List.mem_of_getElem? hsite
  obtain ⟨hends, -, -, -, haround⟩ := enclosing_in_ancestry forked distinct hmem
  exact ⟨forked, distinct, _, hmem, rfl, by decide, hends 7 (by decide), haround⟩

end Tree

end PiBlocks
