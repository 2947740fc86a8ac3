import PiBlocks.Proofs.Walk.Branches
import PiBlocks.Proofs.Walk.Written

/-!
# Forks

A fork that is visited inside of a program or definition gives what its branches give, collapsed
(`Tree.text_of_fork`) : the count that travels along with the walk is the number of branches that
have more than blanks, wherever those without stand in the chain and whatever forks there are inside
of the branches.

So a branch that gives nothing but blanks may as well be missing. If keys are distinct, what is left
of a fork without such branches (`Block.keeping`) gives the same where the walk came to it.
-/

namespace PiBlocks

open Block

namespace Block

/-! ## Some of the branches -/

/-- The chain in a slot, without some blocks if it is the chain inside of a block of the kind. -/
def keepingIn (kind : Kind) (keep : Block → Bool) (slot : String) (chain : List Block) :
    List Block :=
  if kind.bodySlot = some slot then chain.filter keep else chain

/-- The block with some of the blocks in the chain inside only. -/
def keeping (keep : Block → Bool) : Block → Block
  | .mk id kind fields slots =>
    .mk id kind fields (slots.map fun entry => (entry.1, keepingIn kind keep entry.1 entry.2))

variable {block : Block} {keep : Block → Bool} {kind : Kind}

@[simp] theorem kind_keeping (keep : Block → Bool) (block : Block) :
    (block.keeping keep).kind = block.kind := by
  cases block
  rfl

theorem keepingIn_sublist (kind : Kind) (keep : Block → Bool) (slot : String) (chain : List Block) :
    (keepingIn kind keep slot chain).Sublist chain := by
  rw [keepingIn]
  split_ifs
  · exact List.filter_sublist
  · exact List.Sublist.refl _

theorem chain_keeping (keep : Block → Bool) (block : Block) (slot : String) :
    (block.keeping keep).chain slot = keepingIn block.kind keep slot (block.chain slot) := by
  obtain ⟨id, kind, fields, slots⟩ := block
  rw [keeping, chain_mk, chain_mk, kind_mk]
  induction slots with
  | nil => simp [OrderedMap.get?, keepingIn]
  | cons entry slots ih =>
    by_cases h : entry.1 = slot
    · simp [OrderedMap.get?, h]
    · simpa [OrderedMap.get?, h] using ih

/-- In a fork, only the chosen branches are left. -/
theorem body_keeping (keep : Block → Bool) (hfork : block.kind.isFork = true) :
    (block.keeping keep).body = block.body.filter keep := by
  have hskips (other : Block) (hkind : other.kind = block.kind) : other.skipsBody = false := by
    rw [← hkind] at hfork
    obtain ⟨id, kind, fields, slots⟩ := other
    cases kind <;> first | rfl | cases hfork
  rw [body, body, hskips _ (kind_keeping keep block), hskips _ rfl, kind_keeping]
  cases hslot : block.kind.bodySlot with
  | none => rfl
  | some slot => simp [chain_keeping, keepingIn, hslot]

theorem chainWellPlaced_sublist {slot : String} {chain part : List Block} (h : part.Sublist chain)
    (placed : chainWellPlaced slot chain = true) : chainWellPlaced slot part = true := by
  induction h with
  | slnil => exact placed
  | cons block _ ih =>
    simp only [chainWellPlaced, Bool.and_eq_true] at placed
    exact ih placed.1.2
  | cons_cons block hsub ih =>
    simp only [chainWellPlaced, Bool.and_eq_true, Bool.or_eq_true] at placed ⊢
    refine ⟨⟨placed.1.1, ih placed.1.2⟩, placed.2.imp_left fun hempty => ?_⟩
    rw [List.isEmpty_iff] at hempty ⊢
    exact List.sublist_nil.1 (hempty ▸ hsub)

theorem wellPlaced_keeping (keep : Block → Bool) (placed : block.wellPlaced = true) :
    (block.keeping keep).wellPlaced = true := by
  obtain ⟨id, kind, fields, slots⟩ := block
  rw [wellPlaced] at placed
  rw [keeping, wellPlaced]
  induction slots with
  | nil => rfl
  | cons entry slots ih =>
    rw [slotsWellPlaced, Bool.and_eq_true] at placed
    rw [List.map_cons, slotsWellPlaced, Bool.and_eq_true]
    have hchain := chainWellPlaced_sublist (keepingIn_sublist kind keep entry.1 entry.2) placed.1
    exact ⟨hchain, ih placed.2⟩

theorem idsOf_sublist {chain part : List Block} (h : part.Sublist chain) :
    (idsOf part).Sublist (idsOf chain) := by
  induction h with
  | slnil => exact List.Sublist.refl _
  | cons block _ ih =>
    rw [idsOf_cons]
    exact (ih.trans (List.sublist_append_right _ _)).cons _
  | cons_cons block _ ih =>
    rw [idsOf_cons, idsOf_cons]
    exact (ih.append_left _).cons_cons _

theorem ownKeys_keeping_sublist (keep : Block → Bool) (block : Block) :
    (block.keeping keep).ownKeys.Sublist block.ownKeys := by
  obtain ⟨id, kind, fields, slots⟩ := block
  refine List.Sublist.cons_cons _ (List.Sublist.map _ ?_)
  rw [keeping, idsBelow_mk, idsBelow_mk]
  induction slots with
  | nil => exact List.Sublist.refl _
  | cons entry slots ih =>
    rw [List.map_cons, slotIds_cons, slotIds_cons]
    exact (idsOf_sublist (keepingIn_sublist kind keep entry.1 entry.2)).append ih

/-! ## What forks give -/

section

variable {visible : String → Bool} {bare : Bool}

theorem written_of_isBranch (hbranch : block.kind.isBranch = true) :
    written visible bare block = branchText (block.writtenBody visible) := by
  rw [written_eq, writtenBody]
  revert hbranch
  cases block.kind <;> intro hbranch <;> first | rfl | cases hbranch

/-- The branches of a fork give texts with more than blanks, or none. -/
theorem written_branches (placed : block.wellPlaced = true) (hfork : block.kind.isFork = true) :
    ∀ text ∈ block.body.map (written visible bare), text = "" ∨ Text.isBlank text = false := by
  refine List.forall_mem_map.2 fun inner hinner => ?_
  have hbranch : inner.kind.isBranch = true := by
    rw [kind_of_mem_fork placed hfork hinner]
    exact Kind.isBranch_branch _
  rw [written_of_isBranch hbranch]
  exact branchText_eq_empty_or _

/-- A fork binds no names. -/
theorem within_of_isFork (hfork : block.kind.isFork = true) : block.within visible = visible := by
  have hbinds : block.binds = [] := by
    obtain ⟨id, kind, fields, slots⟩ := block
    cases kind <;> first | rfl | cases hfork
  funext name
  simp [within, hbinds]

theorem written_of_isFork (placed : block.wellPlaced = true) (hfork : block.kind.isFork = true) :
    written visible bare block = collapse block.kind.operator bare
      ((block.body.map (written visible false)).filter fun text => !text.isEmpty) := by
  have htexts : ∀ text ∈ block.body.map (written visible false),
      text = "" ∨ Text.isBlank text = false := written_branches placed hfork
  rw [written_eq, within_of_isFork hfork, Kind.not_opensGate_of_isFork hfork,
    ownText_of_branches placed hfork (List.length_map _).symm htexts rfl rfl, Scopes.isBody_around]

/-- A fork gives the same without branches that have no text. -/
theorem written_keeping (placed : block.wellPlaced = true) (hfork : block.kind.isFork = true)
    (hkeep : ∀ inner ∈ block.body, keep inner = false → written visible false inner = "") :
    written visible bare (block.keeping keep) = written visible bare block := by
  have hkept := wellPlaced_keeping keep placed
  have hfork' : (block.keeping keep).kind.isFork = true := by rwa [kind_keeping]
  rw [written_of_isFork placed hfork, written_of_isFork hkept hfork', kind_keeping,
    body_keeping keep hfork, List.filter_map, List.filter_map, List.filter_filter]
  congr 2
  refine List.filter_congr fun inner hinner => ?_
  cases h : keep inner with
  | true => simp
  | false => simp [hkeep inner hinner h]

end

end Block

/-! ## Forks that are visited -/

namespace Tree

variable {tree : Tree} {scopes : Scopes} {visit : Visit}

/-- With distinct keys, a block of a chain inside gives what is written for it. -/
theorem text_of_mem_inside (placed : tree.wellPlaced = true)
    (distinct : (tree.ids.map Scope.key).Nodup) (h : visit ∈ tree.visits scopes)
    (hterm : visit.site.block.kind.isTerm = true)
    (hcounts : visit.run.counts visit.site.block.kind = true) :
    ∀ inner ∈ visit.inside, inner.text = written
      (visit.site.block.within visit.run.scopes.isVisible) visit.site.block.kind.opensGate
      inner.site.block := by
  have hplaced := wellPlaced_of_mem_sites placed (telling_of_mem_visits h).site
  obtain ⟨place, more, hat⟩ := at_of_mem_visits placed h hterm hcounts distinct
  have htexts := bodyTexts_eq_map (fun inner _ => isWritten inner) visit.site.trail hplaced hterm
    hcounts hat
  rw [← visit.map_text_inside, ← visit.map_block_inside, List.map_map] at htexts
  exact List.map_inj_left.1 htexts

/-- A fork gives the texts of its branches that have more than blanks, one by itself, and more with
the operator between them and in brackets, unless it stands in the chain of a program or definition.
It leaves the counts of the forks around it as they were. If keys are distinct, branches without
text may be left out where the walk came to it. -/
theorem text_of_fork (placed : tree.wellPlaced = true) (h : visit ∈ tree.visits scopes)
    (hemitting : visit.run.emitting = true) (hfork : visit.site.block.kind.isFork = true) :
    visit.inside.map Visit.site = visit.site.inside ∧ visit.inside ⊆ tree.visits scopes ∧
      visit.text = collapse visit.site.block.kind.operator visit.site.inBody
        ((visit.inside.map Visit.bodyText).filter fun text => !Text.isBlank text) ∧
      ((renderBlock visit.site.block).run visit.run).2.branches = visit.run.branches ∧
      ((tree.ids.map Scope.key).Nodup → ∀ keep : Block → Bool,
        (∀ inner ∈ visit.inside, keep inner.site.block = false →
          Text.isBlank inner.bodyText = true) →
        ((renderBlock (visit.site.block.keeping keep)).run visit.run).1 = visit.text) := by
  have htelling := telling_of_mem_visits h
  have hplaced := wellPlaced_of_mem_sites placed htelling.site
  have hterm := Kind.isTerm_of_isFork hfork
  have hcounts := counts_of_emitting visit.site.block.kind hemitting
  obtain ⟨kinds, around, haround, hinBody⟩ := around_of_mem_visits placed h hterm hcounts
  refine ⟨visit.map_site_inside, inside_subset placed h hterm hcounts, ?_, ?_, fun distinct keep
    hkeep => ?_⟩
  · rw [htelling.text, Visit.value_of_isFork hplaced hfork hemitting haround, hinBody]
  · obtain ⟨hpassed, -⟩ := passed visit.site.block [] [] hplaced hterm hcounts
    have hcount : branchCount visit.site.block
        (traceBlock [] [] visit.site.block visit.run).value = 0 := by
      simp [branchCount, Kind.not_isBranch_of_isFork hfork]
    rw [run_renderBlock _ [] [], hpassed.branches, hcount, Run.counted_zero]
  · obtain ⟨place, more, hat⟩ := at_of_mem_visits placed h hterm hcounts distinct
    have hkept : visit.run.At place ((visit.site.block.keeping keep).ownKeys ++ more) :=
      hat.sublist ((ownKeys_keeping_sublist keep visit.site.block).append_right more)
    have hblank : ∀ inner ∈ visit.site.block.body, keep inner = false →
        written visit.run.scopes.isVisible false inner = "" := by
      intro block hblock hnot
      rw [← visit.map_block_inside] at hblock
      obtain ⟨inner, hinner, rfl⟩ := List.mem_map.1 hblock
      have htext := text_of_mem_inside placed distinct h hterm hcounts inner hinner
      rw [within_of_isFork hfork, Kind.not_opensGate_of_isFork hfork,
        Visit.text_of_branch hplaced hfork hemitting hinner] at htext
      rw [← htext, branchText_eq_empty_iff]
      exact hkeep inner hinner hnot
    rw [run_renderBlock _ [] [], htelling.text,
      isWritten _ visit.site.trail visit.site.followers hplaced hterm hcounts hat,
      isWritten _ [] [] (wellPlaced_keeping keep hplaced) (by rwa [kind_keeping])
        (by rwa [kind_keeping]) hkept, written_keeping hplaced hfork hblank]

/-- A fork below a restriction, with an empty branch and with a fork of one branch inside. -/
def forkingTwice : Tree :=
  program [.mk "restrict" .restrict [(FieldName.new, "x")] [(SlotName.scope, [
    .mk "outer" .parallelFork [] [(SlotName.parallel, [
      .mk "first" .parallelBranch [] [],
      .mk "second" .parallelBranch [] [(SlotName.scope, [ending "end"])],
      .mk "third" .parallelBranch [] [(SlotName.scope, [
        .mk "inner" .choiceFork [] [(SlotName.choice, [
          .mk "only" .choiceBranch [] [(SlotName.scope, [ending "inner end"])]])]])]])]])]]

theorem text_of_fork_forkingTwice : forkingTwice.wellPlaced = true ∧
    (forkingTwice.ids.map Scope.key).Nodup ∧ ∃ visit ∈ forkingTwice.visits {},
      visit.run.emitting = true ∧ visit.site.block.kind = .parallelFork ∧
      visit.inside.map Visit.bodyText = ["", "0", "0"] ∧ visit.text = "(0 | 0)" ∧
      ((renderBlock (visit.site.block.keeping fun branch => branch.id ≠ "first")).run
        visit.run).1 = "(0 | 0)" := by
  have placed : forkingTwice.wellPlaced = true := by decide
  have distinct : (forkingTwice.ids.map Scope.key).Nodup := by decide +kernel
  obtain ⟨visit, h, hemitting, hkind, hbodies, howner, hblank⟩ :
      ∃ visit ∈ forkingTwice.visits {}, visit.run.emitting = true ∧
        visit.site.block.kind = .parallelFork ∧
        visit.inside.map Visit.bodyText = ["", "0", "0"] ∧ visit.site.inBody = false ∧
        ∀ inner ∈ visit.inside, decide (inner.site.block.id ≠ "first") = false →
          Text.isBlank inner.bodyText = true := by
    decide +kernel
  obtain ⟨-, -, htext, -, hkeeping⟩ :=
    text_of_fork placed h hemitting (by rw [hkind]; rfl)
  have htext : visit.text = "(0 | 0)" := by
    rw [htext, hbodies, howner, hkind]
    rfl
  exact ⟨placed, distinct, visit, h, hemitting, hkind, hbodies, htext,
    (hkeeping distinct _ hblank).trans htext⟩

end Tree

end PiBlocks
