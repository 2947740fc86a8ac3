import PiBlocks.Proofs.Block.Sites
import PiBlocks.Program.Render
import Mathlib.Data.List.Forall2
import Mathlib.Data.List.Perm.Basic
import Mathlib.Tactic.SplitIfs

/-!
# Placement

An editor lets a block be put only where its kind belongs : statements in the chains of
programs, definitions and prefixes, one reference where a value is asked for, and items and
branches in the slots of the blocks they are parts of (`SlotName.admits`). Programs,
definitions and global names stand at the top level, programs and definitions alone and
global names in chains of their own. A tree of such chains is well-placed.

`Block.wellPlaced` and `Tree.wellPlaced` decide it. What is in a slot of a well-placed block is
admitted there and well-placed itself (`Block.of_chainWellPlaced`), so what holds of all such
blocks holds of everything below (`Block.of_mem_sitesOf`).
-/

namespace PiBlocks

namespace Kind

/-- Whether the chains of programs and definitions are made of such blocks. -/
def isStatement : Kind → Bool
  | .call | .restrict | .multiRestrict | .receive | .multiReceive | .guarded | .parallelFork
  | .choiceFork | .send | .multiSend | .sync | .termination => true
  | _ => false

/-- Whether such a block has branches. -/
def isFork (kind : Kind) : Bool := kind = .parallelFork || kind = .choiceFork

/-- Whether such a block is a branch. -/
def isBranch (kind : Kind) : Bool := kind = .parallelBranch || kind = .choiceBranch

/-- The kind of the branches of a fork. -/
def branch (fork : Kind) : Kind := if fork = .choiceFork then .choiceBranch else .parallelBranch

/-- Whether such a block declares a name in the scope around it. -/
def isName (kind : Kind) : Bool :=
  kind = .globalName || kind = .restrictName || kind = .receiveName

/-- Whether such a block is a term of its own, not a part of the head of another one. -/
def isTerm (kind : Kind) : Bool := kind.isStatement || kind.isBranch || kind.opensGate

section

variable {kind : Kind}

theorem isBranch_branch (fork : Kind) : fork.branch.isBranch = true := by
  rw [branch]
  split_ifs <;> rfl

theorem isTerm_of_isBranch (h : kind.isBranch = true) : kind.isTerm = true := by
  simp [isTerm, h]

theorem isTerm_of_isFork (h : kind.isFork = true) : kind.isTerm = true := by
  cases kind <;> first | rfl | cases h

theorem isTerm_of_opensGate (h : kind.opensGate = true) : kind.isTerm = true := by
  simp [isTerm, h]

theorem not_isTerm_of_isName (h : kind.isName = true) : kind.isTerm = false := by
  cases kind <;> first | rfl | cases h

theorem isStatement_of_needsStop (h : kind.needsStop = true) : kind.isStatement = true := by
  cases kind <;> first | rfl | cases h

theorem not_isBranch_of_isStatement (h : kind.isStatement = true) : kind.isBranch = false := by
  cases kind <;> first | rfl | cases h

theorem not_isBranch_of_isFork (h : kind.isFork = true) : kind.isBranch = false := by
  cases kind <;> first | rfl | cases h

theorem not_opensGate_of_isFork (h : kind.isFork = true) : kind.opensGate = false := by
  cases kind <;> first | rfl | cases h

theorem not_isFork_of_needsStop (h : kind.needsStop = true) : kind.isFork = false := by
  cases kind <;> first | rfl | cases h

end

end Kind

namespace SlotName

/-- The slots of single references. -/
def values : List String := [on, message, first, second, arg]

/-- Whether a slot may hold blocks of a kind. -/
def admits (slot : String) (kind : Kind) : Bool :=
  if slot = main || slot = body || slot = scope then kind.isStatement
  else if values.contains slot then kind = .reference
  else if slot = names then kind = .restrictName || kind = .receiveName
  else if slot = messages then kind = .sendName
  else if slot = params then kind = .parameter
  else if slot = args then kind = .argument
  else if slot = parallel then kind = .parallelBranch
  else if slot = choice then kind = .choiceBranch
  else !kind.bypassesGate

section

attribute [local simp] admits values main body scope names parallel choice params args messages
  on message first second arg

@[simp] theorem admits_main (kind : Kind) : admits main kind = kind.isStatement := by simp

@[simp] theorem admits_body (kind : Kind) : admits body kind = kind.isStatement := by simp

@[simp] theorem admits_scope (kind : Kind) : admits scope kind = kind.isStatement := by simp

@[simp] theorem admits_names (kind : Kind) :
    admits names kind = (kind = .restrictName || kind = .receiveName) := by simp

@[simp] theorem admits_parallel (kind : Kind) :
    admits parallel kind = decide (kind = .parallelBranch) := by simp

@[simp] theorem admits_choice (kind : Kind) :
    admits choice kind = decide (kind = .choiceBranch) := by simp

@[simp] theorem admits_args (kind : Kind) : admits args kind = decide (kind = .argument) := by
  simp

@[simp] theorem admits_messages (kind : Kind) :
    admits messages kind = decide (kind = .sendName) := by simp

theorem admits_of_mem_values {slot : String} (h : slot ∈ values) (kind : Kind) :
    admits slot kind = decide (kind = .reference) := by
  simp only [values, List.mem_cons, List.not_mem_nil, or_false] at h
  rcases h with rfl | rfl | rfl | rfl | rfl <;> simp

end

end SlotName

namespace Block

mutual

/-- Whether everything that hangs off a block is in its place. -/
def wellPlaced : Block → Bool
  | .mk _ _ _ slots => slotsWellPlaced slots

/-- Whether the chains in slots are in their places. -/
def slotsWellPlaced : List (String × List Block) → Bool
  | [] => true
  | (slot, chain) :: slots => chainWellPlaced slot chain && slotsWellPlaced slots

/-- Whether a chain is in its place in a slot. -/
def chainWellPlaced (slot : String) : List Block → Bool
  | [] => true
  | block :: rest =>
    SlotName.admits slot block.kind && wellPlaced block && chainWellPlaced slot rest
      && (rest.isEmpty || !SlotName.values.contains slot)

end

variable {block : Block} {slot : String}

theorem of_chainWellPlaced : ∀ {chain : List Block}, chainWellPlaced slot chain = true →
    ∀ block ∈ chain, SlotName.admits slot block.kind = true ∧ block.wellPlaced = true
  | [], _, block, hb => by simp at hb
  | first :: rest, h, block, hb => by
    simp only [chainWellPlaced, Bool.and_eq_true] at h
    rcases List.mem_cons.1 hb with rfl | hb
    · exact h.1.1
    · exact of_chainWellPlaced h.1.2 block hb

/-- The slot of a value holds one reference or none. -/
theorem chain_of_mem_values {chain : List Block} (hslot : slot ∈ SlotName.values)
    (h : chainWellPlaced slot chain = true) : chain = [] ∨ ∃ block, chain = [block] := by
  match chain, h with
  | [], _ => exact .inl rfl
  | [block], _ => exact .inr ⟨block, rfl⟩
  | first :: second :: rest, h => simp [chainWellPlaced, hslot] at h

theorem chainWellPlaced_of_slots : ∀ {slots : List (String × List Block)} {chain : List Block},
    slotsWellPlaced slots = true → (slot, chain) ∈ slots → chainWellPlaced slot chain = true
  | (name, first) :: slots, chain, h, hmem => by
    simp only [slotsWellPlaced, Bool.and_eq_true] at h
    rcases List.mem_cons.1 hmem with heq | hmem
    · obtain ⟨rfl, rfl⟩ := Prod.mk.inj heq
      exact h.1
    · exact chainWellPlaced_of_slots h.2 hmem

/-- In a block in its place, the chain in each slot is. -/
theorem wellPlaced_chain (h : block.wellPlaced = true) (slot : String) :
    chainWellPlaced slot (block.chain slot) = true := by
  obtain ⟨id, kind, fields, slots⟩ := block
  rw [wellPlaced] at h
  rw [chain, slots_mk]
  cases hget : OrderedMap.get? slot slots with
  | none => simp [chainWellPlaced]
  | some chain => exact chainWellPlaced_of_slots h (OrderedMap.mem_of_get? hget)

theorem admits_of_mem (h : block.wellPlaced = true) {inner : Block}
    (hinner : inner ∈ block.chain slot) : SlotName.admits slot inner.kind = true :=
  (of_chainWellPlaced (wellPlaced_chain h slot) inner hinner).1

theorem wellPlaced_of_mem (h : block.wellPlaced = true) {inner : Block}
    (hinner : inner ∈ block.chain slot) : inner.wellPlaced = true :=
  (of_chainWellPlaced (wellPlaced_chain h slot) inner hinner).2

/-- No slot admits programs and definitions. -/
theorem opensGate_of_admits {kind : Kind} (h : SlotName.admits slot kind = true) :
    kind.opensGate = false := by
  revert h
  rw [SlotName.admits]
  split_ifs <;> cases kind <;>
    simp [Kind.isStatement, Kind.opensGate, Kind.bypassesGate]

section

variable {P : Block → Prop} {site : Site}

mutual

theorem of_mem_sitesBelow (inner : ∀ slot block, SlotName.admits slot block.kind = true →
    block.wellPlaced = true → P block) : ∀ (block : Block) (trail : List Step),
    block.wellPlaced = true → site ∈ sitesBelow trail block → P site.block
  | .mk id kind fields slots, trail, placed, h => by
    rw [sitesBelow] at h
    rw [wellPlaced] at placed
    exact of_mem_sitesInSlots inner slots _ placed h

theorem of_mem_sitesInSlots (inner : ∀ slot block, SlotName.admits slot block.kind = true →
    block.wellPlaced = true → P block) :
    ∀ (slots : List (String × List Block)) (trail : List Step), slotsWellPlaced slots = true →
      site ∈ sitesInSlots trail slots → P site.block
  | [], trail, _, h => by simp [sitesInSlots] at h
  | (slot, chain) :: slots, trail, placed, h => by
    rw [slotsWellPlaced, Bool.and_eq_true] at placed
    rw [sitesInSlots, List.mem_append] at h
    have hchain : ∀ block ∈ chain, block.wellPlaced = true ∧ P block := fun block hb =>
      have hinner := of_chainWellPlaced placed.1 block hb
      ⟨hinner.2, inner slot block hinner.1 hinner.2⟩
    exact h.elim (of_mem_sitesOf inner chain trail hchain)
      (of_mem_sitesInSlots inner slots trail placed.2)

/-- What holds of well-placed blocks that a slot admits holds of everything below a chain if it
holds of the blocks of the chain. -/
theorem of_mem_sitesOf (inner : ∀ slot block, SlotName.admits slot block.kind = true →
    block.wellPlaced = true → P block) : ∀ (chain : List Block) (trail : List Step),
    (∀ block ∈ chain, block.wellPlaced = true ∧ P block) → site ∈ sitesOf trail chain →
      P site.block
  | [], trail, _, h => by simp [sitesOf] at h
  | block :: rest, trail, placed, h => by
    obtain ⟨hplaced, hblock⟩ := placed block List.mem_cons_self
    rw [sitesOf, List.mem_cons, List.mem_append] at h
    rcases h with rfl | h | h
    · exact hblock
    · exact of_mem_sitesBelow inner block trail hplaced h
    · exact of_mem_sitesOf inner rest _
        (fun other ho => placed other (List.mem_cons_of_mem _ ho)) h

end

/-- Below a well-placed block are no programs and definitions. -/
theorem opensGate_of_mem_sitesBelow {trail : List Step} (placed : block.wellPlaced = true)
    (h : site ∈ sitesBelow trail block) : site.block.kind.opensGate = false :=
  of_mem_sitesBelow (P := fun block => block.kind.opensGate = false)
    (fun _ _ hadmits _ => opensGate_of_admits hadmits) block trail placed h

end

end Block

/-! ## The top level -/

theorem exists_of_mem_forall₂ {α β : Type} {R : α → β → Prop} {items : List α} {others : List β}
    (h : List.Forall₂ R items others) {other : β} (hother : other ∈ others) :
    ∃ item ∈ items, R item other := by
  induction h with
  | nil => cases hother
  | cons hitem _ ih =>
    rcases List.mem_cons.1 hother with rfl | hother
    · exact ⟨_, List.mem_cons_self, hitem⟩
    · obtain ⟨item, hmem, hrest⟩ := ih hother
      exact ⟨item, List.mem_cons_of_mem _ hmem, hrest⟩

/-- Whether a chain of the top level is in its place. -/
def Root.wellPlaced (root : Root) : Bool :=
  root.chain.all Block.wellPlaced &&
    if root.head.kind.opensGate then root.rest.isEmpty
    else if root.head.kind = .globalName then root.rest.all fun block => block.kind = .globalName
    else root.rest.all fun block => !block.kind.bypassesGate

/-- Whether every block of a tree is in its place. -/
def Tree.wellPlaced (tree : Tree) : Bool := tree.roots.all Root.wellPlaced

namespace Root

variable {root : Root}

theorem of_wellPlaced (h : root.wellPlaced = true) :
    ∀ block ∈ root.chain, block.wellPlaced = true := by
  simp only [wellPlaced, Bool.and_eq_true, List.all_eq_true] at h
  exact h.1

/-- Programs and definitions stand alone. -/
theorem chain_of_opensGate (h : root.wellPlaced = true)
    (hkind : root.head.kind.opensGate = true) : root.chain = [root.head] := by
  rw [wellPlaced, Bool.and_eq_true] at h
  simpa [hkind, chain] using h.2

/-- In a chain with a program or definition, that is the head. -/
theorem opensGate_head (h : root.wellPlaced = true) {site : Site}
    (hsite : site ∈ Block.sitesOf [] root.chain) (hgate : site.block.kind.opensGate = true) :
    root.head.kind.opensGate = true := by
  by_contra hhead
  rw [Bool.not_eq_true] at hhead
  have hchain : ∀ block ∈ root.chain, block.kind.opensGate = false := by
    rw [wellPlaced, Bool.and_eq_true, hhead, if_neg Bool.false_ne_true] at h
    rw [chain, List.forall_mem_cons]
    refine ⟨hhead, ?_⟩
    by_cases hglobal : root.head.kind = .globalName
    · rw [if_pos hglobal] at h
      intro block hb
      have hkind := of_decide_eq_true (List.all_eq_true.1 h.2 block hb)
      simp [hkind, Kind.opensGate]
    · rw [if_neg hglobal] at h
      intro block hb
      have hbypass := List.all_eq_true.1 h.2 block hb
      simp only [Kind.bypassesGate, Bool.not_eq_true', Bool.or_eq_false_iff] at hbypass
      simp [Kind.opensGate, hbypass.1]
  have hnot := Block.of_mem_sitesOf (P := fun block => block.kind.opensGate = false)
    (fun _ _ hadmits _ => Block.opensGate_of_admits hadmits) root.chain []
    (fun block hb => ⟨of_wellPlaced h block hb, hchain block hb⟩) hsite
  rw [hgate] at hnot
  cases hnot

/-- Global names stand in chains of their own. -/
theorem kind_of_isGlobal (h : root.wellPlaced = true) (hglobal : root.isGlobal = true) :
    ∀ block ∈ root.chain, block.kind = .globalName := by
  have hhead : root.head.kind = .globalName := by simpa [isGlobal] using hglobal
  rw [wellPlaced, Bool.and_eq_true] at h
  simpa [chain, hhead, Kind.opensGate] using h.2

theorem insertSorted_perm (root : Root) : ∀ roots, (insertSorted root roots).Perm (root :: roots)
  | [] => List.Perm.refl _
  | other :: rest => by
    rw [insertSorted]
    split_ifs
    · exact List.Perm.refl _
    · exact ((insertSorted_perm root rest).cons other).trans (List.Perm.swap root other rest)

theorem foldl_insertSorted_perm : ∀ roots sorted : List Root,
    (roots.foldl (fun sorted root => insertSorted root sorted) sorted).Perm (roots ++ sorted)
  | [], sorted => List.Perm.refl sorted
  | root :: roots, sorted =>
    (foldl_insertSorted_perm roots _).trans
      (((insertSorted_perm root sorted).append_left roots).trans List.perm_middle)

section

variable {R : Root → Root → Prop} (hplace : ∀ root other, R root other → root.place = other.place)
include hplace

theorem forall₂_insertSorted {root other : Root} (h : R root other) :
    ∀ {roots others : List Root}, List.Forall₂ R roots others →
      List.Forall₂ R (insertSorted root roots) (insertSorted other others)
  | _, _, .nil => .cons h .nil
  | _, _, .cons hfirst hrest => by
    have hkey {root other : Root} (h : R root other) : root.key = other.key := by
      simp only [key, hplace root other h]
    rw [insertSorted, insertSorted, hkey h, hkey hfirst]
    split_ifs
    · exact .cons h (.cons hfirst hrest)
    · exact .cons hfirst (forall₂_insertSorted h hrest)

theorem forall₂_foldl {roots others sorted sorted' : List Root} (h : List.Forall₂ R roots others)
    (hsorted : List.Forall₂ R sorted sorted') :
    List.Forall₂ R (roots.foldl (fun sorted root => insertSorted root sorted) sorted)
      (others.foldl (fun sorted root => insertSorted root sorted) sorted') := by
  induction h generalizing sorted sorted' with
  | nil => exact hsorted
  | cons hroot _ ih => exact ih (forall₂_insertSorted hplace hroot hsorted)

end

end Root

namespace Tree

/-- Chains that stand in the same places are walked in the same order. -/
theorem forall₂_visitOrder {R : Root → Root → Prop}
    (hplace : ∀ root other, R root other → root.place = other.place)
    (hglobal : ∀ root other, R root other → root.isGlobal = other.isGlobal) {tree other : Tree}
    (h : List.Forall₂ R tree.roots other.roots) :
    List.Forall₂ R tree.visitOrder other.visitOrder := by
  have hordered : List.Forall₂ R tree.ordered other.ordered := Root.forall₂_foldl hplace h .nil
  refine List.rel_append (List.rel_filter ?_ hordered) (List.rel_filter ?_ hordered) <;>
    intro root root' h <;> simp [hglobal root root' h]

variable (tree : Tree)

theorem ordered_perm : tree.ordered.Perm tree.roots := by
  simpa [ordered, Root.sort] using Root.foldl_insertSorted_perm tree.roots []

theorem mem_ordered {root : Root} : root ∈ tree.ordered ↔ root ∈ tree.roots :=
  tree.ordered_perm.mem_iff

/-- The walk goes through every chain of the top level once. -/
theorem visitOrder_perm : tree.visitOrder.Perm tree.roots :=
  (List.filter_append_perm _ _).trans tree.ordered_perm

theorem mem_visitOrder {root : Root} : root ∈ tree.visitOrder ↔ root ∈ tree.roots :=
  tree.visitOrder_perm.mem_iff

theorem wellPlaced_of_mem {tree : Tree} (h : tree.wellPlaced = true) {root : Root}
    (hroot : root ∈ tree.visitOrder) : root.wellPlaced = true :=
  List.all_eq_true.1 h root (tree.mem_visitOrder.1 hroot)

theorem wellPlaced_of_mem_sites {tree : Tree} (h : tree.wellPlaced = true) {site : Site}
    (hsite : site ∈ tree.sites) : site.block.wellPlaced = true := by
  obtain ⟨root, hroot, hchain⟩ := List.mem_flatMap.1 hsite
  have placed := Root.of_wellPlaced (List.all_eq_true.1 h root hroot)
  exact Block.of_mem_sitesOf (P := fun block => block.wellPlaced = true)
    (fun _ _ _ hinner => hinner) root.chain [] (fun block hb => ⟨placed block hb, placed block hb⟩)
    hchain

theorem ids_perm :
    (tree.visitOrder.flatMap fun root => Block.idsOf root.chain).Perm tree.ids := by
  simpa [ids, sites, Block.idsOf, List.map_flatMap] using
    tree.visitOrder_perm.flatMap_right fun root => Block.idsOf root.chain

end Tree

end PiBlocks
