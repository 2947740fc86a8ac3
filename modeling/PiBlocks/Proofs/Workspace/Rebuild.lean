import PiBlocks.Program.Pass
import PiBlocks.Proofs.Block.Placement
import Mathlib.Data.List.Nodup

/-!
# Trees written down and built again

A tree made of saved blocks is written down by `Tree.toSaved`, in reading order and with every
id, and built again from that. Nothing is lost on the way (`Tree.ofSaved_toSaved`) : what is
written for a chain is read as that chain (`SavedBlock.run_toChain_saveBefore`), as long as no
slot holds an empty one, and building leaves none (`SavedBlock.filled_toChain`). Chains in reading
order are sorted, and sorting leaves them so (`Root.sort_sort`). All else that is asked of the
tree is asked of its chains in reading order, or of its sites, which come in another order only.
-/

namespace PiBlocks

/-! ## Reading order -/

namespace Root

/-- Whether chains come in reading order. -/
def Sorted (roots : List Root) : Prop :=
  roots.Pairwise fun root other => Float.rank root.key ≤ Float.rank other.key

theorem sorted_insertSorted (root : Root) : ∀ {roots}, Sorted roots →
    Sorted (insertSorted root roots)
  | [], _ => List.pairwise_singleton _ root
  | other :: rest, h => by
    obtain ⟨hother, hrest⟩ := List.pairwise_cons.1 h
    rw [insertSorted]
    split_ifs with hless
    · refine List.pairwise_cons.2 ⟨fun third hthird => ?_, h⟩
      rcases List.mem_cons.1 hthird with rfl | hthird
      · omega
      · have hbehind := hother third hthird
        omega
    · refine List.pairwise_cons.2 ⟨fun third hthird => ?_, sorted_insertSorted root hrest⟩
      rcases List.mem_cons.1 ((insertSorted_perm root rest).mem_iff.1 hthird) with rfl | hthird
      · omega
      · exact hother third hthird

theorem insertSorted_of_forall_le (root : Root) : ∀ {roots : List Root},
    (∀ other ∈ roots, Float.rank other.key ≤ Float.rank root.key) →
      insertSorted root roots = roots ++ [root]
  | [], _ => rfl
  | other :: rest, h => by
    obtain ⟨hother, hrest⟩ := List.forall_mem_cons.1 h
    have hnot : ¬Float.rank root.key < Float.rank other.key := by omega
    rw [insertSorted, if_neg hnot, insertSorted_of_forall_le root hrest, List.cons_append]

theorem sorted_foldl : ∀ (roots : List Root) {sorted : List Root}, Sorted sorted →
    Sorted (roots.foldl (fun sorted root => insertSorted root sorted) sorted)
  | [], _, h => h
  | root :: roots, _, h => sorted_foldl roots (sorted_insertSorted root h)

theorem foldl_of_sorted : ∀ (roots sorted : List Root), Sorted (sorted ++ roots) →
    roots.foldl (fun sorted root => insertSorted root sorted) sorted = sorted ++ roots
  | [], sorted, _ => (List.append_nil sorted).symm
  | root :: roots, sorted, h => by
    have hbefore : ∀ other ∈ sorted, Float.rank other.key ≤ Float.rank root.key := fun other ho =>
      (List.pairwise_append.1 h).2.2 other ho root List.mem_cons_self
    have hsplit : sorted ++ root :: roots = sorted ++ [root] ++ roots := by simp
    rw [List.foldl_cons, insertSorted_of_forall_le root hbefore, hsplit]
    exact foldl_of_sorted roots (sorted ++ [root]) (hsplit ▸ h)

/-- Chains in reading order keep their order. -/
theorem sort_sort (roots : List Root) : sort (sort roots) = sort roots := by
  refine foldl_of_sorted (sort roots) [] ?_
  rw [List.nil_append]
  exact sorted_foldl roots List.Pairwise.nil

end Root

/-! ## Chains that are written and read -/

namespace Block

mutual

/-- Whether no slot of the block, or of a block below, holds an empty chain. -/
def filled : Block → Bool
  | .mk _ _ _ slots => slotsFilled slots

/-- Whether no slot holds an empty chain, nor any below. -/
def slotsFilled : List (String × List Block) → Bool
  | [] => true
  | (_, chain) :: slots => !chain.isEmpty && chainFilled chain && slotsFilled slots

/-- Whether no slot below a chain holds an empty one. -/
def chainFilled : List Block → Bool
  | [] => true
  | block :: rest => filled block && chainFilled rest

end

end Block

namespace SavedBlock

open Block (filled slotsFilled chainFilled saveBefore saveChain saveSlots)

/-! What each step gives, with the count of blocks threaded through. -/

section Steps

variable (count : Nat)

theorem run_toChain_mk (kind id x y fields inputs next) :
    (toChain ⟨kind, id, x, y, fields, inputs, next⟩).run count =
      let slots := (toSlots inputs).run (count + 1)
      let rest := (toRest next).run slots.2
      ((.mk (id.getD ("block-" ++ toString count)) kind fields slots.1, rest.1), rest.2) := by
  rw [toChain]
  rfl

theorem run_toRest_of_target (next : Link SavedBlock) {block : SavedBlock}
    (h : next.target = some block) : (toRest (some next)).run count =
      let chain := block.toChain.run count
      (chain.1.1 :: chain.1.2, chain.2) := by
  obtain ⟨_ | attached, _ | shadow⟩ := next <;> cases h <;> rw [toRest] <;> rfl

theorem run_toRest_of_none {next : Link SavedBlock} (h : next.target = none) :
    (toRest (some next)).run count = ([], count) := by
  obtain ⟨_ | attached, _ | shadow⟩ := next <;> cases h
  rw [toRest]
  rfl

theorem run_toSlots_of_target (link : Link SavedBlock) {block : SavedBlock}
    (h : link.target = some block) (slot inputs) : (toSlots ((slot, link) :: inputs)).run count =
      let chain := block.toChain.run count
      let slots := (toSlots inputs).run chain.2
      ((slot, chain.1.1 :: chain.1.2) :: slots.1, slots.2) := by
  obtain ⟨_ | attached, _ | shadow⟩ := link <;> cases h <;> rw [toSlots] <;> rfl

theorem run_toSlots_of_none {link : Link SavedBlock} (h : link.target = none) (slot inputs) :
    (toSlots ((slot, link) :: inputs)).run count = (toSlots inputs).run count := by
  obtain ⟨_ | attached, _ | shadow⟩ := link <;> cases h
  rw [toSlots]

end Steps

mutual

/-- A chain that is built has something in every slot. -/
theorem filled_toChain : ∀ (block : SavedBlock) (count : Nat),
    filled ((toChain block).run count).1.1 = true ∧
      chainFilled ((toChain block).run count).1.2 = true
  | ⟨kind, id, x, y, fields, inputs, next⟩, count => by
    rw [run_toChain_mk]
    exact ⟨filled_toSlots inputs _, filled_toRest next _⟩

theorem filled_toRest : ∀ (next : Option (Link SavedBlock)) (count : Nat),
    chainFilled ((toRest next).run count).1 = true
  | none, count => by
    rw [toRest]
    rfl
  | some ⟨none, none⟩, count => by
    rw [run_toRest_of_none _ rfl]
    rfl
  | some ⟨some block, shadow⟩, count => by
    obtain ⟨hhead, hrest⟩ := filled_toChain block count
    rw [run_toRest_of_target _ ⟨some block, shadow⟩ rfl]
    simp [chainFilled, hhead, hrest]
  | some ⟨none, some shadow⟩, count => by
    obtain ⟨hhead, hrest⟩ := filled_toChain shadow count
    rw [run_toRest_of_target _ ⟨none, some shadow⟩ rfl]
    simp [chainFilled, hhead, hrest]

theorem filled_toSlots : ∀ (inputs : List (String × Link SavedBlock)) (count : Nat),
    slotsFilled ((toSlots inputs).run count).1 = true
  | [], count => by
    rw [toSlots]
    rfl
  | (slot, ⟨none, none⟩) :: inputs, count => by
    rw [run_toSlots_of_none _ rfl]
    exact filled_toSlots inputs count
  | (slot, ⟨some block, shadow⟩) :: inputs, count => by
    obtain ⟨hhead, hrest⟩ := filled_toChain block count
    have hslots := filled_toSlots inputs ((toChain block).run count).2
    rw [run_toSlots_of_target _ ⟨some block, shadow⟩ rfl]
    simp [slotsFilled, chainFilled, hhead, hrest, hslots]
  | (slot, ⟨none, some shadow⟩) :: inputs, count => by
    obtain ⟨hhead, hrest⟩ := filled_toChain shadow count
    have hslots := filled_toSlots inputs ((toChain shadow).run count).2
    rw [run_toSlots_of_target _ ⟨none, some shadow⟩ rfl]
    simp [slotsFilled, chainFilled, hhead, hrest, hslots]

end

mutual

/-- What is written for a block, with something behind it, is read as the block and what the
thing behind it is read as. Its id is written, so the count of blocks does not matter. -/
theorem run_toChain_saveBefore (next : Option SavedBlock) (rest : List Block)
    (hnext : ∀ count, ((toRest (next.map .of)).run count).1 = rest) : ∀ (block : Block),
      filled block = true → ∀ count,
        ((toChain (saveBefore next block)).run count).1 = (block, rest)
  | .mk id kind fields slots, h, count => by
    rw [saveBefore, run_toChain_mk]
    simp only [run_toSlots_saveSlots slots h, hnext, Option.getD_some]

theorem run_toRest_saveChain : ∀ (chain : List Block), chainFilled chain = true → ∀ count,
    ((toRest ((saveChain chain).map .of)).run count).1 = chain
  | [], _, count => by
    rw [saveChain, Option.map_none, toRest]
    rfl
  | block :: rest, h, count => by
    obtain ⟨hblock, hrest⟩ : filled block = true ∧ chainFilled rest = true := by
      simpa [chainFilled] using h
    have hchain := run_toChain_saveBefore (saveChain rest) rest (run_toRest_saveChain rest hrest)
      block hblock count
    rw [saveChain, Option.map_some, run_toRest_of_target _ (.of _) rfl]
    simp only [hchain]

theorem run_toSlots_saveSlots : ∀ (slots : List (String × List Block)), slotsFilled slots = true →
    ∀ count, ((toSlots (saveSlots slots)).run count).1 = slots
  | [], _, count => by
    rw [saveSlots, toSlots]
    rfl
  | (slot, []) :: slots, h, count => by simp [slotsFilled] at h
  | (slot, block :: rest) :: slots, h, count => by
    obtain ⟨⟨hblock, hrest⟩, hslots⟩ :
        (filled block = true ∧ chainFilled rest = true) ∧ slotsFilled slots = true := by
      simpa [slotsFilled, chainFilled] using h
    have hchain := run_toChain_saveBefore (saveChain rest) rest (run_toRest_saveChain rest hrest)
      block hblock count
    have hbehind := run_toSlots_saveSlots slots hslots
    rw [saveSlots, saveChain]
    simp only
    rw [run_toSlots_of_target _ (.of _) rfl]
    simp only [hchain, hbehind]

end

end SavedBlock

/-! ## The whole tree -/

namespace Root

open SavedBlock

/-- Whether no slot in the chain is empty. -/
def filled (root : Root) : Bool := Block.chainFilled root.chain

theorem run_ofSaved_cons (block : SavedBlock) (blocks : List SavedBlock) (count : Nat) :
    ((ofSaved (block :: blocks)).run count).1 =
      ⟨(block.toChain.run count).1.1, (block.toChain.run count).1.2, block.place⟩ ::
        ((ofSaved blocks).run (block.toChain.run count).2).1 := rfl

theorem filled_ofSaved : ∀ (blocks : List SavedBlock) (count : Nat),
    ∀ root ∈ ((ofSaved blocks).run count).1, root.filled = true
  | [], _, _, h => by cases h
  | block :: blocks, count, root, h => by
    rw [run_ofSaved_cons] at h
    rcases List.mem_cons.1 h with rfl | h
    · obtain ⟨hhead, hrest⟩ := filled_toChain block count
      simp [filled, chain, Block.chainFilled, hhead, hrest]
    · exact filled_ofSaved blocks _ root h

/-- What is written for a chain of the top level is read as that chain, at its place. -/
theorem run_toChain_toSaved {root : Root} (h : root.filled = true) (count : Nat) :
    ((root.toSaved.toChain).run count).1 = (root.head, root.rest) := by
  obtain ⟨hhead, hrest⟩ :
      Block.filled root.head = true ∧ Block.chainFilled root.rest = true := by
    simpa [filled, chain, Block.chainFilled] using h
  have hchain := run_toChain_saveBefore _ root.rest (run_toRest_saveChain root.rest hrest)
    root.head hhead count
  obtain ⟨⟨id, kind, fields, slots⟩, rest, place⟩ := root
  rw [toSaved]
  rw [Block.saveBefore] at hchain ⊢
  rw [run_toChain_mk] at hchain ⊢
  exact hchain

theorem place_toSaved (root : Root) : root.toSaved.place = root.place := by
  obtain ⟨head, rest, _ | ⟨x, y⟩⟩ := root <;> rfl

theorem run_ofSaved_toSaved : ∀ (roots : List Root), (∀ root ∈ roots, root.filled = true) →
    ∀ count, ((ofSaved (roots.map toSaved)).run count).1 = roots
  | [], _, _ => rfl
  | root :: roots, h, count => by
    obtain ⟨hroot, hroots⟩ := List.forall_mem_cons.1 h
    rw [List.map_cons, run_ofSaved_cons, run_toChain_toSaved hroot, place_toSaved,
      run_ofSaved_toSaved roots hroots]

end Root

theorem firstRepeated_eq_none_iff : ∀ {ids seen : List String},
    firstRepeated seen ids = none ↔ ids.Nodup ∧ ∀ id ∈ ids, id ∉ seen
  | [], seen => by simp [firstRepeated]
  | id :: ids, seen => by
    have hsplit : (∀ other ∈ ids, other ∉ id :: seen) ↔ id ∉ ids ∧ ∀ other ∈ ids, other ∉ seen := by
      grind
    by_cases h : id ∈ seen
    · simp [firstRepeated, h]
    · simp only [firstRepeated, List.contains_iff_mem, h, if_false, firstRepeated_eq_none_iff,
        hsplit, List.nodup_cons, List.forall_mem_cons]
      tauto

namespace Tree

/-- Saved blocks make a tree if no id comes twice. -/
theorem ofSaved_eq_ok_iff {blocks : List SavedBlock} {tree : Tree} :
    ofSaved blocks = .ok tree ↔
      tree = { roots := ((Root.ofSaved blocks).run 0).1 } ∧ tree.ids.Nodup := by
  have hnone (tree : Tree) : firstRepeated [] tree.ids = none ↔ tree.ids.Nodup := by
    simp [firstRepeated_eq_none_iff]
  rw [ofSaved]
  split
  · next hrepeated =>
    have hnot := mt (hnone _).2 (hrepeated ▸ Option.some_ne_none _)
    simp only [reduceCtorEq, false_iff, not_and]
    rintro rfl
    exact hnot
  · next hrepeated =>
    simp only [Except.ok.injEq]
    exact ⟨fun h => ⟨h.symm, h ▸ (hnone _).1 hrepeated⟩, fun h => h.1.symm⟩

/-- If no id comes twice, the site of an id is the only one. -/
theorem find?_eq_some_iff {tree : Tree} (distinct : tree.ids.Nodup) {id : String} {site : Site} :
    tree.find? id = some site ↔ site ∈ tree.sites ∧ site.block.id = id := by
  constructor
  · intro h
    have hid := List.find?_some h
    exact ⟨List.mem_of_find?_eq_some h, of_decide_eq_true hid⟩
  · rintro ⟨hsite, rfl⟩
    obtain ⟨found, hfound⟩ := Option.isSome_iff_exists.1
      (List.find?_isSome.2 ⟨site, hsite, decide_eq_true rfl⟩ :
        (tree.find? site.block.id).isSome = true)
    have hid := List.find?_some hfound
    exact hfound.trans (congrArg some (List.inj_on_of_nodup_map distinct
      (List.mem_of_find?_eq_some hfound) hsite (of_decide_eq_true hid)))

section Ordered

variable {tree again : Tree} (h : again.roots = tree.ordered)
include h

/-- Chains that are in reading order are the same chains in reading order. -/
theorem ordered_eq_of_roots : again.ordered = tree.ordered := by
  rw [ordered, h]
  exact Root.sort_sort tree.roots

theorem sites_perm_of_roots : again.sites.Perm tree.sites := by
  rw [sites, sites, h]
  exact tree.ordered_perm.flatMap_right _

theorem pass_of_roots (scopes : Scopes) (canonical : Bool) :
    (again.pass scopes canonical).1.text = (tree.pass scopes canonical).1.text ∧
      (again.pass scopes canonical).2 = (tree.pass scopes canonical).2 ∧
      (again.pass scopes canonical).1.warnings.Perm (tree.pass scopes canonical).1.warnings := by
  have hgenerate : again.generate scopes = tree.generate scopes := by
    simp only [generate, visitOrder, ordered_eq_of_roots h]
  simp only [pass, hgenerate, true_and]
  exact (sites_perm_of_roots h).filterMap _

end Ordered

/-- A tree written down and built again is the tree, its chains now in reading order. Every id has
the site it had : the block with its fields and slots, what follows it and the way back from it.
Written down again it is the same, and a pass over it differs in the order of the warnings only. -/
theorem ofSaved_toSaved {blocks : List SavedBlock} {tree : Tree}
    (hbuilt : ofSaved blocks = .ok tree) :
    ∃ again, ofSaved tree.toSaved.blocks = .ok again ∧
      again.ids.Perm tree.ids ∧
      (∀ id, again.find? id = tree.find? id) ∧
      again.ordered = tree.ordered ∧
      again.toSaved = tree.toSaved ∧
      ∀ scopes canonical,
        (again.pass scopes canonical).1.text = (tree.pass scopes canonical).1.text ∧
        (again.pass scopes canonical).2 = (tree.pass scopes canonical).2 ∧
        (again.pass scopes canonical).1.warnings.Perm
          (tree.pass scopes canonical).1.warnings := by
  obtain ⟨htree, distinct⟩ := ofSaved_eq_ok_iff.1 hbuilt
  let again : Tree := { roots := tree.ordered }
  have hroots : again.roots = tree.ordered := rfl
  have hfilled : ∀ root ∈ tree.ordered, root.filled = true := fun root hroot => by
    refine Root.filled_ofSaved blocks 0 root ?_
    rw [htree] at hroot
    exact (mem_ordered _).1 hroot
  have hordered := ordered_eq_of_roots hroots
  have hsites := sites_perm_of_roots hroots
  have hids : again.ids.Perm tree.ids := hsites.map _
  have hread := Root.run_ofSaved_toSaved tree.ordered hfilled 0
  refine ⟨again, ofSaved_eq_ok_iff.2 ⟨?_, hids.nodup_iff.2 distinct⟩, hids, fun id => ?_, hordered,
    ?_, fun scopes canonical => pass_of_roots hroots scopes canonical⟩
  · rw [toSaved, hread]
  · refine Option.ext fun site => ?_
    rw [find?_eq_some_iff (hids.nodup_iff.2 distinct), find?_eq_some_iff distinct, hsites.mem_iff]
  · rw [toSaved, hordered, toSaved]

/-- A definition far down the canvas, with a shadow in its body, before a program with one
coordinate, an id of its own and an input that carries nothing. -/
def scattered : List SavedBlock := [
  { kind := .process
    x := some 5.0
    y := some 90.0
    fields := [(FieldName.process, "P")]
    inputs := [(SlotName.body, ⟨none, some (.ofKind .termination)⟩)] },
  { kind := .main
    id := some "main"
    x := some 3.0
    inputs := [(SlotName.main, .of (.ofKind .termination)), (SlotName.scope, {})] }]

theorem ofSaved_toSaved_scattered : ∃ tree, ofSaved scattered = .ok tree ∧
    tree.ids = ["block-0", "block-1", "main", "block-3"] ∧
    ∃ again, ofSaved tree.toSaved.blocks = .ok again ∧ again.ids.Perm tree.ids ∧
      again.ordered.map (fun root => root.head.id) = ["main", "block-0"] := by
  obtain ⟨tree, hbuilt⟩ : ∃ tree, ofSaved scattered = .ok tree := ⟨_, rfl⟩
  obtain ⟨again, hagain, hids, -, hordered, -⟩ := ofSaved_toSaved hbuilt
  refine ⟨tree, hbuilt, ?_, again, hagain, hids, ?_⟩
  · cases hbuilt
    decide +kernel
  · rw [hordered]
    cases hbuilt
    decide +kernel

end Tree

end PiBlocks
