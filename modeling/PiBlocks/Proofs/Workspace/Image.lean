import PiBlocks.Proofs.Block.Links
import PiBlocks.Proofs.Workspace.Format
import PiBlocks.Proofs.Workspace.Rebuild

/-!
# Trees as images of what was saved

Saved blocks are reached through their inputs and what is behind them, through the block of a link
or else its shadow (`SavedBlock.reached`). The tree built of them has one site for each, in that
order, with the kind and the fields that were saved (`SavedBlock.Makes`), and every slot of a block
holds what was linked, one behind the other, at the input (`SavedBlock.MakesChain`).
-/

namespace PiBlocks

namespace SavedBlock

/-- What holds of a saved block if it holds of what is linked to it holds of all. -/
@[elab_as_elim]
theorem induction {motive : SavedBlock → Prop}
    (mk : ∀ kind id x y fields inputs next,
      (∀ input ∈ inputs, ∀ block ∈ Link.target input.2, motive block) →
      (∀ link ∈ next, ∀ block ∈ Link.target link, motive block) →
      motive ⟨kind, id, x, y, fields, inputs, next⟩) (block : SavedBlock) : motive block :=
  @SavedBlock.rec motive
    (fun inputs => ∀ input ∈ inputs, ∀ block ∈ Link.target input.2, motive block)
    (fun next => ∀ link ∈ next, ∀ block ∈ Link.target link, motive block)
    (fun input => ∀ block ∈ Link.target input.2, motive block)
    (fun link => ∀ block ∈ Link.target link, motive block)
    (fun attached => ∀ block ∈ attached, motive block)
    (fun kind id x y fields inputs next hinputs hnext =>
      mk kind id x y fields inputs next hinputs hnext)
    (by simp) (fun _ _ head tail => List.forall_mem_cons.2 ⟨head, tail⟩)
    (by simp) (by simp) (fun _ _ h => h)
    (fun block _ hblock hshadow => by cases block <;> first | exact hshadow | exact hblock)
    (by simp) (by simp) block

/-! ## What is reached -/

mutual

/-- A saved block and all that is reached from it, each block before what is inside it and that
before what is behind. -/
def reached : SavedBlock → List SavedBlock
  | ⟨kind, id, x, y, fields, inputs, next⟩ =>
    ⟨kind, id, x, y, fields, inputs, next⟩ :: (reachedInside inputs ++ reachedBehind next)

/-- What is reached through inputs. -/
def reachedInside : List (String × Link SavedBlock) → List SavedBlock
  | [] => []
  | (_, ⟨some block, _⟩) :: inputs => reached block ++ reachedInside inputs
  | (_, ⟨none, some shadow⟩) :: inputs => reached shadow ++ reachedInside inputs
  | (_, ⟨none, none⟩) :: inputs => reachedInside inputs

/-- What is reached through the link to what is behind. -/
def reachedBehind : Option (Link SavedBlock) → List SavedBlock
  | some ⟨some block, _⟩ => reached block
  | some ⟨none, some shadow⟩ => reached shadow
  | some ⟨none, none⟩ => []
  | none => []

end

variable (index : Nat)

theorem reachedInside_cons (slot : String) (link : Link SavedBlock) (inputs) :
    reachedInside ((slot, link) :: inputs) =
      link.target.elim [] reached ++ reachedInside inputs := by
  obtain ⟨_ | block, _ | shadow⟩ := link <;> rw [reachedInside] <;> rfl

theorem reachedBehind_some (link : Link SavedBlock) :
    reachedBehind (some link) = link.target.elim [] reached := by
  obtain ⟨_ | block, _ | shadow⟩ := link <;> rw [reachedBehind] <;> rfl

mutual

/-- A saved block and those behind it, each with its number among all that is reached, if the first
has a given one. -/
def linked : Nat → SavedBlock → List (Nat × SavedBlock)
  | index, ⟨kind, id, x, y, fields, inputs, next⟩ =>
    (index, ⟨kind, id, x, y, fields, inputs, next⟩) ::
      linkedBehind (index + 1 + (reachedInside inputs).length) next

/-- What is linked behind a block, numbered on. -/
def linkedBehind : Nat → Option (Link SavedBlock) → List (Nat × SavedBlock)
  | index, some ⟨some block, _⟩ => linked index block
  | index, some ⟨none, some shadow⟩ => linked index shadow
  | _, some ⟨none, none⟩ => []
  | _, none => []

end

theorem linkedBehind_some (link : Link SavedBlock) :
    linkedBehind index (some link) = link.target.elim [] (linked index) := by
  obtain ⟨_ | block, _ | shadow⟩ := link <;> rw [linkedBehind] <;> rfl

/-- What is linked at an input, one behind the other, with its numbers. -/
def linkedAt (slot : String) : Nat → List (String × Link SavedBlock) → List (Nat × SavedBlock)
  | _, [] => []
  | index, (name, link) :: inputs =>
    if name = slot then link.target.elim [] (linked index)
    else linkedAt slot (index + (link.target.elim [] reached).length) inputs

/-- A block is made of a saved one : it has the kind and the fields, the id or else one that tells
the number of the saved block, and in its slots what is linked at the inputs. -/
inductive Makes : Nat × SavedBlock → Block → Prop
  | mk {index kind id x y fields inputs next slots}
      (hkeys : OrderedMap.keys slots =
        (inputs.filter fun input => input.2.target.isSome).map Prod.fst)
      (hslots : ∀ slot, List.Forall₂ Makes (linkedAt slot (index + 1) inputs)
        ((OrderedMap.get? slot slots).getD [])) :
      Makes (index, ⟨kind, id, x, y, fields, inputs, next⟩)
        (.mk (id.getD ("block-" ++ toString index)) kind fields slots)

/-- A site with a block that is made of a saved one and has no slot twice. -/
def MakesSite (saved : SavedBlock × Nat) (site : Site) : Prop :=
  Makes (saved.2, saved.1) site.block ∧ (OrderedMap.keys site.block.slots).Nodup

/-- What is built of saved blocks : the chain of those that are linked, the sites of all that are
reached, and the count of blocks so far. -/
structure Builds (index : Nat) (linked : List (Nat × SavedBlock)) (reached : List SavedBlock)
    (built : List Block × Nat) : Prop where
  count : built.2 = index + reached.length
  chain : List.Forall₂ Makes linked built.1
  sites : ∀ trail, List.Forall₂ MakesSite (reached.zipIdx index) (Block.sitesOf trail built.1)

/-- The same of the chains at inputs. -/
structure BuildsSlots (index : Nat) (inputs : List (String × Link SavedBlock))
    (built : List (String × List Block) × Nat) : Prop where
  count : built.2 = index + (reachedInside inputs).length
  keys : OrderedMap.keys built.1 =
    (inputs.filter fun input => input.2.target.isSome).map Prod.fst
  chain : ∀ slot, List.Forall₂ Makes (linkedAt slot index inputs)
    ((OrderedMap.get? slot built.1).getD [])
  sites : ∀ trail, List.Forall₂ MakesSite ((reachedInside inputs).zipIdx index)
    (Block.sitesInSlots trail built.1)

/-- What building a chain gives, with all blocks of the chain in one list. -/
def build (block : SavedBlock) (index : Nat) : List Block × Nat :=
  ((((toChain block).run index).1.1 :: ((toChain block).run index).1.2),
    ((toChain block).run index).2)

theorem builds_nil (index : Nat) : Builds index [] [] ([], index) :=
  ⟨rfl, .nil, fun _ => by simp [Block.sitesOf]⟩

theorem nodup_keys_filter {inputs : List (String × Link SavedBlock)}
    (h : (OrderedMap.keys inputs).Nodup) :
    ((inputs.filter fun input => input.2.target.isSome).map Prod.fst).Nodup :=
  h.sublist (List.filter_sublist.map _)

/-- The chains at inputs are built if the chain of each is. -/
theorem buildsSlots_toSlots : ∀ {inputs : List (String × Link SavedBlock)} (index : Nat),
    (OrderedMap.keys inputs).Nodup →
    (∀ input ∈ inputs, ∀ block ∈ Link.target input.2, ∀ index,
      Builds index (linked index block) block.reached (block.build index)) →
    BuildsSlots index inputs ((toSlots inputs).run index)
  | [], index, _, _ => by
    rw [toSlots]
    exact ⟨rfl, rfl, fun _ => .nil, fun trail => (by simp [Block.sitesInSlots, reachedInside] :
      List.Forall₂ MakesSite ((reachedInside []).zipIdx index) (Block.sitesInSlots trail []))⟩
  | (slot, link) :: inputs, index, hkeys, h => by
    obtain ⟨hnew, hkeys⟩ := List.nodup_cons.1 hkeys
    obtain ⟨hlink, hinputs⟩ := List.forall_mem_cons.1 h
    cases htarget : link.target with
    | none =>
      obtain ⟨hcount, hslots, hchain, hsites⟩ := buildsSlots_toSlots index hkeys hinputs
      have hempty : OrderedMap.get? slot ((toSlots inputs).run index).1 = none := by
        rw [OrderedMap.get?_eq_none_iff, hslots]
        exact fun hmem => hnew ((List.filter_sublist.map _).subset hmem)
      rw [run_toSlots_of_none index htarget]
      refine ⟨?_, ?_, fun name => ?_, fun trail => ?_⟩
      · simpa [reachedInside_cons, htarget] using hcount
      · simpa [htarget] using hslots
      · simp only [linkedAt, htarget, Option.elim_none, List.length_nil, Nat.add_zero]
        split_ifs with hname
        · rw [← hname, hempty]
          exact .nil
        · exact hchain name
      · simpa [reachedInside_cons, htarget] using hsites trail
    | some block =>
      obtain ⟨hcount, hchain, hsites⟩ := hlink block htarget index
      rw [run_toSlots_of_target index link htarget]
      simp only [build] at hcount hchain hsites
      generalize (toChain block).run index = built at hcount hchain hsites ⊢
      obtain ⟨chain, count⟩ := built
      obtain rfl : count = index + block.reached.length := hcount
      have hrest := buildsSlots_toSlots (index + block.reached.length) hkeys hinputs
      refine ⟨?_, ?_, fun name => ?_, fun trail => ?_⟩
      · simpa [reachedInside_cons, htarget, Nat.add_assoc] using hrest.count
      · simpa [OrderedMap.keys, htarget] using hrest.keys
      · simp only [linkedAt, htarget, Option.elim_some, OrderedMap.get?]
        split_ifs with hname
        · exact hchain
        · exact hrest.chain name
      · rw [reachedInside_cons, htarget, Option.elim_some, List.zipIdx_append, Block.sitesInSlots]
        exact List.rel_append (hsites trail) (hrest.sites trail)

/-- What is behind a block is built if the chain that begins there is. -/
theorem builds_toRest {next : Option (Link SavedBlock)} (index : Nat)
    (h : ∀ link ∈ next, ∀ block ∈ Link.target link, ∀ index,
      Builds index (linked index block) block.reached (block.build index)) :
    Builds index (linkedBehind index next) (reachedBehind next) ((toRest next).run index) := by
  cases next with
  | none =>
    rw [toRest, linkedBehind, reachedBehind]
    exact builds_nil index
  | some link =>
    rw [reachedBehind_some, linkedBehind_some]
    cases htarget : link.target with
    | none =>
      rw [run_toRest_of_none index htarget]
      exact builds_nil index
    | some block =>
      rw [run_toRest_of_target index link htarget]
      exact h link rfl block htarget index

theorem wellKeyed_of_target {link : Link SavedBlock}
    (h : (attachedWellKeyed link.block && attachedWellKeyed link.shadow) = true) :
    ∀ block ∈ link.target, block.wellKeyed = true := by
  obtain ⟨hblock, hshadow⟩ := Bool.and_eq_true_iff.1 h
  obtain ⟨_ | block, shadow⟩ := link <;> intro found hfound
  · obtain rfl : shadow = some found := hfound
    simpa [attachedWellKeyed] using hshadow
  · obtain rfl : block = found := Option.some.inj hfound
    simpa [attachedWellKeyed] using hblock

theorem wellKeyed_of_input : ∀ {inputs : List (String × Link SavedBlock)},
    inputsWellKeyed inputs = true → ∀ input ∈ inputs, ∀ block ∈ Link.target input.2,
      block.wellKeyed = true
  | [], _ => List.forall_mem_nil _
  | (_, link) :: inputs, h => by
    rw [inputsWellKeyed, Bool.and_eq_true] at h
    exact List.forall_mem_cons.2 ⟨wellKeyed_of_target h.1, wellKeyed_of_input h.2⟩

/-- A chain is built as it was saved. -/
theorem builds_toChain (block : SavedBlock) (keyed : block.wellKeyed = true) (index : Nat) :
    Builds index (linked index block) block.reached (block.build index) := by
  induction block using SavedBlock.induction generalizing index with
  | mk kind id x y fields inputs next ihinputs ihnext =>
    simp only [wellKeyed, Bool.and_eq_true, decide_eq_true_eq] at keyed
    obtain ⟨⟨⟨-, hkeys⟩, hinputs⟩, hnext⟩ := keyed
    obtain ⟨hcount, hslots, hchain, hsites⟩ := buildsSlots_toSlots (index + 1) hkeys
      fun input hinput block hblock =>
        ihinputs input hinput block hblock (wellKeyed_of_input hinputs input hinput block hblock)
    have hrest := builds_toRest (index + 1 + (reachedInside inputs).length)
      fun link hlink block hblock => ihnext link hlink block hblock (by
        rw [Option.mem_def.1 hlink] at hnext
        exact wellKeyed_of_target hnext block hblock)
    have hnodup := nodup_keys_filter hkeys
    rw [linked, reached, build, run_toChain_mk]
    generalize (toSlots inputs).run (index + 1) = slots at hcount hslots hchain hsites ⊢
    obtain ⟨slots, count⟩ := slots
    obtain rfl : count = index + 1 + (reachedInside inputs).length := hcount
    have hmade : Makes (index, ⟨kind, id, x, y, fields, inputs, next⟩)
        (.mk (id.getD ("block-" ++ toString index)) kind fields slots) := .mk hslots hchain
    refine ⟨?_, .cons hmade hrest.chain, fun trail => ?_⟩
    · have hbehind := hrest.count
      simp only [List.length_cons, List.length_append]
      omega
    · rw [List.zipIdx_cons, List.zipIdx_append, Block.sitesOf, Block.sitesBelow]
      exact .cons ⟨hmade, hslots ▸ hnodup⟩
        (List.rel_append (hsites (.owner _ :: trail)) (hrest.sites (.previous _ :: trail)))

/-! ## Numbers among what is reached -/

/-- What is linked behind a block is reached from it, under its number. -/
theorem mem_zipIdx_of_mem_linked {index : Nat} {block : SavedBlock} {entry : Nat × SavedBlock}
    (h : entry ∈ linked index block) : (entry.2, entry.1) ∈ block.reached.zipIdx index := by
  induction block using SavedBlock.induction generalizing index with
  | mk kind id x y fields inputs next _ ihnext =>
    rw [linked] at h
    rw [reached, List.zipIdx_cons, List.zipIdx_append]
    rcases List.mem_cons.1 h with rfl | h
    · exact List.mem_cons_self
    · refine List.mem_cons_of_mem _ (List.mem_append_right _ ?_)
      cases next with
      | none => simp [linkedBehind] at h
      | some link =>
        rw [linkedBehind_some] at h
        rw [reachedBehind_some]
        cases htarget : link.target with
        | none => simp [htarget] at h
        | some block =>
          rw [htarget, Option.elim_some] at h
          exact ihnext link rfl block htarget h

theorem mem_zipIdx_of_mem_linkedAt {slot : String} {entry : Nat × SavedBlock} :
    ∀ {inputs : List (String × Link SavedBlock)} {index : Nat},
      entry ∈ linkedAt slot index inputs → (entry.2, entry.1) ∈ (reachedInside inputs).zipIdx index
  | (name, link) :: inputs, index, h => by
    rw [reachedInside_cons, List.zipIdx_append, List.mem_append]
    rw [linkedAt] at h
    split at h
    · cases htarget : link.target with
      | none => simp [htarget] at h
      | some block =>
        rw [htarget, Option.elim_some] at h
        exact .inl (mem_zipIdx_of_mem_linked h)
    · exact .inr (mem_zipIdx_of_mem_linkedAt h)

/-- Whether all that is inside a block is numbered behind it. -/
def Closed (numbered : List (SavedBlock × Nat)) : Prop :=
  ∀ entry ∈ numbered, (reachedInside entry.1.inputs).zipIdx (entry.2 + 1) ⊆ numbered

theorem Closed.append {numbered more : List (SavedBlock × Nat)} (h : Closed numbered)
    (hmore : Closed more) : Closed (numbered ++ more) := by
  intro entry hentry
  rcases List.mem_append.1 hentry with hentry | hentry
  · exact List.Subset.trans (h entry hentry) (List.subset_append_left _ _)
  · exact List.Subset.trans (hmore entry hentry) (List.subset_append_right _ _)

theorem closed_target {target : Option SavedBlock}
    (h : ∀ block ∈ target, ∀ index, Closed (block.reached.zipIdx index)) (index : Nat) :
    Closed ((target.elim [] reached).zipIdx index) := by
  cases target with
  | none => exact List.forall_mem_nil _
  | some block => exact h block rfl index

theorem closed_reachedInside : ∀ {inputs : List (String × Link SavedBlock)},
    (∀ input ∈ inputs, ∀ block ∈ Link.target input.2, ∀ index,
      Closed (block.reached.zipIdx index)) → ∀ index, Closed ((reachedInside inputs).zipIdx index)
  | [], _, _ => List.forall_mem_nil _
  | (_, link) :: inputs, h, index => by
    obtain ⟨hlink, hinputs⟩ := List.forall_mem_cons.1 h
    rw [reachedInside_cons, List.zipIdx_append]
    exact (closed_target hlink index).append (closed_reachedInside hinputs _)

theorem closed_reached (block : SavedBlock) (index : Nat) :
    Closed (block.reached.zipIdx index) := by
  induction block using SavedBlock.induction generalizing index with
  | mk kind id x y fields inputs next ihinputs ihnext =>
    rw [reached, List.zipIdx_cons, List.zipIdx_append]
    have hinside := closed_reachedInside ihinputs (index + 1)
    have hbehind (index : Nat) : Closed ((reachedBehind next).zipIdx index) := by
      cases next with
      | none =>
        rw [reachedBehind]
        exact List.forall_mem_nil _
      | some link =>
        rw [reachedBehind_some]
        exact closed_target (ihnext link rfl) index
    intro entry hentry
    rcases List.mem_cons.1 hentry with rfl | hentry
    · exact List.Subset.trans (List.subset_append_left _ _) (List.subset_cons_self _ _)
    · exact List.Subset.trans (hinside.append (hbehind _) entry hentry) (List.subset_cons_self _ _)

theorem closed_flatMap : ∀ (blocks : List SavedBlock) (index : Nat),
    Closed ((blocks.flatMap reached).zipIdx index)
  | [], _ => List.forall_mem_nil _
  | block :: blocks, index => by
    rw [List.flatMap_cons, List.zipIdx_append]
    exact (closed_reached block index).append (closed_flatMap blocks _)

end SavedBlock

/-! ## The top level -/

/-- The blocks of the top level, each with its number among all that is reached. -/
def SavedBlock.numbered : Nat → List SavedBlock → List (Nat × SavedBlock)
  | _, [] => []
  | index, block :: blocks =>
    (index, block) :: numbered (index + block.reached.length) blocks

theorem SavedBlock.zipIdx_subset_of_mem_numbered {entry : Nat × SavedBlock} :
    ∀ {blocks : List SavedBlock} {index : Nat}, entry ∈ numbered index blocks →
      entry.2.reached.zipIdx entry.1 ⊆ (blocks.flatMap reached).zipIdx index
  | block :: blocks, index, h => by
    rw [List.flatMap_cons, List.zipIdx_append]
    rcases List.mem_cons.1 h with rfl | h
    · exact List.subset_append_left _ _
    · exact List.Subset.trans (zipIdx_subset_of_mem_numbered h) (List.subset_append_right _ _)

/-- A chain of the top level is made of the saved block of its head and those behind it, and stands
where it was saved. -/
structure Root.Made (saved : Nat × SavedBlock) (root : Root) : Prop where
  chain : List.Forall₂ SavedBlock.Makes (SavedBlock.linked saved.1 saved.2) root.chain
  place : root.place = saved.2.place

namespace Root

open SavedBlock

/-- The top level is built as it was saved. -/
theorem made_ofSaved : ∀ {blocks : List SavedBlock} (index : Nat),
    (∀ block ∈ blocks, block.wellKeyed = true) →
    List.Forall₂ Made (numbered index blocks) ((ofSaved blocks).run index).1 ∧
      List.Forall₂ MakesSite ((blocks.flatMap reached).zipIdx index)
        (((ofSaved blocks).run index).1.flatMap fun root => Block.sitesOf [] root.chain)
  | [], _, _ => ⟨.nil, .nil⟩
  | block :: blocks, index, keyed => by
    obtain ⟨hblock, hblocks⟩ := List.forall_mem_cons.1 keyed
    obtain ⟨hcount, hchain, hsites⟩ := builds_toChain block hblock index
    have hcount : (block.toChain.run index).2 = index + block.reached.length := hcount
    obtain ⟨hroots, hrest⟩ := made_ofSaved (index + block.reached.length) hblocks
    rw [run_ofSaved_cons, hcount, numbered, List.flatMap_cons, List.flatMap_cons,
      List.zipIdx_append]
    exact ⟨.cons ⟨hchain, rfl⟩ hroots, List.rel_append (hsites []) hrest⟩

/-! ### Reading order -/

/-- One numbered chain comes before another : its key is smaller, or the keys are equal and its
number is. -/
def Precedes (root other : Root × Nat) : Prop :=
  Float.rank root.1.key < Float.rank other.1.key ∨
    Float.rank root.1.key = Float.rank other.1.key ∧ root.2 < other.2

theorem exists_insertSorted (root : Root) {number : Nat} : ∀ {placed : List (Root × Nat)},
    placed.Pairwise Precedes → (∀ entry ∈ placed, entry.2 < number) →
      ∃ more : List (Root × Nat), more.Perm ((root, number) :: placed) ∧
        more.map Prod.fst = insertSorted root (placed.map Prod.fst) ∧ more.Pairwise Precedes
  | [], _, _ => ⟨[(root, number)], .refl _, rfl, List.pairwise_singleton _ _⟩
  | (other, count) :: rest, hsorted, hnumbers => by
    obtain ⟨hother, hrest⟩ := List.pairwise_cons.1 hsorted
    obtain ⟨hcount, hnumbers⟩ := List.forall_mem_cons.1 hnumbers
    by_cases hless : Float.rank root.key < Float.rank other.key
    · refine ⟨(root, number) :: (other, count) :: rest, .refl _, ?_, ?_⟩
      · rw [List.map_cons, List.map_cons, insertSorted, if_pos hless]
      · refine List.pairwise_cons.2 ⟨List.forall_mem_cons.2 ⟨.inl hless, fun third hthird => ?_⟩,
          hsorted⟩
        rcases hother third hthird with hlt | ⟨heq, -⟩
        · exact .inl (Int.lt_trans hless hlt)
        · exact .inl (heq ▸ hless)
    · obtain ⟨more, hperm, hmap, hmore⟩ := exists_insertSorted root hrest hnumbers
      refine ⟨(other, count) :: more, ?_, ?_, ?_⟩
      · exact (hperm.cons _).trans (.swap _ _ _)
      · rw [List.map_cons, List.map_cons, insertSorted, if_neg hless, hmap]
      · refine List.pairwise_cons.2 ⟨fun third hthird => ?_, hmore⟩
        rcases List.mem_cons.1 (hperm.mem_iff.1 hthird) with rfl | hthird
        · rcases Int.lt_or_eq_of_le (Int.not_lt.1 hless) with hlt | heq
          · exact .inl hlt
          · exact .inr ⟨heq, hcount⟩
        · exact hother third hthird

theorem exists_foldl_insertSorted : ∀ (roots : List Root) (start : Nat)
    {placed : List (Root × Nat)}, placed.Pairwise Precedes → (∀ entry ∈ placed, entry.2 < start) →
      ∃ more : List (Root × Nat), more.Perm (placed ++ roots.zipIdx start) ∧
        more.map Prod.fst =
          roots.foldl (fun sorted root => insertSorted root sorted) (placed.map Prod.fst) ∧
        more.Pairwise Precedes
  | [], _, placed, hsorted, _ => ⟨placed, by simp, rfl, hsorted⟩
  | root :: roots, start, placed, hsorted, hnumbers => by
    obtain ⟨next, hperm, hmap, hnext⟩ := exists_insertSorted root hsorted hnumbers
    have hsmaller : ∀ entry ∈ next, entry.2 < start + 1 := fun entry hentry => by
      rcases List.mem_cons.1 (hperm.mem_iff.1 hentry) with rfl | hentry
      · exact start.lt_succ_self
      · exact (hnumbers entry hentry).trans start.lt_succ_self
    obtain ⟨more, hmore, hfold, hsorted⟩ :=
      exists_foldl_insertSorted roots (start + 1) hnext hsmaller
    refine ⟨more, hmore.trans ?_, ?_, hsorted⟩
    · rw [List.zipIdx_cons]
      exact (hperm.append_right _).trans List.perm_middle.symm
    · rw [List.foldl_cons, ← hmap]
      exact hfold

end Root

end PiBlocks
