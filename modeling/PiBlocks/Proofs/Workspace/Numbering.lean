import PiBlocks.Proofs.Workspace.Image

/-!
# Ids that are written and ids that are not

A saved block without an id is known by its number among all that is reached : blocks are counted
as they are met, with or without an id, and `SavedBlock.idFrom` is what a block is called by its
number. The tree has these ids in this order (`Root.ids_ofSaved`), whatever keys the inputs have.

An id made of a number is compared with the ids that are written as if it had been written itself.
So blocks make a tree if no written id comes twice and none is made of the number of a block that
has none (`Tree.ofSaved_ok_iff_ids`). Ids that are made are different from one another, since
their digits are (`generated_injective`).
-/

namespace PiBlocks

namespace SavedBlock

/-- The id made of a number. -/
def generated (number : Nat) : String := "block-" ++ toString number

/-- Different numbers make different ids. -/
theorem generated_injective : Function.Injective generated := by
  intro number other h
  have hdigits : Nat.toDigits 10 number = Nat.toDigits 10 other := by
    simpa [generated, Nat.repr_eq_ofList_toDigits] using congrArg String.toList h
  calc number = Nat.ofDigitChars 10 (Nat.toDigits 10 number) 0 :=
        Nat.ofDigitChars_ten_toDigits.symm
    _ = Nat.ofDigitChars 10 (Nat.toDigits 10 other) 0 := by rw [hdigits]
    _ = other := Nat.ofDigitChars_ten_toDigits

/-- What a block with a number is called : its id, or else the one made of the number. -/
def idFrom (saved : SavedBlock × Nat) : String := saved.1.id.getD (generated saved.2)

/-- What blocks are called that are numbered from a given number on. -/
def idsFrom (index : Nat) (blocks : List SavedBlock) : List String :=
  (blocks.zipIdx index).map idFrom

theorem idsFrom_append (index : Nat) (blocks more : List SavedBlock) :
    idsFrom index (blocks ++ more) =
      idsFrom index blocks ++ idsFrom (index + blocks.length) more := by
  rw [idsFrom, List.zipIdx_append, List.map_append]
  rfl

/-! ## Counting -/

/-- What is built has the ids of what is reached, and all of that is counted. -/
structure Counts (index : Nat) (reached : List SavedBlock) (ids : List String) (count : Nat) :
    Prop where
  count : count = index + reached.length
  ids : ids = idsFrom index reached

theorem counts_nil (index : Nat) : Counts index [] [] index := ⟨rfl, rfl⟩

theorem Counts.append {index count last : Nat} {reached more : List SavedBlock}
    {ids others : List String} (h : Counts index reached ids count)
    (hmore : Counts count more others last) :
    Counts index (reached ++ more) (ids ++ others) last where
  count := by
    rw [hmore.count, h.count, List.length_append]
    omega
  ids := by rw [idsFrom_append, ← h.count, ← h.ids, ← hmore.ids]

theorem counts_toSlots : ∀ {inputs : List (String × Link SavedBlock)} (index : Nat),
    (∀ input ∈ inputs, ∀ block ∈ Link.target input.2, ∀ index,
      Counts index block.reached (Block.idsOf (block.build index).1) (block.build index).2) →
    Counts index (reachedInside inputs) (Block.slotIds ((toSlots inputs).run index).1)
      ((toSlots inputs).run index).2
  | [], index, _ => by
    rw [toSlots]
    exact counts_nil index
  | (slot, link) :: inputs, index, h => by
    obtain ⟨hlink, hinputs⟩ := List.forall_mem_cons.1 h
    rw [reachedInside_cons]
    cases htarget : link.target with
    | none =>
      rw [run_toSlots_of_none index htarget]
      exact counts_toSlots index hinputs
    | some block =>
      rw [run_toSlots_of_target index link htarget, Block.slotIds_cons]
      exact (hlink block htarget index).append (counts_toSlots _ hinputs)

theorem counts_toRest {next : Option (Link SavedBlock)} (index : Nat)
    (h : ∀ link ∈ next, ∀ block ∈ Link.target link, ∀ index,
      Counts index block.reached (Block.idsOf (block.build index).1) (block.build index).2) :
    Counts index (reachedBehind next) (Block.idsOf ((toRest next).run index).1)
      ((toRest next).run index).2 := by
  cases next with
  | none =>
    rw [toRest]
    exact counts_nil index
  | some link =>
    rw [reachedBehind_some]
    cases htarget : link.target with
    | none =>
      rw [run_toRest_of_none index htarget]
      exact counts_nil index
    | some block =>
      rw [run_toRest_of_target index link htarget]
      exact h link rfl block htarget index

/-- A block is counted before what is inside it, and that before what is behind. -/
theorem counts_toChain (block : SavedBlock) (index : Nat) :
    Counts index block.reached (Block.idsOf (block.build index).1) (block.build index).2 := by
  induction block using SavedBlock.induction generalizing index with
  | mk kind id x y fields inputs next ihinputs ihnext =>
    have hself : Counts index [⟨kind, id, x, y, fields, inputs, next⟩]
        [id.getD (generated index)] (index + 1) := ⟨rfl, rfl⟩
    have hslots := counts_toSlots (index + 1) ihinputs
    have hrest := counts_toRest ((toSlots inputs).run (index + 1)).2 ihnext
    rw [reached, build, run_toChain_mk, Block.idsOf_cons, Block.idsBelow_mk]
    exact hself.append (hslots.append hrest)

/-! ## Ids that come twice -/

/-- The ids that are written. -/
def written (numbered : List (SavedBlock × Nat)) : List String :=
  numbered.filterMap fun saved => saved.1.id

/-- No block has the id written that is made of the number of a block without one. -/
def Spared (numbered : List (SavedBlock × Nat)) : Prop :=
  ∀ saved ∈ numbered, saved.1.id = none → ∀ other ∈ numbered,
    other.1.id ≠ some (generated saved.2)

theorem spared_of_nodup {numbered : List (SavedBlock × Nat)} (h : (numbered.map idFrom).Nodup) :
    Spared numbered := by
  intro saved hsaved hnone other hother hwritten
  have hsame : idFrom saved = idFrom other := by rw [idFrom, idFrom, hnone, hwritten]; rfl
  obtain rfl := List.inj_on_of_nodup_map h hsaved hother hsame
  rw [hnone] at hwritten
  cases hwritten

/-- Two ids are equal if both are written, or if one is made of the number of a block and written
for the other. -/
theorem idFrom_ne {saved other : SavedBlock × Nat} (hnumber : saved.2 ≠ other.2)
    (hwritten : ∀ id ∈ saved.1.id, ∀ more ∈ other.1.id, id ≠ more)
    (hsaved : saved.1.id = none → other.1.id ≠ some (generated saved.2))
    (hother : other.1.id = none → saved.1.id ≠ some (generated other.2)) :
    idFrom saved ≠ idFrom other := by
  rw [idFrom, idFrom]
  cases hid : saved.1.id with
  | none =>
    cases hmore : other.1.id with
    | none => exact fun h => hnumber (generated_injective h)
    | some more => exact fun h => hsaved hid (hmore.trans (congrArg some h.symm))
  | some id =>
    cases hmore : other.1.id with
    | none => exact fun h => hother hmore (hid.trans (congrArg some h))
    | some more => exact hwritten id hid more hmore

theorem nodup_map_idFrom_iff {numbered : List (SavedBlock × Nat)}
    (hnumbers : (numbered.map Prod.snd).Nodup) :
    (numbered.map idFrom).Nodup ↔ (written numbered).Nodup ∧ Spared numbered := by
  rw [List.nodup_iff_pairwise_ne, List.pairwise_map] at hnumbers
  constructor
  · intro h
    refine ⟨List.pairwise_filterMap.2 ?_, spared_of_nodup h⟩
    refine (List.pairwise_map.1 h).imp fun {saved other} hne id hid more hmore heq => hne ?_
    rw [idFrom, idFrom, hid, hmore, heq]
    rfl
  · rintro ⟨hwritten, hspared⟩
    refine List.pairwise_map.2 ?_
    refine (hnumbers.and (List.pairwise_filterMap.1 hwritten)).imp_of_mem ?_
    intro saved other hsaved hother ⟨hnumber, hne⟩
    exact idFrom_ne hnumber hne (fun hnone => hspared saved hsaved hnone other hother)
      fun hnone => hspared other hother hnone saved hsaved

end SavedBlock

namespace Root

open SavedBlock

theorem counts_ofSaved : ∀ (blocks : List SavedBlock) (index : Nat),
    Counts index (blocks.flatMap reached)
      (((ofSaved blocks).run index).1.flatMap fun root => Block.idsOf root.chain)
      ((ofSaved blocks).run index).2
  | [], index => counts_nil index
  | block :: blocks, index =>
    (counts_toChain block index).append (counts_ofSaved blocks (block.build index).2)

end Root

namespace Tree

open SavedBlock

/-- The ids of what is built, blocks counted from zero. -/
theorem ids_ofSaved (blocks : List SavedBlock) :
    ({ roots := ((Root.ofSaved blocks).run 0).1 } : Tree).ids =
      idsFrom 0 (blocks.flatMap reached) := by
  rw [← (Root.counts_ofSaved blocks 0).ids, ids, sites, List.map_flatMap]
  rfl

/-- Saved blocks make a tree if no written id comes twice and none of them is made of the number
of a block without one. So if none is made of such a number, blocks are rejected for a written id
that comes twice and for nothing else. A tree has the written ids and those made of numbers, in
the order in which blocks are met, and no two of them are equal. -/
theorem ofSaved_ok_iff_ids (blocks : List SavedBlock) :
    let numbered := (blocks.flatMap reached).zipIdx
    ((∃ tree, ofSaved blocks = .ok tree) ↔ (written numbered).Nodup ∧ Spared numbered) ∧
    (((∃ tree, ofSaved blocks = .ok tree) ↔ (written numbered).Nodup) ↔
      ((written numbered).Nodup → Spared numbered)) ∧
    ∀ tree, ofSaved blocks = .ok tree → tree.ids = numbered.map idFrom ∧ tree.ids.Nodup := by
  intro numbered
  have hnumbers : (numbered.map Prod.snd).Nodup := by
    rw [List.zipIdx_map_snd]
    exact List.nodup_range'
  have hids := ids_ofSaved blocks
  have hok : (∃ tree, ofSaved blocks = .ok tree) ↔
      (written numbered).Nodup ∧ Spared numbered := by
    rw [← nodup_map_idFrom_iff hnumbers]
    constructor
    · rintro ⟨tree, htree⟩
      obtain ⟨rfl, hnodup⟩ := ofSaved_eq_ok_iff.1 htree
      rwa [hids] at hnodup
    · intro hnodup
      exact ⟨_, ofSaved_eq_ok_iff.2 ⟨rfl, hids ▸ hnodup⟩⟩
  refine ⟨hok, by rw [hok]; tauto, fun tree htree => ?_⟩
  obtain ⟨rfl, hnodup⟩ := ofSaved_eq_ok_iff.1 htree
  exact ⟨hids, hnodup⟩

/-- A main program with the id that is made of the number of the block in it. -/
def taken : List SavedBlock := [
  { kind := .main
    id := some "block-1"
    inputs := [(SlotName.main, .of (.ofKind .termination))] }]

/-- It is rejected, although no id is written twice. -/
theorem not_ok_of_taken : ¬((∃ tree, ofSaved taken = .ok tree) ↔
    (written (taken.flatMap reached).zipIdx).Nodup) := by
  have hrejected : ∀ tree, ofSaved taken ≠ .ok tree := by
    intro tree h
    cases h
  have hdistinct : (written (taken.flatMap reached).zipIdx).Nodup := by decide +kernel
  intro h
  obtain ⟨tree, htree⟩ := h.2 hdistinct
  exact hrejected tree htree

/-- Ids that are made of numbers stand among those that are written. -/
theorem ids_scattered : ∃ tree, ofSaved scattered = .ok tree ∧
    tree.ids = ["block-0", "block-1", "main", "block-3"] ∧ tree.ids.Nodup := by
  obtain ⟨tree, htree⟩ : ∃ tree, ofSaved scattered = .ok tree := ⟨_, rfl⟩
  obtain ⟨hids, hnodup⟩ := (ofSaved_ok_iff_ids scattered).2.2 tree htree
  exact ⟨tree, htree, hids.trans (by decide +kernel), hnodup⟩

end Tree

end PiBlocks
