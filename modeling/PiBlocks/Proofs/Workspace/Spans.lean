import PiBlocks.Proofs.Workspace.Ids
import PiBlocks.Proofs.Workspace.Numbering
import PiBlocks.Proofs.Workspace.Origins

/-!
# Blocks and the spans of their ids

The span of a block is looked up by its id among all strings behind an `"id"` anywhere in the text.
It is meant to be the place of the string in the object from which the block was read
(`Json.Node.idPlace?`), and no span at all if that has no id. When it is, can be told from the
characters (`Source.IsFirst`) : the member has to be written without escapes, and no string with
the same characters may stand behind an `"id"` in front of it, whether it is a field, belongs to a
shadow that is not attached or to blocks that are not loaded, or is part of a saved state. If the
block has no id, its number must not make an id that stands behind an `"id"` somewhere.

That is what is true of every block of every source that can be loaded
(`Source.span?_eq_idPlace?_iff`).
-/

namespace PiBlocks

open Json (Node Key)

/-! ## Ids in objects -/

namespace Json.Node

/-- Where the id of an object is written, if it is a string : the offset behind the quoted name,
and the contents of the string. -/
def idPlace? : Node → Option (Nat × Text.Span)
  | .object _ members _ =>
    match member? "id" members with
    | some (key, .text _ start stop) => some (key.stop, ⟨start + 1, stop - 1⟩)
    | _ => none
  | _ => none

theorem exists_of_idPlace? {node : Node} {place : Nat × Text.Span}
    (h : node.idPlace? = some place) : ∃ begun members tail key value start stop,
      node = .object begun members tail ∧ (key, .text value start stop) ∈ members ∧
      key.name = .ok "id" ∧ (∀ names, node.part names "id" = some (.text value start stop)) ∧
      place = (key.stop, ⟨start + 1, stop - 1⟩) := by
  cases node with
  | object begun members tail =>
    simp only [idPlace?] at h
    split at h
    · next key value start stop hmember =>
      cases h
      have hname := List.find?_some hmember
      refine ⟨begun, members, tail, key, value, start, stop, rfl,
        List.mem_of_find?_eq_some hmember, ?_, fun names => ?_, rfl⟩
      · cases hkey : key.name <;> simp_all [Except.toOption]
      · rw [Node.part, hmember]
        rfl
    · cases h
  | _ => cases h

end Json.Node

/-- A block that was read from an object with an id has that id. -/
theorem SavedBlock.ReadFrom.id_eq {node : Node} {saved : SavedBlock}
    {value : Except JsonError String} {start stop : Nat} (h : SavedBlock.ReadFrom node saved)
    (hpart : ∀ names, node.part names "id" = some (.text value start stop)) :
    ∃ id, value = .ok id ∧ saved.id = some id := by
  obtain ⟨_ | depth, h⟩ := h
  · cases h
  · have hid := Json.Record.read_part SavedBlock.sets_id h
    rw [hpart] at hid
    obtain ⟨id, hvalue, hid⟩ := Json.Read.map_eq_ok hid
    exact ⟨id, hvalue, hid.symm⟩

/-- What is known of values and blocks in the same order, with any number, is known of the values
and the ids of the blocks. -/
theorem SavedBlock.forall₂_idsFrom {α : Type} {R : α → SavedBlock → Prop} {S : α → String → Prop} :
    ∀ {values : List α} {blocks : List SavedBlock} (index : Nat), List.Forall₂ R values blocks →
      (∀ value ∈ values, ∀ block number, R value block → S value (idFrom (block, number))) →
        List.Forall₂ S values (idsFrom index blocks)
  | [], [], _, .nil, _ => .nil
  | value :: _, block :: _, index, .cons hread hs, h =>
    .cons (h value List.mem_cons_self block index hread)
      (forall₂_idsFrom (index + 1) hs fun other hother => h other (List.mem_cons_of_mem _ hother))

namespace Source

/-- The characters at the place of the id, and at that of its name, are what is read there, and
the same string is not found in front of it. A block without an id has one that is not found. -/
def IsFirst (source : Source) (id : String) : Option (Nat × Text.Span) → Prop
  | some (keyStop, place) =>
    Text.Span.Reads ⟨keyStop - 4, keyStop⟩ source.text.toList ['"', 'i', 'd', '"'] ∧
      place.Reads source.text.toList id.toList ∧
        ∀ found ∈ idSpans source.text, found.1 = id → place.start ≤ found.2.start
  | none => ∀ found ∈ idSpans source.text, found.1 ≠ id

/-- What an origin tells of the span of its block. Its id is the string that stands there, and
the span is that place if and only if it is found first. -/
structure Explains (source : Source) (origin : Node) (id : String) (span? : Option Text.Span) :
    Prop where
  literal : ∀ place ∈ origin.idPlace?, Json.Literal source.text.toList place.2 id.toList
  span : span? = origin.idPlace?.map Prod.snd ↔ source.IsFirst id origin.idPlace?

theorem explains_get?_idSpans {source : Source} {origin : Node} {saved : SavedBlock} (number : Nat)
    (hread : SavedBlock.ReadFrom origin saved)
    (hwritten : origin.Every (Json.Written (Json.scan source.text))) :
    source.Explains origin (SavedBlock.idFrom (saved, number))
      (OrderedMap.get? (SavedBlock.idFrom (saved, number)) (idSpans source.text)) := by
  cases hplace : origin.idPlace? with
  | none =>
    refine ⟨by rw [hplace]; nofun, ?_⟩
    rw [hplace, Option.map_none, OrderedMap.get?_eq_none_iff]
    simp only [IsFirst, OrderedMap.keys, List.mem_map, not_exists, not_and]
  | some place =>
    obtain ⟨begun, members, tail, key, _, start, stop, rfl, hmember, hname, hpart, rfl⟩ :=
      Node.exists_of_idPlace? hplace
    obtain ⟨id, rfl, hid⟩ := hread.id_eq hpart
    have hcalled : SavedBlock.idFrom (saved, number) = id := by rw [SavedBlock.idFrom, hid]; rfl
    cases hwritten with
    | object hmembers =>
      have htext := (hmembers _ hmember).inText hname
      have hfound := Iff.intro htext.reads_of_mem_all fun h => htext.mem_all_of_reads h.1 h.2
      rw [String.ofList_toList] at hfound
      rw [hcalled]
      constructor
      · rw [hplace]
        rintro _ ⟨⟩
        exact htext.literal
      · rw [hplace, Option.map_some, idSpans,
          IdSpan.get?_eq_some_iff (IdSpan.pairwise_all source.text.toList 0), hfound, and_assoc]
        rfl

/-- What is loaded has the ids of all that is reached, and the spans of all strings that are
found. -/
theorem of_load {source : Source} {tree : Tree} (h : source.load = .ok tree) :
    ∃ workspace, source.workspace = .ok workspace ∧
      tree.ids = SavedBlock.idsFrom 0 (workspace.blocks.flatMap SavedBlock.reached) ∧
      tree.spans = idSpans source.text := by
  obtain ⟨workspace, hworkspace, hload⟩ := Json.bind_eq_ok h
  split at hload
  · next built hbuilt =>
    cases hload
    obtain ⟨rfl, -⟩ := Tree.ofSaved_eq_ok_iff.1 hbuilt
    exact ⟨workspace, hworkspace, Tree.ids_ofSaved workspace.blocks, rfl⟩
  · cases hload

/-- Every block of a source that is loaded was read from the origin in its place. If that is an
object with an id, the id of the block is the string that stands there. The span of the block is
the place of that string, or none if there is no id, if and only if this is what is found first. -/
theorem span?_eq_idPlace?_iff (source : Source) (tree : Tree) (h : source.load = .ok tree) :
    ∃ workspace, source.workspace = .ok workspace ∧
      List.Forall₂ SavedBlock.ReadFrom source.origins
        (workspace.blocks.flatMap SavedBlock.reached) ∧
      tree.ids = SavedBlock.idsFrom 0 (workspace.blocks.flatMap SavedBlock.reached) ∧
      List.Forall₂ (fun origin id => source.Explains origin id (tree.span? id)) source.origins
        tree.ids := by
  obtain ⟨workspace, hworkspace, hids, hspans⟩ := of_load h
  have horigins := forall₂_origins hworkspace
  refine ⟨workspace, hworkspace, horigins, hids, ?_⟩
  rw [hids]
  refine SavedBlock.forall₂_idsFrom 0 horigins fun origin horigin saved number hread => ?_
  rw [Tree.span?, hspans]
  exact explains_get?_idSpans number hread
    (every_origins (Json.Document.every_written source.text) horigin)

/-- A string that looks like an id, and a block in a link next to its shadow. -/
def beside : SavedWorkspace where
  blocks := [
    { kind := .main
      id := some "m"
      fields := [("NEW", "\"id\":\"t\"")]
      inputs := [(SlotName.main,
        { block := some { kind := .termination, id := some "t" }
          shadow := some { kind := .send, id := some "s" } })] }]

/-- The spans are those of the ids that were read. -/
theorem span?_eq_idPlace?_beside :
    let source : Source := ⟨beside.toJson.compact, 0⟩
    ∃ tree, source.load = .ok tree ∧ tree.ids = ["m", "t"] ∧
      tree.ids.map tree.span? = [some ⟨67, 68⟩, some ⟨161, 162⟩] ∧
      List.Forall₂ (fun origin id => source.Explains origin id (tree.span? id)) source.origins
        tree.ids := by
  intro source
  have hload : source.load.toOption.map (fun tree => (tree.ids, tree.ids.map tree.span?)) =
      some (["m", "t"], [some ⟨67, 68⟩, some ⟨161, 162⟩]) := by decide +kernel
  cases htree : source.load with
  | error error =>
    rw [htree] at hload
    cases hload
  | ok tree =>
    rw [htree] at hload
    obtain ⟨hids, hspans⟩ := Prod.mk.inj (Option.some.inj hload)
    obtain ⟨-, -, -, -, hsettled⟩ := span?_eq_idPlace?_iff source tree htree
    exact ⟨tree, rfl, hids, hspans, hsettled⟩

/-- A field that has the name of ids and the id of the block behind it. -/
def misleading : SavedWorkspace where
  blocks := [
    { kind := .globalName, id := some "a", fields := [("id", "b")] },
    { kind := .main, id := some "b" }]

/-- The span of that block is the place of the field. -/
theorem span?_ne_idPlace? :
    let source : Source := ⟨misleading.toJson.compact, 0⟩
    ¬∀ tree, source.load = .ok tree →
      List.Forall₂ (fun origin id => tree.span? id = origin.idPlace?.map Prod.snd)
        source.origins tree.ids := by
  intro source hall
  have hload : source.load.toOption.map (fun tree => tree.ids.map tree.span?) =
      some [some ⟨73, 74⟩, some ⟨92, 93⟩] := by decide +kernel
  have hplaces : source.origins.map (fun origin => origin.idPlace?.map Prod.snd) =
      [some ⟨73, 74⟩, some ⟨123, 124⟩] := by decide +kernel
  cases htree : source.load with
  | error error =>
    rw [htree] at hload
    cases hload
  | ok tree =>
    rw [htree] at hload
    have hmap : tree.ids.map tree.span? =
        source.origins.map fun origin => origin.idPlace?.map Prod.snd := by
      rw [← List.forall₂_eq_eq_eq, List.forall₂_map_left_iff, List.forall₂_map_right_iff]
      exact (hall tree htree).flip
    have hspans : tree.ids.map tree.span? = [some ⟨73, 74⟩, some ⟨92, 93⟩] :=
      Option.some.inj hload
    rw [hspans, hplaces] at hmap
    exact absurd hmap (by decide)

end Source

end PiBlocks
