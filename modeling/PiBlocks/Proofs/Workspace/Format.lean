import PiBlocks.Proofs.Json.Record
import PiBlocks.Workspace.Format

/-!
# Saved blocks written and read

A workspace is read back from what was written of it (`SavedWorkspace.gives_toJson`). No map in it
may have a key twice (`SavedBlock.wellKeyed`), the version has to be a word, and the coordinates
of its blocks have to be doubles whose texts read back ; the reader has no other condition, in
particular none on how deep blocks are nested.

A block is read with a bound on the nesting that comes from the text. What is written of a block
inside another one is nested less deep, so the bound that is left when the reader comes to it is
always large enough (`SavedBlock.gives_readWithin`).
-/

namespace PiBlocks

open Json (Gives Field Record)

theorem Kind.get?_typeName (kind : Kind) :
    OrderedMap.get? kind.typeName Kind.named = some kind := by
  cases kind <;> decide

namespace SavedBlock

/-! ## Keys and coordinates -/

mutual

/-- No field and no input comes twice, and so it is in the blocks inside and behind. -/
def wellKeyed : SavedBlock → Bool
  | ⟨_, _, _, _, fields, inputs, next⟩ =>
    decide (OrderedMap.keys fields).Nodup && decide (OrderedMap.keys inputs).Nodup
      && inputsWellKeyed inputs && nextWellKeyed next

/-- What is behind a block is well-keyed. -/
def nextWellKeyed : Option (Link SavedBlock) → Bool
  | none => true
  | some ⟨block, shadow⟩ => attachedWellKeyed block && attachedWellKeyed shadow

/-- What is at the inputs is well-keyed. -/
def inputsWellKeyed : List (String × Link SavedBlock) → Bool
  | [] => true
  | (_, ⟨block, shadow⟩) :: inputs =>
    attachedWellKeyed block && attachedWellKeyed shadow && inputsWellKeyed inputs

/-- What a link carries is well-keyed. -/
def attachedWellKeyed : Option SavedBlock → Bool
  | none => true
  | some block => wellKeyed block

end

mutual

/-- The coordinates of a block and of those inside and behind it. -/
def coordinates : SavedBlock → List Float
  | ⟨_, _, x, y, _, inputs, next⟩ =>
    x.toList ++ y.toList ++ inputsCoordinates inputs ++ nextCoordinates next

/-- The coordinates of what is behind a block. -/
def nextCoordinates : Option (Link SavedBlock) → List Float
  | none => []
  | some ⟨block, shadow⟩ => attachedCoordinates block ++ attachedCoordinates shadow

/-- The coordinates of what is at the inputs. -/
def inputsCoordinates : List (String × Link SavedBlock) → List Float
  | [] => []
  | (_, ⟨block, shadow⟩) :: inputs =>
    attachedCoordinates block ++ attachedCoordinates shadow ++ inputsCoordinates inputs

/-- The coordinates of what a link carries. -/
def attachedCoordinates : Option SavedBlock → List Float
  | none => []
  | some block => coordinates block

end

/-! ## Links -/

/-- What is written of a link. -/
def linkToJson (link : Link SavedBlock) : Json :=
  .object (attachedToJson "block" link.block ++ attachedToJson "shadow" link.shadow)

theorem inputsToJson_eq_map : ∀ inputs : List (String × Link SavedBlock),
    inputsToJson inputs = inputs.map fun input => (input.1, linkToJson input.2)
  | [] => rfl
  | (slot, ⟨block, shadow⟩) :: inputs => by
    rw [inputsToJson, inputsToJson_eq_map inputs]
    rfl

theorem attachedToJson_eq (name : String) : ∀ attached : Option SavedBlock,
    attachedToJson name attached = (attached.map fun block => (name, block.toJson)).toList
  | none => rfl
  | some _ => rfl

theorem nextToJson_eq : ∀ next : Option (Link SavedBlock),
    nextToJson next = (next.map fun link => ("next", linkToJson link)).toList
  | none => rfl
  | some ⟨_, _⟩ => rfl

theorem not_shows_null {block : SavedBlock} (start stop : Nat) :
    ¬Json.Node.Shows (.null start stop) block.toJson := by
  cases block
  nofun

/-- A link is read back if what it carries is. -/
theorem gives_linkToJson {inner : Json.Reader SavedBlock} {link : Link SavedBlock}
    (hblock : ∀ block ∈ link.block, Gives inner block.toJson block)
    (hshadow : ∀ block ∈ link.shadow, Gives inner block.toJson block) :
    Gives (Link.record inner).read (linkToJson link) link := by
  obtain ⟨block, shadow⟩ := link
  have hvalues : attachedToJson "block" block ++ attachedToJson "shadow" shadow =
      (block.map fun block => ("block", block.toJson)).toList
        ++ ((shadow.map fun block => ("shadow", block.toJson)).toList ++ []) := by
    rw [attachedToJson_eq, attachedToJson_eq, List.append_nil]
  rw [linkToJson, hvalues]
  refine Json.Record.Takes.gives ?_ (show ["block", "shadow"].Nodup by decide)
  exact .optional rfl rfl (fun block h => (hblock block h).optional not_shows_null)
    (.optional rfl rfl (fun block h => (hshadow block h).optional not_shows_null) .nil)

/-! ## Blocks -/

theorem gives_coordinate {x : Float} (h : (Number.real x).ReadsBack) :
    Gives (Json.Read.optional Json.Read.real) (.number (.real x)) (some x) := by
  refine (Gives.real h).optional fun start stop hnull => ?_
  cases hnull with
  | unwritten hback => exact hback h

/-- The members that are written of a block. -/
def members (block : SavedBlock) : List (String × Json) :=
  ("type", .text block.kind.typeName)
    :: ((block.id.map fun id => ("id", Json.text id)).toList
    ++ ((block.x.map fun x => ("x", Json.number (.real x))).toList
    ++ ((block.y.map fun y => ("y", Json.number (.real y))).toList
    ++ ((if block.fields.isEmpty then []
          else [("fields", .object (block.fields.map fun field => (field.1, .text field.2)))])
    ++ ((if block.inputs.isEmpty then []
          else [("inputs", .object (block.inputs.map fun input => (input.1, linkToJson input.2)))])
    ++ ((block.next.map fun link => ("next", linkToJson link)).toList ++ []))))))

theorem toJson_eq (block : SavedBlock) : block.toJson = .object block.members := by
  obtain ⟨kind, id, x, y, fields, inputs, next⟩ := block
  rw [toJson, members, nextToJson_eq, inputsToJson_eq_map]
  simp only [List.append_assoc, List.append_nil]

/-- A block is read back if the blocks inside and behind it are. -/
theorem gives_of_links {inner : Json.Reader SavedBlock} {block : SavedBlock}
    (hfields : (OrderedMap.keys block.fields).Nodup)
    (hinputs : (OrderedMap.keys block.inputs).Nodup)
    (hx : ∀ x ∈ block.x, (Number.real x).ReadsBack)
    (hy : ∀ y ∈ block.y, (Number.real y).ReadsBack)
    (hlinks : ∀ input ∈ block.inputs, Gives (Link.record inner).read (linkToJson input.2) input.2)
    (hnext : ∀ link ∈ block.next, Gives (Link.record inner).read (linkToJson link) link) :
    Gives (record inner).read block.toJson block := by
  rw [toJson_eq]
  obtain ⟨kind, id, x, y, fields, inputs, next⟩ := block
  refine Json.Record.Takes.gives ?_
    (show ["type", "id", "x", "y", "fields", "inputs", "next"].Nodup by decide)
  exact .field rfl (Gives.variant kind.get?_typeName).set <|
    .optional rfl rfl (fun id _ => Gives.text.optional nofun) <|
    .optional rfl rfl (fun x h => gives_coordinate (hx x h)) <|
    .optional rfl rfl (fun y h => gives_coordinate (hy y h)) <|
    .entries rfl rfl (.map hfields fun field _ => .text) <|
    .entries rfl rfl (.map hinputs hlinks) <|
    .optional rfl rfl (fun link h => (hnext link h).optional nofun) .nil

mutual

/-- A block is read back within any bound that is not less than the nesting of what was written. -/
theorem gives_readWithin : ∀ (block : SavedBlock) (depth : Nat), block.wellKeyed = true →
    (∀ x ∈ block.coordinates, (Number.real x).ReadsBack) → block.toJson.depth ≤ depth →
      Gives (readWithin depth) block.toJson block
  | ⟨kind, id, x, y, fields, inputs, next⟩, 0, _, _, hdepth => by
    rw [toJson_eq, Json.depth] at hdepth
    exact absurd hdepth (by omega)
  | ⟨kind, id, x, y, fields, inputs, next⟩, depth + 1, hkeyed, hback, hdepth => by
    simp only [wellKeyed, Bool.and_eq_true, decide_eq_true_eq] at hkeyed
    obtain ⟨⟨⟨hfields, hinputs⟩, hinputsKeyed⟩, hnextKeyed⟩ := hkeyed
    simp only [coordinates, List.mem_append] at hback
    have hmembers : Json.membersDepth (inputsToJson inputs) ≤ depth ∧
        Json.membersDepth (nextToJson next) ≤ depth := by
      simp only [toJson, Json.depth, Json.membersDepth, Json.membersDepth_append] at hdepth
      refine ⟨?_, by omega⟩
      cases inputs with
      | nil => exact Nat.zero_le depth
      | cons input inputs =>
        simp only [List.isEmpty_cons, Bool.false_eq_true, reduceIte, Json.membersDepth,
          Json.depth] at hdepth
        omega
    refine gives_of_links hfields hinputs (fun x hx => hback x ?_) (fun y hy => hback y ?_)
      (gives_inputs inputs depth hinputsKeyed (fun x hx => hback x (.inl (.inr hx))) hmembers.1)
      (gives_next next depth hnextKeyed (fun x hx => hback x (.inr hx)) hmembers.2)
    · exact .inl (.inl (.inl (Option.mem_toList.2 hx)))
    · exact .inl (.inl (.inr (Option.mem_toList.2 hy)))

theorem gives_next : ∀ (next : Option (Link SavedBlock)) (depth : Nat), nextWellKeyed next = true →
    (∀ x ∈ nextCoordinates next, (Number.real x).ReadsBack) →
      Json.membersDepth (nextToJson next) ≤ depth →
        ∀ link ∈ next, Gives (Link.record (readWithin depth)).read (linkToJson link) link
  | none, _, _, _, _, link, hlink => by cases hlink
  | some ⟨block, shadow⟩, depth, hkeyed, hback, hdepth, link, hlink => by
    cases hlink
    simp only [nextWellKeyed, Bool.and_eq_true] at hkeyed
    simp only [nextCoordinates, List.mem_append] at hback
    simp only [nextToJson, Json.membersDepth, Json.depth, Json.membersDepth_append] at hdepth
    exact gives_linkToJson
      (gives_attached block "block" depth hkeyed.1 (fun x hx => hback x (.inl hx)) (by omega))
      (gives_attached shadow "shadow" depth hkeyed.2 (fun x hx => hback x (.inr hx)) (by omega))

theorem gives_inputs : ∀ (inputs : List (String × Link SavedBlock)) (depth : Nat),
    inputsWellKeyed inputs = true → (∀ x ∈ inputsCoordinates inputs, (Number.real x).ReadsBack) →
      Json.membersDepth (inputsToJson inputs) ≤ depth →
        ∀ input ∈ inputs, Gives (Link.record (readWithin depth)).read (linkToJson input.2) input.2
  | [], _, _, _, _, input, hinput => by cases hinput
  | (slot, ⟨block, shadow⟩) :: inputs, depth, hkeyed, hback, hdepth, input, hinput => by
    simp only [inputsWellKeyed, Bool.and_eq_true] at hkeyed
    simp only [inputsCoordinates, List.mem_append] at hback
    simp only [inputsToJson, Json.membersDepth, Json.depth, Json.membersDepth_append] at hdepth
    rcases List.mem_cons.1 hinput with rfl | hinput
    · exact gives_linkToJson
        (gives_attached block "block" depth hkeyed.1.1
          (fun x hx => hback x (.inl (.inl hx))) (by omega))
        (gives_attached shadow "shadow" depth hkeyed.1.2
          (fun x hx => hback x (.inl (.inr hx))) (by omega))
    · exact gives_inputs inputs depth hkeyed.2 (fun x hx => hback x (.inr hx)) (by omega) input
        hinput

theorem gives_attached : ∀ (attached : Option SavedBlock) (name : String) (depth : Nat),
    attachedWellKeyed attached = true →
      (∀ x ∈ attachedCoordinates attached, (Number.real x).ReadsBack) →
        Json.membersDepth (attachedToJson name attached) ≤ depth →
          ∀ block ∈ attached, Gives (readWithin depth) block.toJson block
  | none, _, _, _, _, _, block, hblock => by cases hblock
  | some block, name, depth, hkeyed, hback, hdepth, _, hblock => by
    cases hblock
    exact gives_readWithin block depth hkeyed hback
      (Nat.le_trans (Nat.le_max_left _ _) hdepth)

end

theorem gives_toJson {block : SavedBlock} (hkeyed : block.wellKeyed = true)
    (hback : ∀ x ∈ block.coordinates, (Number.real x).ReadsBack) :
    Gives read block.toJson block := fun node hnode =>
  gives_readWithin block node.depth hkeyed hback (Nat.le_of_eq hnode.depth_eq.symm) node hnode

end SavedBlock

/-! ## Workspaces -/

namespace SavedWorkspace

/-- The version is a word and the blocks are well-keyed. -/
def wellFormed (workspace : SavedWorkspace) : Bool :=
  decide (workspace.version < Nat.pow 2 32) && workspace.blocks.all SavedBlock.wellKeyed

/-- The coordinates of all blocks. -/
def coordinates (workspace : SavedWorkspace) : List Float :=
  workspace.blocks.flatMap SavedBlock.coordinates

/-- A workspace is read back from what was written of it. -/
theorem gives_toJson {workspace : SavedWorkspace} (h : workspace.wellFormed = true)
    (hback : ∀ x ∈ workspace.coordinates, (Number.real x).ReadsBack) :
    Gives record.read workspace.toJson workspace := by
  simp only [wellFormed, Bool.and_eq_true, decide_eq_true_eq, List.all_eq_true] at h
  have hblocks : Gives (Json.Read.list SavedBlock.read)
      (.list (workspace.blocks.map SavedBlock.toJson)) workspace.blocks :=
    .list fun block hblock => SavedBlock.gives_toJson (h.2 block hblock)
      fun x hx => hback x (List.mem_flatMap.2 ⟨block, hblock, hx⟩)
  have htop : Gives blocksRecord.read (.object [
      ("languageVersion", .number (.integer workspace.version)),
      ("blocks", .list (workspace.blocks.map SavedBlock.toJson))]) workspace :=
    Json.Record.Takes.gives (.field rfl (Gives.word h.1).set (.field rfl hblocks.set .nil))
      (by decide)
  exact Json.Record.Takes.gives (.field rfl htop.set .nil) (by decide)

end SavedWorkspace

end PiBlocks
