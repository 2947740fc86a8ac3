import PiBlocks.Proofs.Json.Parts
import PiBlocks.Proofs.Workspace.Image
import PiBlocks.Workspace.Source

/-!
# Where blocks were read

Every block that is reached was read from one value of the text, its origin. The origins are told
from the located value alone (`Source.origins`) : they are followed through the inputs, of which
the last one with a name counts, through the block of a link or else its shadow, and through the
link to what is behind. Each of them was read as the block in its place
(`Source.forall₂_origins`), so blocks and origins are in the same order.
-/

namespace PiBlocks

open Json (Node Key Record Field)

/-! ## Values that may be absent -/

theorem rel_or {α β : Type} {r : α → β → Prop} {a a' : Option α} {b b' : Option β}
    (h : Option.Rel r a b) (h' : Option.Rel r a' b') : Option.Rel r (a.or a') (b.or b') := by
  cases h with
  | some hr => exact .some hr
  | none => simpa using h'

theorem forall₂_elim {α β γ δ : Type} {r : α → β → Prop} {R : γ → δ → Prop} {f : α → List γ}
    {g : β → List δ} {a : Option α} {b : Option β} (h : Option.Rel r a b)
    (hR : ∀ x y, r x y → List.Forall₂ R (f x) (g y)) :
    List.Forall₂ R (a.elim [] f) (b.elim [] g) := by
  cases h with
  | some hr => exact hR _ _ hr
  | none => exact .nil

theorem mem_elim {α β : Type} {f : α → List β} {b : β} {option : Option α}
    (h : b ∈ option.elim [] f) : ∃ a, option = some a ∧ b ∈ f a := by
  cases option with
  | none => cases h
  | some a => exact ⟨a, rfl, h⟩

namespace SavedBlock

/-! ## Links -/

/-- What a link carries : the block unless it is null, or else the shadow. -/
def attached (link : Node) : Option Node :=
  (Node.present (link.part (Link.record read).names "block")).or
    (Node.present (link.part (Link.record read).names "shadow"))

variable {inner : Json.Reader SavedBlock}

theorem sets_block : (Link.record inner).Sets "block" Link.block (Json.Read.optional inner) where
  mem := List.mem_cons_self
  nodup := by simp [Record.names, Link.record]
  touches := by
    simp only [Link.record, List.forall_mem_cons]
    exact ⟨Field.touches_here fun _ _ => rfl, Field.touches_elsewhere (by decide) fun _ _ => rfl,
      List.forall_mem_nil _⟩

theorem sets_shadow : (Link.record inner).Sets "shadow" Link.shadow (Json.Read.optional inner) where
  mem := List.mem_cons_of_mem _ List.mem_cons_self
  nodup := by simp [Record.names, Link.record]
  touches := by
    simp only [Link.record, List.forall_mem_cons]
    exact ⟨Field.touches_elsewhere (by decide) fun _ _ => rfl, Field.touches_here fun _ _ => rfl,
      List.forall_mem_nil _⟩

/-- What a link carries is read as its target. -/
theorem rel_attached {node : Node} {link : Link SavedBlock}
    (h : (Link.record inner).read node = .ok link) :
    Option.Rel (fun node block => inner node = .ok block) (attached node) link.target :=
  rel_or (Json.Read.rel_optional (Record.read_part sets_block h))
    (Json.Read.rel_optional (Record.read_part sets_shadow h))

/-! ## Blocks -/

theorem nodup_names : (record inner).names.Nodup := by
  simp [Record.names, record]

theorem sets_id :
    (record inner).Sets "id" SavedBlock.id (Json.Read.optional Json.Read.text) where
  mem := by simp [Record.names, record]
  nodup := nodup_names
  touches := by
    simp only [record, List.forall_mem_cons]
    refine ⟨?_, ?_, ?_, ?_, ?_, ?_, ?_, List.forall_mem_nil _⟩ <;>
      first
      | exact Field.touches_here fun _ _ => rfl
      | exact Field.touches_elsewhere (by decide) fun _ _ => rfl

theorem sets_inputs :
    (record inner).Sets "inputs" SavedBlock.inputs (Json.Read.map (Link.record inner).read) where
  mem := by simp [Record.names, record]
  nodup := nodup_names
  touches := by
    simp only [record, List.forall_mem_cons]
    refine ⟨?_, ?_, ?_, ?_, ?_, ?_, ?_, List.forall_mem_nil _⟩ <;>
      first
      | exact Field.touches_here fun _ _ => rfl
      | exact Field.touches_elsewhere (by decide) fun _ _ => rfl

theorem sets_next : (record inner).Sets "next" SavedBlock.next
    (Json.Read.optional (Link.record inner).read) where
  mem := by simp [Record.names, record]
  nodup := nodup_names
  touches := by
    simp only [record, List.forall_mem_cons]
    refine ⟨?_, ?_, ?_, ?_, ?_, ?_, ?_, List.forall_mem_nil _⟩ <;>
      first
      | exact Field.touches_here fun _ _ => rfl
      | exact Field.touches_elsewhere (by decide) fun _ _ => rfl

/-- The links at the inputs of a block, with their names. -/
def inputLinks (block : Node) : OrderedMap Node :=
  (block.part (record read).names "inputs").elim [] Node.entries

/-- The link to what is behind a block. -/
def nextLink (block : Node) : Option Node :=
  Node.present (block.part (record read).names "next")

/-- The values from which a block and all that is reached from it were read, in a value in which
lists and objects are nested at most so deep. -/
def origins : Nat → Node → List Node
  | 0, _ => []
  | depth + 1, block =>
    block :: ((inputLinks block).flatMap (fun input => (attached input.2).elim [] (origins depth))
      ++ ((nextLink block).bind attached).elim [] (origins depth))

/-- The value was read as the block. -/
def ReadFrom (node : Node) (block : SavedBlock) : Prop :=
  ∃ depth, readWithin depth node = .ok block

theorem forall₂_inside {origins : Node → List Node}
    (horigins : ∀ node block, inner node = .ok block →
      List.Forall₂ ReadFrom (origins node) block.reached) {links : OrderedMap Node}
    {inputs : List (String × Link SavedBlock)}
    (h : List.Forall₂ (Json.Read.ReadsEntry (Link.record inner).read) links inputs) :
    List.Forall₂ ReadFrom (links.flatMap fun input => (attached input.2).elim [] origins)
      (reachedInside inputs) := by
  induction h with
  | nil =>
    rw [reachedInside]
    exact .nil
  | @cons input result links inputs hlink _ ih =>
    rw [List.flatMap_cons, reachedInside_cons]
    exact List.rel_append (forall₂_elim (rel_attached hlink.2) horigins) ih

theorem forall₂_behind {origins : Node → List Node}
    (horigins : ∀ node block, inner node = .ok block →
      List.Forall₂ ReadFrom (origins node) block.reached) {link : Option Node}
    {next : Option (Link SavedBlock)}
    (h : Option.Rel (fun node link => (Link.record inner).read node = .ok link) link next) :
    List.Forall₂ ReadFrom ((link.bind attached).elim [] origins) (reachedBehind next) := by
  cases h with
  | some hlink =>
    rw [reachedBehind_some, Option.bind_some]
    exact forall₂_elim (rel_attached hlink) horigins
  | none =>
    rw [reachedBehind]
    exact .nil

/-- The origins were read as the blocks that are reached. -/
theorem forall₂_origins : ∀ (depth : Nat) (node : Node) (block : SavedBlock),
    readWithin depth node = .ok block → List.Forall₂ ReadFrom (origins depth node) block.reached
  | 0, _, _, h => by cases h
  | depth + 1, node, ⟨kind, id, x, y, fields, inputs, next⟩, h => by
    have hinside := forall₂_inside (forall₂_origins depth)
      (Json.Read.forall₂_elim_map (Record.read_part sets_inputs h))
    have hbehind := forall₂_behind (forall₂_origins depth)
      (Json.Read.rel_optional (Record.read_part sets_next h))
    rw [origins, reached]
    exact .cons ⟨depth + 1, h⟩ (List.rel_append hinside hbehind)

section

variable {P : Key → Node → Prop} {node : Node} (h : node.Every P)
include h

theorem every_attached {found : Node} (hfound : attached node = some found) : found.Every P := by
  rcases Option.or_eq_some_iff.1 hfound with hblock | ⟨-, hshadow⟩
  · exact .present (fun part hpart => h.part hpart) hblock
  · exact .present (fun part hpart => h.part hpart) hshadow

theorem every_inputLinks {input : String × Node} (hinput : input ∈ inputLinks node) :
    input.2.Every P := by
  rw [inputLinks] at hinput
  cases hpart : node.part (record read).names "inputs" with
  | none =>
    rw [hpart] at hinput
    cases hinput
  | some part =>
    rw [hpart] at hinput
    exact (h.part hpart).entries hinput

theorem every_nextLink {link : Node} (hlink : nextLink node = some link) : link.Every P :=
  .present (fun _ hpart => h.part hpart) hlink

end

/-- What is said of all members of a value is true inside of every origin in it. -/
theorem every_origins {P : Key → Node → Prop} : ∀ (depth : Nat) {node origin : Node},
    node.Every P → origin ∈ origins depth node → origin.Every P
  | 0, _, _, _, h => by cases h
  | depth + 1, node, origin, hnode, h => by
    rcases List.mem_cons.1 h with rfl | h
    · exact hnode
    rcases List.mem_append.1 h with h | h
    · obtain ⟨input, hinput, h⟩ := List.mem_flatMap.1 h
      obtain ⟨block, hblock, h⟩ := mem_elim h
      exact every_origins depth (every_attached (every_inputLinks hnode hinput) hblock) h
    · obtain ⟨block, hblock, h⟩ := mem_elim h
      obtain ⟨link, hlink, hblock⟩ := Option.bind_eq_some_iff.1 hblock
      exact every_origins depth (every_attached (every_nextLink hnode hlink) hblock) h

end SavedBlock

/-! ## Sources -/

namespace SavedWorkspace

theorem sets_blocks : blocksRecord.Sets "blocks" blocks (Json.Read.list SavedBlock.read) where
  mem := by simp [Record.names, blocksRecord]
  nodup := by simp [Record.names, blocksRecord]
  touches := by
    simp only [blocksRecord, List.forall_mem_cons]
    exact ⟨Field.touches_elsewhere (by decide) fun _ _ => rfl, Field.touches_here fun _ _ => rfl,
      List.forall_mem_nil _⟩

theorem sets_workspace : record.Sets "blocks" id blocksRecord.read where
  mem := by simp [Record.names, record]
  nodup := by simp [Record.names, record]
  touches := by
    simp only [record, List.forall_mem_cons]
    exact ⟨Field.touches_here fun _ _ => rfl, List.forall_mem_nil _⟩

end SavedWorkspace

namespace SaveFile

theorem sets_workspace :
    record.Sets "workspace" workspace (Json.Read.optional SavedWorkspace.record.read) where
  mem := by simp [Record.names, record]
  nodup := by simp [Record.names, record]
  touches := by
    simp only [record, List.forall_mem_cons]
    exact ⟨Field.touches_here fun _ _ => rfl, Field.touches_elsewhere (by decide) fun _ _ => rfl,
      List.forall_mem_nil _⟩

theorem sets_blocks :
    record.Sets "blocks" blocks (Json.Read.optional SavedWorkspace.blocksRecord.read) where
  mem := by simp [Record.names, record]
  nodup := by simp [Record.names, record]
  touches := by
    simp only [record, List.forall_mem_cons]
    exact ⟨Field.touches_elsewhere (by decide) fun _ _ => rfl, Field.touches_here fun _ _ => rfl,
      List.forall_mem_nil _⟩

/-- The value that holds the version and the blocks, under `workspace` if that is not null. -/
def holder (file : Node) : Option Node :=
  match Node.present (file.part record.names "workspace") with
  | some workspace => workspace.part SavedWorkspace.record.names "blocks"
  | none => Node.present (file.part record.names "blocks")

/-- The values from which the blocks of the top level were read. -/
def topBlocks (file : Node) : List Node :=
  ((holder file).bind fun holder => holder.part SavedWorkspace.blocksRecord.names "blocks").elim []
    Node.items

/-- What is read from the holder is the workspace. -/
theorem from_holder {node : Node} {file : SaveFile} (h : record.read node = .ok file) :
    Record.From SavedWorkspace.blocksRecord.read {} ((file.workspace.or file.blocks).getD {})
      (holder node) := by
  have hworkspace := Json.Read.rel_optional (Record.read_part sets_workspace h)
  have hblocks := Json.Read.rel_optional (Record.read_part sets_blocks h)
  obtain ⟨workspace, blocks⟩ := file
  rw [holder]
  generalize Node.present (node.part record.names "workspace") = part at hworkspace ⊢
  cases hworkspace with
  | some hread => exact Record.read_part SavedWorkspace.sets_workspace hread
  | none =>
    generalize Node.present (node.part record.names "blocks") = part at hblocks ⊢
    cases hblocks with
    | some hread => exact hread
    | none => rfl

theorem forall₂_topBlocks {node : Node} {file : SaveFile} (h : record.read node = .ok file) :
    List.Forall₂ (fun node block => SavedBlock.read node = .ok block) (topBlocks node)
      ((file.workspace.or file.blocks).getD {}).blocks := by
  have hfrom := from_holder h
  rw [topBlocks]
  generalize holder node = part at hfrom ⊢
  cases part with
  | none =>
    rw [show (file.workspace.or file.blocks).getD {} = {} from hfrom]
    exact .nil
  | some part =>
    exact Json.Read.forall₂_elim_list (Record.read_part SavedWorkspace.sets_blocks hfrom)

section

variable {P : Key → Node → Prop} {file : Node} (h : file.Every P)
include h

theorem every_holder {found : Node} (hfound : holder file = some found) : found.Every P := by
  rw [holder] at hfound
  split at hfound
  · next hworkspace =>
    exact (Node.Every.present (fun _ hpart => h.part hpart) hworkspace).part hfound
  · exact .present (fun _ hpart => h.part hpart) hfound

theorem every_topBlocks {block : Node} (hblock : block ∈ topBlocks file) : block.Every P := by
  obtain ⟨list, hlist, hitem⟩ := mem_elim hblock
  obtain ⟨found, hfound, hlist⟩ := Option.bind_eq_some_iff.1 hlist
  exact ((every_holder h hfound).part hlist).items hitem

end

end SaveFile

namespace Source

/-- The values from which the blocks of a source were read. -/
def origins (source : Source) : List Node :=
  if Text.isBlank source.text then []
  else (SaveFile.topBlocks (Json.Document.parse source.text).root).flatMap fun block =>
    SavedBlock.origins block.depth block

/-- Every block of a source that is reached was read from the origin in its place. -/
theorem forall₂_origins {source : Source} {workspace : SavedWorkspace}
    (h : source.workspace = .ok workspace) :
    List.Forall₂ SavedBlock.ReadFrom source.origins
      (workspace.blocks.flatMap SavedBlock.reached) := by
  rw [Source.workspace] at h
  rw [origins]
  split_ifs at h ⊢ with hblank
  · cases h
    exact .nil
  · split at h
    · next file hfile =>
      cases h
      obtain ⟨read, hread, hextra⟩ := Json.bind_eq_ok hfile
      obtain rfl : read = file := by
        split at hextra
        · cases hextra
        · cases hextra
          rfl
      exact List.rel_flatMap (SaveFile.forall₂_topBlocks hread)
        fun node block hblock => SavedBlock.forall₂_origins node.depth node block hblock
    · cases h

/-- What is said of all members of a source is true inside of every origin. -/
theorem every_origins {P : Key → Node → Prop} {source : Source}
    (h : (Json.Document.parse source.text).root.Every P) {origin : Node}
    (horigin : origin ∈ source.origins) : origin.Every P := by
  rw [origins] at horigin
  split_ifs at horigin
  · cases horigin
  · obtain ⟨block, hblock, horigin⟩ := List.mem_flatMap.1 horigin
    exact SavedBlock.every_origins block.depth (SaveFile.every_topBlocks h hblock) horigin

end Source

end PiBlocks
