import PiBlocks.Program.Pass
import PiBlocks.Proofs.Scope.Keys
import PiBlocks.Proofs.Walk.Operations
import PiBlocks.Proofs.Workspace.Format
import PiBlocks.Workspace.Document
import PiBlocks.Workspace.Source

/-!
# Combined documents written and read

A combined document can be read in three ways : as a whole, for its blocks, or for its state. All
three take back what was written, in either layout (`SaveDocument.read_written`) ; a reader that
wants one part passes over the other. The document has to be well-formed, which a type with maps
and words of a fixed size would say of itself, and the coordinates have to be doubles whose texts
read back.

The scopes a program can come by (`Scopes.Reached`) are well-keyed, for a run keeps them so and a
state that is read is. So what is saved with them can always be restored, whatever the coordinates
of the blocks are.
-/

namespace PiBlocks

open Json (Gives Layout)

/-! ## Texts -/

/-- A reader that gives a result for a value reads it from the value's text. -/
theorem Json.Gives.read_chars {α : Type} {reader : Json.Reader α} {value : Json} {result : α}
    (h : Gives reader value result) {layout : Layout} (hlayout : layout.IsSpace) :
    (Json.Document.parse (String.ofList (Json.chars layout 0 value))).read reader = .ok result := by
  obtain ⟨node, hparse, hshows⟩ := Json.Document.parse_chars hlayout value
  rw [hparse, Json.Document.read, h node hshows]
  rfl

/-- The text of an object is not blank. -/
theorem Json.isBlank_chars_object (layout : Layout) (depth : Nat) (members : List (String × Json)) :
    Text.isBlank (String.ofList (chars layout depth (.object members))) = false := by
  rw [Text.isBlank, String.toList_ofList]
  cases members <;> rfl

namespace SaveDocument

/-! ## Readers of a document -/

/-- Blocks and state are well-formed. -/
def wellFormed (document : SaveDocument) : Bool :=
  document.workspace.wellFormed && document.state.all Snapshot.wellKeyed

variable {document : SaveDocument}

/-- The state is read back, whatever the blocks are. -/
theorem gives_state (h : document.state.all Snapshot.wellKeyed = true) :
    Gives (Json.Read.optional Snapshot.record.read)
      (match document.state with
        | some snapshot => snapshot.toJson
        | none => .null) document.state := by
  cases hstate : document.state with
  | none => exact Gives.none
  | some snapshot =>
    rw [hstate] at h
    exact (Snapshot.gives_toJson h).optional nofun

theorem gives_stateRecord (h : document.state.all Snapshot.wellKeyed = true) :
    Gives Snapshot.stateRecord.read document.toJson document.state :=
  Json.Record.Takes.gives (.other rfl (.field rfl (gives_state h).set .nil)) (by decide)

variable (hworkspace :
  Gives SavedWorkspace.record.read document.workspace.toJson document.workspace)
include hworkspace

theorem gives_record (h : document.state.all Snapshot.wellKeyed = true) :
    Gives record.read document.toJson document :=
  Json.Record.Takes.gives (.field rfl hworkspace.set (.field rfl (gives_state h).set .nil))
    (by decide)

theorem gives_saveFile :
    Gives SaveFile.record.read document.toJson { workspace := some document.workspace } :=
  Json.Record.Takes.gives (.field rfl (hworkspace.optional nofun).set
    (.absent rfl (.other rfl .nil))) (by decide)

end SaveDocument

/-! ## Scopes that can come about -/

/-- Scopes that come about from fresh ones by operations, passes and states that were read. -/
inductive Scopes.Reached : Scopes → Prop where
  | fresh : Reached {}
  | operation {scopes : Scopes} (h : Reached scopes) (op : Operation)
      (hop : ∀ snapshot, op ≠ .restore snapshot) : Reached (op.apply scopes)
  | pass {scopes : Scopes} (h : Reached scopes) (tree : Tree) (canonical : Bool) :
      Reached (tree.pass scopes canonical).2
  | restored {scopes : Scopes} (h : Reached scopes) {source : String} {snapshot : Snapshot}
      (hsource : Snapshot.ofSource source = .ok (some snapshot)) : Reached (scopes.restore snapshot)

/-- A snapshot that was read from a source is well-keyed. -/
theorem Snapshot.wellKeyed_of_ofSource {source : String} {snapshot : Snapshot}
    (h : ofSource source = .ok (some snapshot)) : snapshot.wellKeyed = true := by
  have hstate {node : Json.Node} {state : Option Snapshot}
      (hread : stateRecord.read node = .ok state) : state.all wellKeyed = true := by
    refine Json.Record.read_keeps (P := fun state => state.all wellKeyed = true) ?_ rfl hread
    intro field hfield node change hchange _ _
    obtain rfl := List.mem_singleton.1 hfield
    obtain ⟨state, hoptional, hchange⟩ := Json.bind_eq_ok hchange
    cases hchange
    cases state with
    | none => rfl
    | some snapshot => exact wellKeyed_of_read (Json.Read.of_optional hoptional)
  rw [ofSource] at h
  split at h
  · cases h
  · obtain ⟨state, hread, h⟩ := Json.bind_eq_ok h
    split at h
    · cases h
    · cases h
      exact hstate hread

theorem Scopes.Reached.wellKeyed {scopes : Scopes} (h : scopes.Reached) : scopes.WellKeyed := by
  induction h with
  | fresh => exact ⟨rfl, rfl⟩
  | operation _ op hop ih => exact Operation.wellKeyed_apply op ih fun _ h => absurd h (hop _)
  | @pass scopes _ tree canonical ih =>
    have hbegin : scopes.begin.WellKeyed := Operation.wellKeyed_apply .begin ih nofun
    have hwalked : (tree.generate scopes).2.WellKeyed := by
      rw [tree.scopes_generate]
      refine Operation.wellKeyed_applyAll (fun op hop snapshot heq => ?_) hbegin
      have hwrites := tree.writes_of_mem_operations op hop
      rw [heq] at hwrites
      cases hwrites
    exact Operation.wellKeyed_apply .commit hwalked nofun
  | @restored scopes _ source snapshot hsource ih =>
    exact Operation.wellKeyed_apply (.restore snapshot) ih fun other heq => by
      cases heq
      exact Snapshot.wellKeyed_of_ofSource hsource

/-! ## What is saved can be restored -/

namespace SaveDocument

section

variable {document : SaveDocument} {layout : Layout} (hlayout : layout.IsSpace)
include hlayout

/-- A state is read from a document, whatever the blocks are. -/
theorem ofSource_chars (h : document.state.all Snapshot.wellKeyed = true) :
    Snapshot.ofSource (String.ofList (Json.chars layout 0 document.toJson)) =
      .ok document.state := by
  have hblank := Json.isBlank_chars_object layout 0
  rw [Snapshot.ofSource, toJson, hblank]
  exact (gives_stateRecord h).read_chars hlayout

theorem parse_chars (h : document.wellFormed = true)
    (hback : ∀ x ∈ document.workspace.coordinates, (Number.real x).ReadsBack) :
    parse (String.ofList (Json.chars layout 0 document.toJson)) = .ok document := by
  obtain ⟨hworkspace, hstate⟩ := Bool.and_eq_true_iff.1 h
  exact (gives_record (SavedWorkspace.gives_toJson hworkspace hback) hstate).read_chars hlayout

theorem workspace_chars (h : document.wellFormed = true)
    (hback : ∀ x ∈ document.workspace.coordinates, (Number.real x).ReadsBack) (file : Nat) :
    Source.workspace ⟨String.ofList (Json.chars layout 0 document.toJson), file⟩ =
      .ok document.workspace := by
  have hread := (gives_saveFile (SavedWorkspace.gives_toJson (Bool.and_eq_true_iff.1 h).1
    hback)).read_chars hlayout
  have hblank := Json.isBlank_chars_object layout 0
  rw [Source.workspace, hread, toJson, hblank]
  rfl

end

/-- A well-formed document whose coordinates read back is what its text is read as, in either
layout ; so are its blocks and its state, each read by itself. And what is saved of any tree with
scopes that can come about restores their committed snapshot, and changes nothing else. -/
theorem read_written :
    (∀ document : SaveDocument, document.wellFormed = true →
      (∀ x ∈ document.workspace.coordinates, (Number.real x).ReadsBack) →
        ∀ text, text = document.toJson.compact ∨ text = document.toJson.pretty →
          parse text = .ok document ∧
          (∀ file, Source.workspace ⟨text, file⟩ = .ok document.workspace) ∧
          Snapshot.ofSource text = .ok document.state) ∧
    (∀ (tree : Tree) (scopes other : Scopes), scopes.Reached →
      other.restoreFrom (tree.save scopes) =
        .ok (true, { other with committed := scopes.committed })) := by
  refine ⟨fun document h hback text htext => ?_, fun tree scopes other hreached => ?_⟩
  · obtain ⟨layout, hlayout, rfl⟩ : ∃ layout : Layout, layout.IsSpace ∧
        text = String.ofList (Json.chars layout 0 document.toJson) :=
      htext.elim (fun h => ⟨_, Layout.isSpace_compact, h⟩) fun h => ⟨_, Layout.isSpace_pretty, h⟩
    exact ⟨parse_chars hlayout h hback, workspace_chars hlayout h hback,
      ofSource_chars hlayout (Bool.and_eq_true_iff.1 h).2⟩
  · have hsaved : Snapshot.ofSource (tree.save scopes) = .ok (some scopes.committed) :=
      @ofSource_chars ⟨tree.toSaved, some scopes.committed⟩ .pretty Layout.isSpace_pretty
        hreached.wellKeyed.committed
    rw [Scopes.restoreFrom, hsaved]
    rfl

/-- A program with a shadow at an input, a block behind another one and a string that has to be
escaped, and a state with a scope and a process. -/
def shadowed : SaveDocument where
  workspace :=
    { version := 1
      blocks := [
        { kind := .main, id := some "m", x := some 12.5, y := some (-40)
          inputs := [("MAIN", .of
            { kind := .send
              inputs := [("ON", { shadow := some (SavedBlock.ofKind .reference) })]
              next := some (.of ((SavedBlock.ofKind .restrict).withField "NEW" "\"\n")) })] }] }
  state := some
    { global := .mk .global ["x"] [("k", .mk .main ["y"] [])]
      processes := [("p", ⟨"k", "m", ["z"]⟩)]
      declaredMain := true }

theorem read_written_shadowed :
    let scopes := ((Tree.restricting "x").pass {} true).2
    shadowed.wellFormed = true ∧
      (∀ x ∈ shadowed.workspace.coordinates, (Number.real x).ReadsBack) ∧ scopes.Reached ∧
      parse shadowed.toJson.pretty = .ok shadowed ∧
      Source.workspace ⟨shadowed.toJson.compact, 0⟩ = .ok shadowed.workspace ∧
      ({} : Scopes).restoreFrom ((Tree.restricting "x").save scopes) =
        .ok (true, { committed := scopes.committed }) := by
  intro scopes
  have hwell : shadowed.wellFormed = true := by decide +kernel
  have hback : ∀ x ∈ shadowed.workspace.coordinates, (Number.real x).ReadsBack := by
    have hcoordinates : shadowed.workspace.coordinates = [12.5, -40] := rfl
    rw [hcoordinates]
    simp only [List.forall_mem_cons, List.not_mem_nil, false_implies, implies_true, and_true]
    exact ⟨.of_scan "12.5" (by decide +kernel) rfl (by decide +kernel),
      .of_scan "-40.0" (by decide +kernel) rfl (by decide +kernel)⟩
  have hreached : scopes.Reached := .pass .fresh (Tree.restricting "x") true
  exact ⟨hwell, hback, hreached, (read_written.1 shadowed hwell hback _ (.inr rfl)).1,
    (read_written.1 shadowed hwell hback _ (.inl rfl)).2.1 0,
    read_written.2 (Tree.restricting "x") scopes {} hreached⟩

end SaveDocument

end PiBlocks
