import PiBlocks.Proofs.Walk.Alone
import PiBlocks.Proofs.Walk.Lexical
import Mathlib.Data.List.Nodup

/-!
# Texts without the walk

What the walk writes for a term can be told from the block alone, given which names are visible
around it and whether it stands in the body of a program or definition (`Block.written`). Inside,
the names that the block binds are visible besides. There is nothing here that changes on the way :
the texts of a chain are those of its blocks, each by itself (`Block.written_eq`).

If keys are distinct, that is what the walk writes (`Block.isWritten`), and the lines of a pass are
the texts of the programs and definitions among the global names (`Tree.generate_written`).
-/

namespace PiBlocks

open Block

/-- Scopes of which the innermost is the body of a program, or is none. -/
def Scopes.around (bare : Bool) : Scopes where
  active := { global := .empty (if bare then .main else .global) }

theorem Scopes.isBody_around (bare : Bool) : (around bare).currentKind.isBody = bare := by
  cases bare <;> rfl

namespace Block

/-! ## Values -/

section

variable (visible : String → Bool)

/-- What a reference gives where names are visible. -/
def shown (reference : Block) : String :=
  if visible (reference.field FieldName.name) then reference.field FieldName.name else ""

/-- What the reference in a slot gives, if there is one. -/
def shownIn (slot : Option String) (block : Block) : String :=
  ((slot.bind fun slot => (block.chain slot).head?).map (shown visible)).getD ""

/-- What the references in a slot of the blocks in another slot give. -/
def shownItems (items : Option (String × String)) (block : Block) : List String :=
  (items.map fun pair => (block.chain pair.1).map (shownIn visible (some pair.2))).getD []

/-- The names that are visible inside of a block. -/
def within (block : Block) (name : String) : Bool := visible name || block.binds.contains name

/-! ## Terms -/

/-- The texts of the parts of a term, given those of the blocks in the chain inside. -/
def partsAmong (block : Block) (texts : List String) : Parts where
  first := block.shownIn visible block.plan.first
  second := block.shownIn visible block.plan.second
  items := block.shownItems visible block.plan.items
  body := joined (block.body.map kind) texts
  count := branchCounts block.body texts

end

mutual

/-- The text of a term where names are visible, `bare` in the body of a program or definition. -/
def written (visible : String → Bool) (bare : Bool) : Block → String
  | .mk id kind fields slots =>
    let block := Block.mk id kind fields slots
    let texts := if block.skipsBody then []
      else writtenInSlot (block.within visible) kind.opensGate kind.bodySlot slots
    (block.partsAmong visible texts).ownText (.around bare) kind fields slots

/-- The texts of the blocks of a chain. -/
def writtenIn (visible : String → Bool) (bare : Bool) : List Block → List String
  | [] => []
  | block :: rest => written visible bare block :: writtenIn visible bare rest

/-- The texts of the blocks of the chain in a slot. -/
def writtenInSlot (visible : String → Bool) (bare : Bool) (slot : Option String) :
    List (String × List Block) → List String
  | [] => []
  | (name, chain) :: slots =>
    if some name = slot then writtenIn visible bare chain
    else writtenInSlot visible bare slot slots

end

section

variable {visible : String → Bool} {bare : Bool}

theorem writtenIn_eq_map (chain : List Block) :
    writtenIn visible bare chain = chain.map (written visible bare) := by
  induction chain with
  | nil => simp [writtenIn]
  | cons block rest ih => rw [writtenIn, List.map_cons, ih]

theorem writtenInSlot_eq_map (slot : Option String) (slots : List (String × List Block)) :
    writtenInSlot visible bare slot slots =
      ((slot.map fun slot => (OrderedMap.get? slot slots).getD []).getD []).map
        (written visible bare) := by
  induction slots with
  | nil => cases slot <;> simp [writtenInSlot, OrderedMap.get?]
  | cons entry slots ih =>
    rw [writtenInSlot, writtenIn_eq_map, ih]
    cases slot with
    | none => simp
    | some slot => by_cases h : entry.1 = slot <;> simp [OrderedMap.get?, h]

/-- The text of a chain. -/
def writtenChain (visible : String → Bool) (bare : Bool) (chain : List Block) : String :=
  joined (chain.map kind) (chain.map (written visible bare))

/-- The text of the chain inside of a block. -/
def writtenBody (visible : String → Bool) (block : Block) : String :=
  writtenChain (block.within visible) block.kind.opensGate block.body

/-- The text of a term is put together from the texts inside, each of which stands by itself. -/
theorem written_eq (visible : String → Bool) (bare : Bool) (block : Block) :
    written visible bare block =
      (block.partsAmong visible
        (block.body.map (written (block.within visible) block.kind.opensGate))).ownText
        (.around bare) block.kind block.fields block.slots := by
  obtain ⟨id, kind, fields, slots⟩ := block
  have hbody : (Block.mk id kind fields slots).body =
      if (Block.mk id kind fields slots).skipsBody then []
      else (kind.bodySlot.map (Block.mk id kind fields slots).chain).getD [] := rfl
  rw [written, hbody, kind_mk]
  split_ifs
  · rfl
  · rw [writtenInSlot_eq_map]
    rfl

end

/-! ## What the walk writes -/

section

variable {block : Block} {run : Run} {place : Standing} {more : List String}

theorem printed_eq_shown (hemitting : run.emitting = true) :
    printed run = shown run.scopes.isVisible := by
  funext block
  simp [printed, shown, hemitting]

theorem printedIn_eq_shownIn (hemitting : run.emitting = true) :
    printedIn run = shownIn run.scopes.isVisible := by
  funext slot block
  rw [printedIn, shownIn, printed_eq_shown hemitting]

theorem plan_of_opensGate (h : block.kind.opensGate = true) :
    block.plan.first = none ∧ block.plan.second = none ∧ block.plan.items = none := by
  obtain ⟨id, kind, fields, slots⟩ := block
  cases kind <;> first | exact ⟨rfl, rfl, rfl⟩ | cases h

/-- The values that a term reads hang on the names that are visible where it stands. -/
theorem parts_shown (trail) (placed : block.wellPlaced = true) (hterm : block.kind.isTerm = true)
    (hcounts : run.counts block.kind = true) :
    (block.parts trail run).first = block.shownIn run.scopes.isVisible block.plan.first ∧
      (block.parts trail run).second = block.shownIn run.scopes.isVisible block.plan.second ∧
      (block.parts trail run).items = block.shownItems run.scopes.isVisible block.plan.items := by
  obtain ⟨hfirst, hsecond, hitems⟩ := parts_values trail placed run
  rw [hfirst, hsecond, hitems]
  have hopened : (run.emitting || block.kind.opensGate) = true := emitting_opened hterm hcounts
  rcases Bool.or_eq_true_iff.1 hopened with hemitting | hgate
  · rw [printedItems, shownItems, printedIn_eq_shownIn hemitting]
    exact ⟨rfl, rfl, rfl⟩
  · obtain ⟨hfirst, hsecond, hitems⟩ := plan_of_opensGate hgate
    rw [hfirst, hsecond, hitems]
    exact ⟨rfl, rfl, rfl⟩

/-- Inside of a block, the names that it binds are visible besides. -/
theorem isVisible_start (hat : run.At place (block.ownKeys ++ more)) {kind : ScopeKind}
    (hscope : block.scope? = some kind) :
    (block.start run).scopes.isVisible = block.within run.scopes.isVisible := by
  have hstart := hat.start hscope
  funext name
  rw [within, Bool.eq_iff_iff, Bool.or_eq_true, hstart.scopes, hat.scopes, Standing.scopes,
    Standing.scopes, Scopes.isVisible_opened hstart.fresh, Scopes.isVisible_opened hat.fresh]
  have hbinds : name ∈ block.binds → name ≠ unresolved := fun hmem heq =>
    block.unresolved_not_mem_binds (heq ▸ hmem)
  simp only [Standing.inside, Scope.names_mk, List.mem_cons, exists_eq_or_imp,
    List.contains_iff_mem]
  by_cases hmem : name ∈ block.binds
  · simp [hmem, hbinds hmem]
  · simp [hmem]

theorem isVisible_extend {run' : Run} {coming : List String} {inner : List (String × Scope)}
    (hat : run.At place coming) (hnext : run'.At (place.extend [] inner) more) :
    run'.scopes.isVisible = run.scopes.isVisible := by
  have alike : (place.extend [] inner).Alike place :=
    ⟨Scope.kind_extend _ _ _, fun name => by simp [Standing.extend]⟩
  exact funext (hnext.isVisible_congr hat alike)

/-- What the walk writes for a term is told from the block. -/
def IsWritten (block : Block) : Prop :=
  ∀ (trail : List Step) (followers : List Block) {run : Run} {place : Standing}
    {more : List String}, block.wellPlaced = true → block.kind.isTerm = true →
    run.counts block.kind = true → run.At place (block.ownKeys ++ more) →
    (traceBlock trail followers block run).value =
      written run.scopes.isVisible place.scope.kind.isBody block

theorem ownTexts_eq_map : ∀ {chain : List Block} (trail : List Step) {run : Run}
    {place : Standing} {more : List String}, (∀ block ∈ chain, IsWritten block) →
    (∀ block ∈ chain, block.IsInner) → run.emitting = true →
    run.At place (keysOf chain ++ more) → ownTexts trail chain run =
      chain.map (written run.scopes.isVisible place.scope.kind.isBody)
  | [], _, _, _, _, _, _, _, _ => rfl
  | block :: rest, trail, run, place, more, isWritten, inner, hemitting, hat => by
    rw [keysOf_cons, List.append_assoc] at hat
    have hinner := inner block List.mem_cons_self
    have hown := isWritten block List.mem_cons_self trail rest hinner.1 hinner.2.1
      (counts_of_emitting _ hemitting) hat
    obtain ⟨hnext, hstill⟩ := walked_step (walked block) hinner trail rest hemitting hat
    have hrest := ownTexts_eq_map (.previous block :: trail)
      (fun other ho => isWritten other (List.mem_cons_of_mem _ ho))
      (fun other ho => inner other (List.mem_cons_of_mem _ ho)) hstill hnext
    have hkind : (place.extend [] (scopesOf block)).scope.kind = place.scope.kind :=
      Scope.kind_extend _ _ _
    rw [isVisible_extend hat hnext, hkind] at hrest
    rw [ownTexts, List.map_cons, hown, hrest]

/-- The texts inside of a term, each by itself. -/
theorem bodyTexts_eq_map (inside : ∀ inner ∈ block.body, IsWritten inner) (trail)
    (placed : block.wellPlaced = true) (hterm : block.kind.isTerm = true)
    (hcounts : run.counts block.kind = true) (hat : run.At place (block.ownKeys ++ more)) :
    block.bodyTexts trail run = block.body.map
      (written (block.within run.scopes.isVisible) block.kind.opensGate) := by
  cases hscope : block.scope? with
  | none => rw [bodyTexts, body_of_scope?_eq_none hscope]; rfl
  | some kind =>
    have hemitting : (block.start run).emitting = true := emitting_opened hterm hcounts
    have htexts := ownTexts_eq_map (.owner block :: trail) inside
      (fun inner => isInner_of_mem_body placed) hemitting (hat.start hscope)
    rw [isVisible_start hat hscope] at htexts
    rw [bodyTexts, htexts, ← isBody_of_scope? hscope]
    rfl

theorem isWritten_of_body (inside : ∀ inner ∈ block.body, IsWritten inner) : IsWritten block := by
  intro trail followers run place more placed hterm hcounts hat
  obtain ⟨hfirst, hsecond, hitems⟩ := parts_shown trail placed hterm hcounts
  obtain ⟨hbody, hcount⟩ := parts_body trail placed hterm hcounts
  have htexts := bodyTexts_eq_map inside trail placed hterm hcounts hat
  have hkind := currentKind_finish trail placed hterm hcounts hat
  rw [value_traceBlock trail followers placed hterm hcounts, written_eq]
  refine ownText_congr hterm hfirst hsecond hitems ?_ (fun hfork => ?_) ?_
  · rw [hbody, htexts]
    rfl
  · rw [hcount hfork, htexts]
    rfl
  · rw [hkind, Scopes.isBody_around]

theorem isWritten (block : Block) : IsWritten block :=
  body_induction (fun _ => isWritten_of_body) block

end

end Block

/-! ## Lines of a pass -/

/-- The line that a chain of the top level has where names are visible, if it has text. -/
def Root.writtenLine (visible : String → Bool) (root : Root) : List Line :=
  if root.head.kind.opensGate then root.lineOf (root.head.written visible false) else []

/-- A program or definition by itself has the line that is written for it. -/
theorem Root.lineAmong_head {root : Root} {names : List String}
    (placed : root.head.wellPlaced = true) (distinct : root.head.ownKeys.Nodup)
    (hnames : unresolved ∉ names) :
    root.head.lineAmong names = root.writtenLine fun name => names.contains name := by
  have hvisible : (Run.among names).scopes.isVisible = fun name => names.contains name := by
    funext name
    have hat := Run.At.among names distinct
    rw [Bool.eq_iff_iff, hat.scopes, Standing.scopes, Scopes.isVisible_opened hat.fresh,
      List.contains_iff_mem]
    have hne : name ∈ names → name ≠ unresolved := fun hmem heq => hnames (heq ▸ hmem)
    simpa [Standing.among] using hne
  rw [lineAmong, writtenLine]
  split_ifs with hgate
  · rw [isWritten root.head [] [] placed (Kind.isTerm_of_opensGate hgate)
      (counts_of_opensGate _ hgate) (.among names distinct), hvisible]
    rfl
  · rfl

namespace Tree

variable {tree : Tree}

/-- The lines of a pass are written for the programs and definitions among the global names. -/
theorem generate_written (placed : tree.wellPlaced = true)
    (distinct : (tree.ids.map Scope.key).Nodup) (scopes : Scopes) : (tree.generate scopes).1 =
      tree.visitOrder.flatMap (Root.writtenLine fun name => tree.globalNames.contains name) := by
  rw [generate_lines, rootLines_eq placed distinct, List.flatMap_map]
  refine List.flatMap_congr fun root hroot => ?_
  have hhead := Root.of_wellPlaced (wellPlaced_of_mem placed hroot) root.head List.mem_cons_self
  have hkeys : root.head.ownKeys.Nodup := by
    have hchain := (List.nodup_flatMap.1 (tree.nodup_visitOrder distinct)).1 root hroot
    rw [Root.chain, keysOf_cons] at hchain
    exact hchain.sublist (List.sublist_append_left _ _)
  exact Root.lineAmong_head hhead hkeys unresolved_not_mem_globalNames

end Tree

end PiBlocks
