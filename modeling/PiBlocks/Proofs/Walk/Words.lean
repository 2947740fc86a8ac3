import PiBlocks.Proofs.Walk.Branches
import PiBlocks.Proofs.Walk.Grammar
import PiBlocks.Proofs.Walk.Lexical

/-!
# Generated lines are words

Whatever a pass generates is a word of the calculus (`Tree.isWord_of_spelled`), if the tree is
well-placed, its names are identifiers, and nothing stands behind calls and forks in chains of
statements (`Block.spelled`). Pieces may be missing anywhere : a channel that is not
selected or not visible, a branch or a chain inside without text, a binder without name. What is
left is joined without a separator that has nothing on one of its sides.

The induction is along the chains inside. A statement gives nothing or a sequence, and a fork may
also give a join if it stands in the body of a program or definition (`Block.Worded`) ; a chain of
statements gives what its last block may give (`Block.within_joined`). A fork with one branch that
has text gives the text of that branch, one with more gives them joined (`Block.joined_branches`).
-/

namespace PiBlocks

open Block Grammar Identifier

/-! ## Spelling -/

namespace Block

/-- The fields that hold names. -/
def nameFields : List String :=
  [FieldName.new, FieldName.name, FieldName.process, FieldName.processName]

/-- The slots that hold statements. -/
def statementSlots : List String := [SlotName.main, SlotName.body, SlotName.scope]

/-- Whether the names of a block are identifiers or empty, its comparison is one, and in its chains
of statements only blocks that a full stop may follow have a block behind them. -/
def spelled (block : Block) : Bool :=
  (nameFields.all fun name => isOptional (block.field name)) &&
    comparisons.contains ((block.field? FieldName.operation).getD "=") &&
    statementSlots.all fun slot => (block.chain slot).dropLast.all fun inner => inner.kind.needsStop

/-- A block and everything below it are spelled so. -/
def Spelled (block : Block) : Prop :=
  block.spelled = true ∧ ∀ inner ∈ (sitesBelow [] block).map Site.block, inner.spelled = true

variable {block : Block}

theorem Spelled.of_mem {slot : String} (h : block.Spelled) {inner : Block}
    (hinner : inner ∈ block.chain slot) : inner.Spelled := by
  obtain ⟨before, after, hchain⟩ := List.append_of_mem hinner
  have hsubset := (sitesOf_chain_sublist [] slot block).subset
  rw [hchain] at hsubset
  obtain ⟨hown, hbelow⟩ := mem_sitesOf_append inner after [.owner block] before
  refine ⟨h.2 _ (List.mem_map_of_mem (hsubset hown)), ?_⟩
  rw [map_block_sitesBelow [] (before.reverse.map .previous ++ [.owner block])]
  intro other hother
  obtain ⟨site, hsite, rfl⟩ := List.mem_map.1 hother
  exact h.2 _ (List.mem_map_of_mem (hsubset (hbelow site hsite)))

namespace Spelled

variable (h : block.Spelled)
include h

theorem field {name : String} (hname : name ∈ nameFields) :
    isOptional (block.field name) = true := by
  have hspelled := h.1
  rw [spelled, Bool.and_eq_true, Bool.and_eq_true] at hspelled
  exact List.all_eq_true.1 hspelled.1.1 name hname

theorem operation : (block.field? FieldName.operation).getD "=" ∈ comparisons := by
  have hspelled := h.1
  rw [spelled, Bool.and_eq_true, Bool.and_eq_true] at hspelled
  exact List.contains_iff_mem.1 hspelled.1.2

theorem needsStop {slot : String} (hslot : slot ∈ statementSlots) :
    ∀ inner ∈ (block.chain slot).dropLast, inner.kind.needsStop = true := by
  have hspelled := h.1
  rw [spelled, Bool.and_eq_true] at hspelled
  exact List.all_eq_true.1 (List.all_eq_true.1 hspelled.2 slot hslot)

end Spelled

theorem isWord_of_mem_namesIn {chain : List Block} (h : ∀ inner ∈ chain, inner.Spelled)
    {name : String} (hname : name ∈ namesIn FieldName.new chain) : isWord name = true := by
  obtain ⟨hmem, hne⟩ := List.mem_filter.1 hname
  obtain ⟨inner, hinner, rfl⟩ := List.mem_map.1 hmem
  have hnew : FieldName.new ∈ nameFields := by simp [nameFields]
  have hfield := (h inner hinner).field hnew
  exact isWord_of_isOptional hfield (by simpa using hne)

/-! ## Values -/

theorem isOptional_printed (run : Run) (h : block.Spelled) :
    isOptional (block.printed run) = true := by
  rw [printed]
  split_ifs
  · exact h.field (by simp [nameFields])
  · rfl

theorem isOptional_printedIn (run : Run) (slot : Option String) (h : block.Spelled) :
    isOptional (block.printedIn run slot) = true := by
  rw [printedIn]
  cases hinner : slot.bind fun slot => (block.chain slot).head? with
  | none => rfl
  | some inner =>
    obtain ⟨name, -, hhead⟩ := Option.bind_eq_some_iff.1 hinner
    exact isOptional_printed run (h.of_mem (List.mem_of_head? hhead))

theorem isOptional_printedItems (run : Run) (items : Option (String × String))
    (h : block.Spelled) : ∀ text ∈ block.printedItems run items, isOptional text = true := by
  cases items with
  | none => simp [printedItems]
  | some pair =>
    exact List.forall_mem_map.2 fun inner hinner =>
      isOptional_printedIn run (some pair.2) (h.of_mem hinner)

/-! ## Chains -/

theorem within_sequence {kind next : Kind} {own rest : String} {joins : Bool}
    (hstop : kind.needsStop = true) (hown : Within false own) (hrest : Within joins rest) :
    Within joins (sequence kind (some next) own rest) := by
  rcases hown.eq_empty_or with rfl | hown
  · simpa [sequence] using hrest
  by_cases hempty : rest = ""
  · simpa [sequence, hempty, Text.isBlank_empty] using Within.sequence hown joins
  · have hblank := hrest.not_blank hempty
    have hplain : kind ≠ .choiceBranch ∧ kind ≠ .parallelBranch := by
      constructor <;> rintro rfl <;> cases hstop
    simpa [sequence, hown.ne_empty, hblank, hplain, hstop] using hrest.prepend hown hempty

/-- A chain of statements gives what its last block may give. -/
theorem within_joined {joins : Bool} {chain : List Block} {texts : List String}
    (hstop : ∀ inner ∈ chain.dropLast, inner.kind.needsStop = true)
    (htexts : List.Forall₂ (fun inner text => Within (inner.kind.isFork && joins) text)
      chain texts) : Within joins (joined (chain.map kind) texts) := by
  induction htexts with
  | nil => exact .empty joins
  | @cons inner own rest texts htext hrest ih =>
    cases hrest with
    | nil =>
      have hlast : joined ([inner].map kind) [own] = own := by simp [joined, sequence]
      rw [hlast]
      exact htext.mono (by simp)
    | @cons next _ more _ _ _ =>
      have hneeds : inner.kind.needsStop = true := hstop inner (by simp)
      rw [Kind.not_isFork_of_needsStop hneeds] at htext
      exact within_sequence hneeds htext (ih fun other ho => hstop other (by simp [ho]))

theorem operator_mem (fork : Kind) : fork.operator ∈ separators := by
  rw [Kind.operator]
  split_ifs <;> simp [separators]

end Block

/-! ## Terms -/

/-- What the texts of the parts of a term are like. -/
structure Parts.Worded (parts : Parts) (block : Block) : Prop where
  first : isOptional parts.first = true
  second : isOptional parts.second = true
  items : ∀ text ∈ parts.items, isOptional text = true
  /-- the chain inside is one of statements -/
  body : block.kind.isFork = false → Within block.kind.opensGate parts.body
  /-- the chain inside is one of branches -/
  branches : block.kind.isFork = true → ∃ separator ∈ separators, ∃ texts,
    parts.body = Text.join separator texts ∧ parts.count = texts.length ∧
      ∀ text ∈ texts, Sequence text

namespace Parts.Worded

/-- What a statement or branch gives, put together from such parts. -/
theorem within_ownText {parts : Parts} {block : Block} (h : parts.Worded block) (scopes : Scopes)
    (hterm : block.kind.isTerm = true) (hgate : block.kind.opensGate = false)
    (hspelled : block.Spelled) : Within (block.kind.isFork && scopes.currentKind.isBody)
      (parts.ownText scopes block.kind block.fields block.slots) := by
  obtain ⟨id, kind, fields, slots⟩ := block
  rw [kind_mk] at hterm hgate
  rw [kind_mk, fields_mk, slots_mk]
  have hbody (hkind : kind.isFork = false) : Within false parts.body := hgate ▸ h.body hkind
  have hnew : isOptional ((OrderedMap.get? FieldName.new fields).getD "") = true :=
    hspelled.field (by simp [nameFields])
  have hprocess : isOptional ((OrderedMap.get? FieldName.processName fields).getD "") = true :=
    hspelled.field (by simp [nameFields])
  have hnames : ∀ name ∈ Plan.namesOf slots SlotName.names, isWord name = true := fun name =>
    isWord_of_mem_namesIn fun inner (hinner : inner ∈ Block.chain (.mk id kind fields slots)
      SlotName.names) => hspelled.of_mem hinner
  have hfork (hkind : kind.isFork = true) : Within scopes.currentKind.isBody
      (forkText parts.count scopes.currentKind parts.body) := by
    obtain ⟨separator, hseparator, texts, hjoined, hcount, htexts⟩ := h.branches hkind
    rw [hjoined, hcount]
    exact within_forkText _ hseparator htexts
  cases kind with
  | main | process => cases hgate
  | parameter | argument | restrictName | receiveName | sendName | globalName | reference =>
    cases hterm
  | call =>
    simp only [Parts.ownText]
    split_ifs with hnothing
    · exact .empty false
    · simp only [selectsNothing, Bool.or_eq_true, not_or, String.isEmpty_iff] at hnothing
      have hname := isWord_of_isOptional hprocess hnothing.1
      exact .sequence (.piece (piece_callText hname h.items)) false
  | restrict =>
    simp only [Parts.ownText]
    split_ifs with hnothing
    · exact .empty false
    · simp only [selectsNothing, Bool.or_eq_true, not_or, String.isEmpty_iff] at hnothing
      have hname := isWord_of_isOptional hnew hnothing.1
      exact .sequence (sequence_continued (.piece (.restrict hname)) (hbody rfl)) false
  | multiRestrict =>
    simp only [Parts.ownText]
    split_ifs with hnothing
    · exact .empty false
    · refine .sequence (sequence_continued (sequence_join (by simpa using hnothing) ?_)
        (hbody rfl)) false
      exact List.forall_mem_map.2 fun name hname => .restrict (hnames name hname)
  | receive =>
    simp only [Parts.ownText]
    split_ifs with hnothing
    · exact .empty false
    · simp only [Bool.or_eq_true, not_or, String.isEmpty_iff] at hnothing
      have hpiece := Piece.receive (isWord_of_isOptional h.first hnothing.2)
        (isWord_of_isOptional hnew hnothing.1)
      exact .sequence (sequence_continued (.piece hpiece) (hbody rfl)) false
  | multiReceive =>
    simp only [Parts.ownText]
    split_ifs with hnothing
    · exact .empty false
    · simp only [Bool.or_eq_true, not_or, String.isEmpty_iff] at hnothing
      have hchannel := isWord_of_isOptional h.first hnothing.1
      refine .sequence (sequence_continued (sequence_join (by simpa using hnothing.2) ?_)
        (hbody rfl)) false
      exact List.forall_mem_map.2 fun name hname => .receive hchannel (hnames name hname)
  | guarded => exact within_guardText h.first hspelled.operation h.second (hbody rfl)
  | parallelFork | choiceFork => exact hfork rfl
  | parallelBranch | choiceBranch =>
    simp only [Parts.ownText]
    split_ifs
    · exact .empty false
    · exact hbody rfl
  | send =>
    simp only [Parts.ownText]
    split_ifs with hnothing
    · exact .empty false
    · simp only [Bool.or_eq_true, not_or, String.isEmpty_iff] at hnothing
      exact .sequence (.piece (.send (isWord_of_isOptional h.first hnothing.1)
        (isWord_of_isOptional h.second hnothing.2))) false
  | multiSend =>
    simp only [Parts.ownText]
    split_ifs with hnothing
    · exact .empty false
    · simp only [Bool.or_eq_true, not_or, String.isEmpty_iff] at hnothing
      have hchannel := isWord_of_isOptional h.first hnothing.1
      refine .sequence (sequence_join (by simpa using hnothing.2) ?_) false
      refine List.forall_mem_map.2 fun message hmessage => .send hchannel ?_
      obtain ⟨hmem, hne⟩ := List.mem_filter.1 hmessage
      exact isWord_of_isOptional (h.items message hmem) (by simpa using hne)
  | sync =>
    simp only [Parts.ownText]
    split_ifs with hnothing
    · exact .empty false
    · have hchannel := isWord_of_isOptional h.first (by simpa using hnothing)
      exact .sequence (.piece (.send hchannel hchannel)) false
  | termination => exact .sequence (.piece .termination) false

end Parts.Worded

namespace Block

variable {block : Block} {run : Run} {kinds : List ScopeKind} {around : ScopeKind}

/-- What a statement or branch gives : nothing or a sequence, and a fork in the body of a program or
definition may give a join. -/
def Worded (block : Block) : Prop :=
  ∀ (trail : List Step) (followers : List Block) {run : Run} {kinds : List ScopeKind}
    {around : ScopeKind}, block.IsInner → block.Spelled → run.emitting = true →
    run.scopes.Around (kinds ++ [around]) →
    Within (block.kind.isFork && around.isBody) (traceBlock trail followers block run).value

theorem within_ownTexts : ∀ {chain : List Block} (trail : List Step) {run : Run},
    (∀ block ∈ chain, Worded block) → (∀ block ∈ chain, block.IsInner) →
      (∀ block ∈ chain, block.Spelled) → run.emitting = true →
      run.scopes.Around (kinds ++ [around]) →
      List.Forall₂ (fun inner text => Within (inner.kind.isFork && around.isBody) text) chain
        (ownTexts trail chain run)
  | [], _, _, _, _, _, _, _ => .nil
  | block :: rest, trail, run, worded, inner, spelled, hemitting, haround => by
    have hinner := inner block List.mem_cons_self
    obtain ⟨hpassed, hstill⟩ := passed_inner hinner trail rest hemitting
    refine .cons (worded block List.mem_cons_self trail rest hinner
      (spelled block List.mem_cons_self) hemitting haround) ?_
    exact within_ownTexts (.previous block :: trail)
      (fun other ho => worded other (List.mem_cons_of_mem _ ho))
      (fun other ho => inner other (List.mem_cons_of_mem _ ho))
      (fun other ho => spelled other (List.mem_cons_of_mem _ ho)) hstill
      (hpassed.around _ haround)

theorem spelled_body (h : block.Spelled) : ∀ inner ∈ block.body, inner.Spelled := by
  intro inner hinner
  rcases block.body_eq_nil_or with hbody | ⟨slot, -, hbody⟩
  · simp [hbody] at hinner
  · exact h.of_mem (hbody ▸ hinner)

theorem needsStop_body (h : block.Spelled) (hfork : block.kind.isFork = false) :
    ∀ inner ∈ block.body.dropLast, inner.kind.needsStop = true := by
  rcases block.body_eq_nil_or with hbody | ⟨slot, hslot, hbody⟩
  · simp [hbody]
  · rw [hbody]
    refine h.needsStop ?_
    revert hfork hslot
    cases block.kind <;> intro hfork hslot <;> cases hslot <;>
      first | (cases hfork; done) | simp [statementSlots]

/-- The texts in the chain inside of a term. -/
theorem within_bodyTexts (inside : ∀ inner ∈ block.body, Worded inner) (trail)
    (placed : block.wellPlaced = true) (hterm : block.kind.isTerm = true)
    (spelled : block.Spelled) (hcounts : run.counts block.kind = true)
    (haround : run.scopes.Around kinds) :
    List.Forall₂ (fun inner text => Within (inner.kind.isFork && block.kind.opensGate) text)
      block.body (block.bodyTexts trail run) := by
  cases hscope : block.scope? with
  | none =>
    rw [bodyTexts, body_of_scope?_eq_none hscope]
    exact .nil
  | some around =>
    have hstart := block.around_start hterm haround
    rw [hscope] at hstart
    rw [← isBody_of_scope? hscope]
    exact within_ownTexts _ inside (fun inner => isInner_of_mem_body placed)
      (spelled_body spelled) (emitting_opened hterm hcounts) hstart

/-- The parts of a term have such texts if the blocks inside do. -/
theorem worded_parts (inside : ∀ inner ∈ block.body, Worded inner) (trail)
    (placed : block.wellPlaced = true) (hterm : block.kind.isTerm = true)
    (spelled : block.Spelled) (hcounts : run.counts block.kind = true)
    (haround : run.scopes.Around kinds) : (block.parts trail run).Worded block := by
  obtain ⟨hfirst, hsecond, hitems⟩ := parts_values trail placed run
  obtain ⟨hbody, hcount⟩ := parts_body trail placed hterm hcounts
  have htexts := within_bodyTexts inside trail placed hterm spelled hcounts haround
  constructor
  · rw [hfirst]
    exact isOptional_printedIn run _ spelled
  · rw [hsecond]
    exact isOptional_printedIn run _ spelled
  · rw [hitems]
    exact isOptional_printedItems run _ spelled
  · intro hfork
    rw [hbody]
    exact within_joined (needsStop_body spelled hfork) htexts
  · intro hfork
    -- a branch is no place for a join, so each of its texts is a sequence or nothing
    have hplain : ∀ text ∈ block.bodyTexts trail run, text = "" ∨ Sequence text := by
      simp only [Kind.not_opensGate_of_isFork hfork, Bool.and_false] at htexts
      intro text htext
      obtain ⟨_, -, hwithin⟩ := exists_of_mem_forall₂ htexts htext
      exact hwithin.eq_empty_or
    obtain ⟨hjoined, hcounted⟩ := joined_branches (fun inner => kind_of_mem_fork placed hfork)
      htexts.length_eq fun text htext => (hplain text htext).imp_right Sequence.not_blank
    refine ⟨_, operator_mem _, _, hbody.trans hjoined, (hcount hfork).trans hcounted, ?_⟩
    intro text htext
    obtain ⟨hmem, hne⟩ := List.mem_filter.1 htext
    exact (hplain text hmem).resolve_left (by simpa using hne)

theorem worded_of_body (inside : ∀ inner ∈ block.body, Worded inner) : Worded block := by
  intro trail followers run kinds around ⟨placed, hterm, hgate⟩ spelled hemitting haround
  have hcounts := counts_of_emitting block.kind hemitting
  have hparts := worded_parts inside trail placed hterm spelled hcounts haround
  obtain ⟨hpassed, -⟩ := passed block trail followers placed hterm hcounts
  -- a fork looks at the innermost scope when its branches are closed, which is the one around it
  have hkind := (hpassed.around _ haround).currentKind_eq
  rw [traceBlock_eq trail followers placed hterm hcounts] at hkind ⊢
  rw [← hkind]
  exact hparts.within_ownText _ hterm hgate spelled

/-- A statement or branch gives nothing or a sequence, and a fork in the body of a program or
definition may give a join. -/
theorem worded (block : Block) : Worded block :=
  body_induction (fun _ => worded_of_body) block

end Block

/-! ## The top level -/

/-- Whether the names of a tree are identifiers, and nothing stands behind calls and forks in chains
of statements. -/
def Tree.spelled (tree : Tree) : Bool := tree.sites.all fun site => site.block.spelled

namespace Root

variable {root : Root} {run : Run} {kinds : List ScopeKind}

theorem spelled_head {tree : Tree} (h : tree.spelled = true) (hroot : root ∈ tree.roots) :
    root.head.Spelled := by
  have hsites : ∀ site ∈ sitesOf [] root.chain, site.block.spelled = true := fun site hsite =>
    List.all_eq_true.1 h site (List.mem_flatMap.2 ⟨root, hroot, hsite⟩)
  rw [chain, sitesOf] at hsites
  refine ⟨hsites ⟨root.head, root.rest, []⟩ List.mem_cons_self, fun inner hinner => ?_⟩
  obtain ⟨site, hsite, rfl⟩ := List.mem_map.1 hinner
  exact hsites site (List.mem_cons_of_mem _ (List.mem_append_left _ hsite))

/-- The line of a program or definition is a word. -/
theorem isWord_of_opensGate (placed : root.head.wellPlaced = true)
    (hgate : root.head.kind.opensGate = true) (spelled : root.head.Spelled)
    (haround : run.scopes.Around kinds) :
    ∀ line ∈ root.lineOf (traceBlock [] [] root.head run).value, line.IsWord := by
  intro line hline
  obtain ⟨hne, rfl⟩ := eq_of_mem_lineOf hline
  have hterm := Kind.isTerm_of_opensGate hgate
  have hcounts := counts_of_opensGate run hgate
  have hparts := worded_parts (fun inner _ => worded inner) [] placed hterm spelled hcounts
    haround
  have hvalue : (traceBlock [] [] root.head run).value = root.head.ownText [] run := by
    rw [traceBlock_eq [] [] placed hterm hcounts]
  rw [hvalue] at hne ⊢
  simp only [Kind.opensGate, Bool.or_eq_true, decide_eq_true_eq] at hgate
  rcases hgate with hkind | hkind
  · have hbody := hparts.body (by rw [hkind]; rfl)
    have htext : root.head.ownText [] run = (root.head.parts [] run).body := by
      rw [ownText, hkind]
      rfl
    rw [htext] at hne ⊢
    simpa [Line.IsWord, hkind] using hbody.body hne
  · have hbody := hparts.body (by rw [hkind]; rfl)
    have htext : root.head.ownText [] run = definitionText (root.head.field FieldName.process)
        (namesIn FieldName.new (root.head.chain SlotName.params))
        (root.head.parts [] run).body := by
      rw [ownText, hkind]
      rfl
    have hname : isOptional (root.head.field FieldName.process) = true :=
      spelled.field (by simp [nameFields])
    have hparams (name) (hmem : name ∈ namesIn FieldName.new (root.head.chain SlotName.params)) :
        isWord name = true :=
      isWord_of_mem_namesIn (fun inner => spelled.of_mem) hmem
    rw [htext] at hne ⊢
    simpa [Line.IsWord, hkind] using definition_definitionText hname hparams hbody hne

theorem isWord_of_mem_traceRoots : ∀ {roots : List Root} {run : Run},
    (∀ root ∈ roots, root.wellPlaced = true) → (∀ root ∈ roots, root.head.Spelled) →
    run.emitting = false → run.scopes.Around kinds →
    ∀ line ∈ (traceRoots roots run).value, line.IsWord
  | [], run, _, _, _, _, line, h => by simp [traceRoots] at h
  | root :: roots, run, placed, spelled, hemitting, haround, line, h => by
    have hroot := placed root List.mem_cons_self
    rcases List.mem_append.1 h with h | h
    · by_cases hgate : root.head.kind.opensGate = true
      · rw [value_of_opensGate hroot hgate] at h
        exact isWord_of_opensGate (of_wellPlaced hroot _ List.mem_cons_self) hgate
          (spelled root List.mem_cons_self) haround line h
      · rw [value_of_not_opensGate hroot (by simpa using hgate) hemitting] at h
        cases h
    · obtain ⟨hrest, hstill⟩ := around_chain hroot hemitting haround
      exact isWord_of_mem_traceRoots (fun root hr => placed root (List.mem_cons_of_mem _ hr))
        (fun root hr => spelled root (List.mem_cons_of_mem _ hr)) hstill hrest line h

end Root

namespace Tree

/-- In a well-placed tree whose names are identifiers, and where nothing stands behind calls and
forks in chains of statements, every line that is generated is a word of the calculus. -/
theorem isWord_of_spelled {tree : Tree} (placed : tree.wellPlaced = true)
    (spelled : tree.spelled = true) (scopes : Scopes) :
    ∀ line ∈ (tree.generate scopes).1, line.IsWord := by
  rw [generate_eq]
  exact Root.isWord_of_mem_traceRoots (fun root => wellPlaced_of_mem placed)
    (fun root hroot => Root.spelled_head spelled (tree.mem_visitOrder.1 hroot)) rfl
    (Scopes.Around.begin scopes)

theorem isWord_of_spelled_restricting :
    (restricting "x").wellPlaced = true ∧ (restricting "x").spelled = true ∧
      (⟨"$x. x'<x>", .program⟩ : Line) ∈ ((restricting "x").generate {}).1 ∧
      Grammar.Body "$x. x'<x>" := by
  have placed : (restricting "x").wellPlaced = true := by decide
  have spelled : (restricting "x").spelled = true := by decide +kernel
  have hline : (⟨"$x. x'<x>", .program⟩ : Line) ∈ ((restricting "x").generate {}).1 := by
    decide +kernel
  exact ⟨placed, spelled, hline, isWord_of_spelled placed spelled {} _ hline⟩

end Tree

end PiBlocks
