import PiBlocks.Program.Pass
import PiBlocks.Proofs.Program.Layout
import PiBlocks.Proofs.Walk.Words

/-!
# The mark of definitions

Only definitions have an equals sign behind a space. The one of a guard stands behind the text of
its left side, and no text that the walk puts together ends with a space or begins with an equals
sign (`Line.Settled`), wherever in the tree the blocks stand that gave it. So if names are made of
letters, digits and underscores and definitions stand alone at the top level, the mark tells the
kind of every line that is generated, and a text taken apart into lines is laid out as the lines
themselves are (`Tree.marked_of_lettered`).
-/

namespace PiBlocks

namespace Line

/-! ## Neighbours -/

/-- No equals sign behind a space, none in front, and no line break. -/
@[mk_iff]
structure Unmarked (text : String) : Prop where
  spaced : text.toList.IsChain fun c next => c = ' ' → next ≠ '='
  front : text.toList.head? ≠ some '='
  oneLine : Text.OneLine text

/-- An unmarked text with no space at its end. -/
@[mk_iff]
structure Settled (text : String) : Prop extends Unmarked text where
  back : text.toList.getLast? ≠ some ' '

instance (text : String) : Decidable (Unmarked text) :=
  decidable_of_iff _ (unmarked_iff text).symm

instance (text : String) : Decidable (Settled text) :=
  decidable_of_iff _ (settled_iff text).symm

theorem isPrefixOf_marker (c next : Char) (rest : List Char) :
    marker.toList.isPrefixOf (c :: next :: rest) = false ↔ (c = ' ' → next ≠ '=') := by
  have hmarker : marker.toList = [' ', '='] := rfl
  rw [hmarker, List.isPrefixOf, List.isPrefixOf, List.isPrefixOf, Bool.and_true,
    Bool.and_eq_false_iff, beq_eq_false_iff_ne, beq_eq_false_iff_ne, ← imp_iff_not_or, ne_comm,
    eq_comm]

theorem occursIn_marker_eq_false_iff : ∀ {chars : List Char},
    Text.occursIn marker.toList chars = false ↔ chars.IsChain fun c next => c = ' ' → next ≠ '='
  | [] => by simp [Text.occursIn, marker]
  | [c] => by simp [Text.occursIn, marker, List.isPrefixOf]
  | c :: next :: rest => by
    have hrest : Text.occursIn marker.toList (next :: rest) = false ↔ _ :=
      occursIn_marker_eq_false_iff
    rw [Text.occursIn, Bool.or_eq_false_iff, hrest, List.isChain_cons_cons, isPrefixOf_marker]

theorem isDefinition_eq_false_iff {text : String} :
    isDefinition text = false ↔ text.toList.IsChain fun c next => c = ' ' → next ≠ '=' :=
  occursIn_marker_eq_false_iff

section

variable {text first rest body : String}

theorem oneLine_append : Text.OneLine (first ++ rest) ↔ Text.OneLine first ∧ Text.OneLine rest := by
  simp only [Text.OneLine, String.toList_append, List.mem_append, not_or]
  tauto

theorem Unmarked.append (hfirst : Unmarked first) (hrest : Unmarked rest) :
    Unmarked (first ++ rest) where
  spaced := by
    rw [String.toList_append, List.isChain_append]
    exact ⟨hfirst.spaced, hrest.spaced, fun _ _ next hnext _ heq => hrest.front (heq ▸ hnext)⟩
  front := by
    rw [String.toList_append, List.head?_append, ne_eq, Option.or_eq_some_iff]
    exact fun h => h.elim hfirst.front fun h => hrest.front h.2
  oneLine := oneLine_append.2 ⟨hfirst.oneLine, hrest.oneLine⟩

theorem Unmarked.append_settled (hfirst : Unmarked first) (hrest : Settled rest) (hne : rest ≠ "") :
    Settled (first ++ rest) where
  toUnmarked := hfirst.append hrest.toUnmarked
  back := by
    have hlast : rest.toList.getLast? ≠ none := by simpa using hne
    rw [String.toList_append, List.getLast?_append, ne_eq, Option.or_eq_some_iff]
    exact fun h => h.elim hrest.back fun h => hlast h.1

theorem Settled.append (hfirst : Settled first) (hrest : Settled rest) :
    Settled (first ++ rest) where
  toUnmarked := hfirst.toUnmarked.append hrest.toUnmarked
  back := by
    rw [String.toList_append, List.getLast?_append, ne_eq, Option.or_eq_some_iff]
    exact fun h => h.elim hrest.back fun h => hfirst.back h.2

/-- Behind a text that does not end with a space an equals sign is no mark. -/
theorem Settled.append_equals (h : Settled text) (hne : text ≠ "") : Settled (text ++ "=") where
  spaced := by
    rw [String.toList_append, List.isChain_append]
    exact ⟨h.spaced, .singleton '=', fun c hc _ _ hspace _ => h.back (hspace ▸ hc)⟩
  front := by
    have hhead : text.toList.head? ≠ none := by simpa using hne
    rw [String.toList_append, List.head?_append, ne_eq, Option.or_eq_some_iff]
    exact fun heq => heq.elim h.front fun heq => hhead heq.1
  oneLine := oneLine_append.2 ⟨h.oneLine, by decide⟩
  back := by simp

/-- Letters, digits and underscores. -/
theorem settled_of_isPart (h : text.toList.all Identifier.isPart = true) : Settled text := by
  have hpart {c : Char} (hc : c ∈ text.toList) : Identifier.isPart c = true :=
    List.all_eq_true.1 h c hc
  refine ⟨⟨?_, ?_, ?_, ?_⟩, ?_⟩
  · exact List.Pairwise.isChain (List.pairwise_of_forall_mem_list fun c hc _ _ heq =>
      absurd (heq ▸ hpart hc) (by decide))
  · exact fun heq => absurd (hpart (List.mem_of_head? heq)) (by decide)
  · exact fun hc => absurd (hpart hc) (by decide)
  · exact fun hc => absurd (hpart hc) (by decide)
  · exact fun heq => absurd (hpart (List.mem_of_getLast? heq)) (by decide)

theorem settled_empty : Settled "" := by
  decide

theorem unmarked_join {separator : String} (hseparator : Unmarked separator) :
    ∀ {texts : List String}, (∀ text ∈ texts, Unmarked text) → Unmarked (Text.join separator texts)
  | [], _ => settled_empty.toUnmarked
  | [text], h => h text List.mem_cons_self
  | first :: _ :: _, h => (h first List.mem_cons_self).append
    (hseparator.append (unmarked_join hseparator fun text ht => h text (List.mem_cons_of_mem _ ht)))

theorem join_ne_empty (separator : String) (hne : first ≠ "") (more : List String) :
    Text.join separator (first :: more) ≠ "" := by
  cases more <;> simp [Text.join, hne]

theorem settled_join {separator : String} (hseparator : Unmarked separator) :
    ∀ {texts : List String}, (∀ text ∈ texts, Settled text ∧ text ≠ "") →
      Settled (Text.join separator texts)
  | [], _ => settled_empty
  | [text], h => (h text List.mem_cons_self).1
  | first :: second :: more, h => by
    have hne := join_ne_empty separator (h second (by simp)).2 more
    have hrest := settled_join hseparator fun text ht => h text (List.mem_cons_of_mem _ ht)
    have hfirst := (h first List.mem_cons_self).1.toUnmarked
    exact hfirst.append_settled (hseparator.append_settled hrest hne) (by simp [hne])

/-! ## Pieces of text -/

/-- Two texts with a separator between them. -/
theorem Settled.separated {separator : String} (hfirst : Settled first)
    (hseparator : Unmarked separator) (hrest : Settled rest) (hne : rest ≠ "") :
    Settled (first ++ separator ++ rest) :=
  (hfirst.toUnmarked.append hseparator).append_settled hrest hne

theorem settled_sequence (kind : Kind) (next : Option Kind) (hfirst : Settled first)
    (hrest : Settled rest) : Settled (Block.sequence kind next first rest) := by
  rw [Block.sequence]
  split_ifs with hnothing
  · exact hfirst.append hrest
  all_goals
    simp only [Bool.or_eq_true, not_or, Bool.not_eq_true] at hnothing
    have hne := Text.ne_empty_of_not_blank hnothing.2
    first
    | exact hfirst.separated (by decide) hrest hne
    | exact hfirst.append hrest

theorem settled_continued (hfirst : Settled first) (hbody : Settled body) :
    Settled (Block.continued first body) := by
  rw [Block.continued]
  split_ifs with hempty
  · exact hfirst
  · exact hfirst.separated (by decide) hbody (by simpa using hempty)

theorem settled_sendText (hfirst : Settled first) (hrest : Settled rest) :
    Settled (Block.sendText first rest) :=
  ((hfirst.append (by decide)).append hrest).append (by decide)

theorem settled_receiveText (hfirst : Settled first) (hrest : Settled rest) :
    Settled (Block.receiveText first rest) :=
  ((hfirst.append (by decide)).append hrest).append (by decide)

theorem settled_callText (hfirst : Settled first) {args : List String}
    (hargs : ∀ arg ∈ args, Settled arg) : Settled (Block.callText first args) := by
  have hjoin : Unmarked (Text.join ", " args) :=
    unmarked_join (by decide) fun arg harg => (hargs arg harg).toUnmarked
  rw [Block.callText]
  split_ifs
  · exact hfirst
  · exact ((hfirst.append (by decide)).toUnmarked.append hjoin).append_settled (by decide)
      (by decide)

/-- The equals sign of a guard stands behind the text of its left side. -/
theorem settled_guardText {operator : String} (hfirst : Settled first)
    (hoperator : operator ∈ Grammar.comparisons) (hrest : Settled rest) (hbody : Settled body) :
    Settled (Block.guardText first operator rest body) := by
  have hleft : Settled ("[" ++ first) := .append (by decide) hfirst
  have hcompared : Settled ("[" ++ first ++ operator) := by
    simp only [Grammar.comparisons, List.mem_cons, List.not_mem_nil, or_false] at hoperator
    rcases hoperator with rfl | rfl
    · exact hleft.append_equals (by simp)
    · exact hleft.append (by decide)
  have hcondition : Settled ("[" ++ first ++ operator ++ rest ++ "]") :=
    (hcompared.append hrest).append (by decide)
  rw [Block.guardText]
  split_ifs with hnothing hempty
  · exact settled_empty
  · exact hcondition
  · exact hcondition.separated (by decide) hbody (by simpa using hempty)

theorem settled_forkText (count : Nat) (around : ScopeKind) (hbody : Settled body) :
    Settled (Block.forkText count around body) := by
  rw [Block.forkText]
  split_ifs
  · exact settled_empty
  · exact hbody
  · exact (Settled.append (by decide) hbody).append (by decide)

theorem isDefinition_append (first body : String) :
    isDefinition (first ++ " = " ++ body) = true := by
  by_contra h
  rw [Bool.not_eq_true, isDefinition_eq_false_iff, String.toList_append, String.toList_append] at h
  exact absurd ((List.isChain_append.1 (List.isChain_append.1 h).1).2.1) (by decide)

/-- A definition that has text is marked. -/
theorem isDefinition_definitionText {params : List String}
    (hne : Block.definitionText first params body ≠ "") :
    isDefinition (Block.definitionText first params body) = true := by
  rw [Block.definitionText] at hne ⊢
  split_ifs with hnothing hparams
  · simp [hnothing] at hne
  · exact isDefinition_append first body
  · have hequals : ") = " = ")" ++ " = " := rfl
    rw [hequals, ← String.append_assoc]
    exact isDefinition_append _ body

theorem oneLine_definitionText {params : List String} (hfirst : Text.OneLine first)
    (hparams : ∀ param ∈ params, Unmarked param) (hbody : Text.OneLine body) :
    Text.OneLine (Block.definitionText first params body) := by
  have hjoin : Text.OneLine (Text.join ", " params) := (unmarked_join (by decide) hparams).oneLine
  rw [Block.definitionText]
  split_ifs
  · decide
  · simp only [oneLine_append]
    exact ⟨⟨hfirst, by decide⟩, hbody⟩
  · simp only [oneLine_append]
    exact ⟨⟨⟨⟨hfirst, by decide⟩, hjoin⟩, by decide⟩, hbody⟩

end

end Line

/-! ## The walk -/

/-- The texts of the parts are settled. -/
structure Parts.Settled (parts : Parts) : Prop where
  first : Line.Settled parts.first
  second : Line.Settled parts.second
  items : ∀ text ∈ parts.items, Line.Settled text
  body : Line.Settled parts.body

namespace Block

/-- Whether the names of a block are made of letters, digits and underscores, and its comparison
is one. -/
def lettered (block : Block) : Bool :=
  (nameFields.all fun name => (block.field name).toList.all Identifier.isPart) &&
    Grammar.comparisons.contains ((block.field? FieldName.operation).getD "=")

/-- A lettered block that is no definition. -/
def Plain (block : Block) : Prop := block.lettered = true ∧ block.kind ≠ .process

variable {block : Block}

theorem settled_field (h : block.lettered = true) {name : String} (hname : name ∈ nameFields) :
    Line.Settled (block.field name) := by
  rw [lettered, Bool.and_eq_true] at h
  exact Line.settled_of_isPart (List.all_eq_true.1 h.1 name hname)

theorem operation_of_lettered (h : block.lettered = true) :
    (block.field? FieldName.operation).getD "=" ∈ Grammar.comparisons := by
  rw [lettered, Bool.and_eq_true] at h
  exact List.contains_iff_mem.1 h.2

/-- The names that blocks in a slot declare. -/
theorem settled_namesOf {trail : List Step} {slots : List (String × List Block)}
    (h : ∀ site ∈ sitesInSlots trail slots, site.block.Plain) (slot : String) {name : String}
    (hname : name ∈ Plan.namesOf slots slot) : Line.Settled name := by
  obtain ⟨inner, hinner, rfl⟩ := List.mem_map.1 (List.mem_filter.1 hname).1
  obtain ⟨before, after, hchain⟩ := List.append_of_mem hinner
  have hsite := (mem_sitesOf_append inner after trail before).1
  rw [← hchain] at hsite
  have hplain := h _ ((sitesOf_sublist_sitesInSlots trail slot slots).subset hsite)
  exact settled_field hplain.1 (by simp [nameFields])

end Block

open Block Line in
/-- What a block gives that is no definition, put together from such parts. -/
theorem Parts.Settled.ownText {parts : Parts} (h : parts.Settled) (scopes : Scopes) {block : Block}
    (hplain : block.Plain)
    (hnames : ∀ name ∈ Plan.namesOf block.slots SlotName.names, Line.Settled name) :
    Line.Settled (parts.ownText scopes block.kind block.fields block.slots) := by
  obtain ⟨id, kind, fields, slots⟩ := block
  obtain ⟨hlettered, hkind⟩ := hplain
  rw [kind_mk] at hkind ⊢
  rw [fields_mk, slots_mk] at *
  have hnew : Line.Settled ((OrderedMap.get? FieldName.new fields).getD "") :=
    settled_field hlettered (by simp [nameFields])
  have hname : Line.Settled ((OrderedMap.get? FieldName.name fields).getD "") :=
    settled_field hlettered (by simp [nameFields])
  have hprocess : Line.Settled ((OrderedMap.get? FieldName.processName fields).getD "") :=
    settled_field hlettered (by simp [nameFields])
  cases kind with
  | process => exact absurd rfl hkind
  | main => exact h.body
  | parameter | argument | sendName | globalName | restrictName | receiveName =>
    exact settled_empty
  | call =>
    simp only [Parts.ownText]
    split_ifs
    · exact settled_empty
    · exact settled_callText hprocess h.items
  | restrict =>
    simp only [Parts.ownText]
    split_ifs
    · exact settled_empty
    · exact settled_continued (.append (by decide) hnew) h.body
  | multiRestrict =>
    simp only [Parts.ownText]
    split_ifs
    · exact settled_empty
    · refine settled_continued (settled_join (by decide) ?_) h.body
      exact List.forall_mem_map.2 fun name hname =>
        ⟨.append (by decide) (hnames name hname), by simp⟩
  | receive =>
    simp only [Parts.ownText]
    split_ifs
    · exact settled_empty
    · exact settled_continued (settled_receiveText h.first hnew) h.body
  | multiReceive =>
    simp only [Parts.ownText]
    split_ifs
    · exact settled_empty
    · refine settled_continued (settled_join (by decide) ?_) h.body
      exact List.forall_mem_map.2 fun name hname =>
        ⟨settled_receiveText h.first (hnames name hname), by simp [receiveText]⟩
  | guarded =>
    exact settled_guardText h.first (operation_of_lettered hlettered) h.second h.body
  | parallelFork | choiceFork => exact settled_forkText _ _ h.body
  | parallelBranch | choiceBranch =>
    simp only [Parts.ownText]
    split_ifs
    · exact settled_empty
    · exact h.body
  | send =>
    simp only [Parts.ownText]
    split_ifs
    · exact settled_empty
    · exact settled_sendText h.first h.second
  | multiSend =>
    simp only [Parts.ownText]
    split_ifs
    · exact settled_empty
    · refine settled_join (by decide) (List.forall_mem_map.2 fun message hmessage => ?_)
      exact ⟨settled_sendText h.first (h.items message (List.mem_filter.1 hmessage).1),
        by simp [sendText]⟩
  | sync =>
    simp only [Parts.ownText]
    split_ifs
    · exact settled_empty
    · exact settled_sendText h.first h.first
  | reference =>
    simp only [Parts.ownText]
    split_ifs
    · exact settled_empty
    · exact hname
  | termination =>
    have hzero : Line.Settled "0" := by decide
    exact hzero

namespace Block

open Line

mutual

/-- A block gives nothing or what is put together from settled parts. -/
theorem exists_parts_traceBlock (trail followers) : ∀ (block : Block) (run : Run),
    (∀ site ∈ sitesBelow trail block, site.block.Plain) →
      (traceBlock trail followers block run).value = "" ∨
        ∃ parts : Parts, parts.Settled ∧ ∃ scopes, (traceBlock trail followers block run).value =
          parts.ownText scopes block.kind block.fields block.slots
  | .mk id kind fields slots, run, h => by
    rw [sitesBelow] at h
    by_cases hc : run.counts kind = true
    · simp only [traceBlock, hc, Bool.not_true, Bool.false_eq_true, if_false]
      refine .inr ⟨_, ⟨?_, ?_, ?_, ?_⟩, _, rfl⟩
      · exact settled_traceSlot _ _ slots _ h
      · exact settled_traceSlot _ _ slots _ h
      · exact settled_traceItemsIn _ _ slots _ h
      · exact settled_traceSlot _ _ slots _ h
    · exact .inl (by simp [traceBlock, hc])

theorem settled_traceChain (trail) : ∀ (chain : List Block) (run : Run),
    (∀ site ∈ sitesOf trail chain, site.block.Plain) →
      Settled (traceChain trail chain run).value
  | [], run, _ => by
    rw [traceChain]
    exact settled_empty
  | .mk id kind fields slots :: rest, run, h => by
    rw [sitesOf, List.forall_mem_cons, List.forall_mem_append] at h
    obtain ⟨hplain, hbelow, hrest⟩ := h
    have hown : Settled (traceBlock trail rest (.mk id kind fields slots) run).value := by
      rcases exists_parts_traceBlock trail rest (.mk id kind fields slots) run hbelow with
        hnone | ⟨parts, hparts, scopes, htext⟩
      · rw [hnone]
        exact settled_empty
      · rw [htext]
        refine hparts.ownText scopes hplain fun name hname => ?_
        rw [sitesBelow] at hbelow
        exact settled_namesOf hbelow SlotName.names hname
    rw [traceChain]
    split_ifs
    · exact settled_empty
    · exact settled_sequence _ _ hown (settled_traceChain _ rest _ hrest)

theorem settled_traceSlot (trail slot) : ∀ (slots : List (String × List Block)) (run : Run),
    (∀ site ∈ sitesInSlots trail slots, site.block.Plain) →
      Settled (traceSlot trail slot slots run).value
  | [], run, _ => by
    rw [traceSlot]
    exact settled_empty
  | (name, chain) :: slots, run, h => by
    rw [sitesInSlots, List.forall_mem_append] at h
    rw [traceSlot]
    split_ifs
    · exact settled_traceChain trail chain run h.1
    · exact settled_traceSlot trail slot slots run h.2

theorem settled_traceItems (trail item) : ∀ (chain : List Block) (run : Run),
    (∀ site ∈ sitesOf trail chain, site.block.Plain) →
      ∀ text ∈ (traceItems trail item chain run).value, Settled text
  | [], run, _ => by simp [traceItems]
  | .mk id kind fields slots :: rest, run, h => by
    rw [sitesOf, List.forall_mem_cons, List.forall_mem_append, sitesBelow] at h
    rw [traceItems]
    exact List.forall_mem_cons.2
      ⟨settled_traceSlot _ _ slots _ h.2.1, settled_traceItems _ _ rest _ h.2.2⟩

theorem settled_traceItemsIn (trail items) : ∀ (slots : List (String × List Block)) (run : Run),
    (∀ site ∈ sitesInSlots trail slots, site.block.Plain) →
      ∀ text ∈ (traceItemsIn trail items slots run).value, Settled text
  | [], run, _ => by simp [traceItemsIn]
  | (name, chain) :: slots, run, h => by
    rw [sitesInSlots, List.forall_mem_append] at h
    rw [traceItemsIn]
    split_ifs
    · exact settled_traceItems trail _ chain run h.1
    · exact settled_traceItemsIn trail items slots run h.2

end

/-- A definition gives nothing or a line with the mark. -/
theorem marked_of_process (trail followers) {block : Block} (run : Run)
    (hlettered : block.lettered = true) (hkind : block.kind = .process)
    (hbelow : ∀ site ∈ sitesBelow trail block, site.block.Plain)
    (hne : (traceBlock trail followers block run).value ≠ "") :
    Line.isDefinition (traceBlock trail followers block run).value = true ∧
      Text.OneLine (traceBlock trail followers block run).value := by
  obtain ⟨parts, hparts, scopes, htext⟩ :=
    (exists_parts_traceBlock trail followers block run hbelow).resolve_left hne
  rw [htext] at hne ⊢
  obtain ⟨id, kind, fields, slots⟩ := block
  obtain rfl : kind = .process := hkind
  rw [sitesBelow] at hbelow
  refine ⟨isDefinition_definitionText hne, oneLine_definitionText ?_ ?_ hparts.body.oneLine⟩
  · exact (settled_field hlettered (by simp [nameFields])).oneLine
  · exact fun name hname => (settled_namesOf hbelow SlotName.params hname).toUnmarked

end Block

/-! ## Lines -/

/-- Lines whose marks tell their kinds are laid out as the text they are joined to. -/
theorem Line.canonical_raw {lines : List Line} (filled : ∀ line ∈ lines, line.text ≠ "")
    (oneLine : ∀ line ∈ lines, Text.OneLine line.text)
    (marked : ∀ line ∈ lines, isDefinition line.text = true ↔ line.kind = .definition) :
    canonical (raw lines) = order lines := by
  have hlast : (lines.map Line.text).getLast? ≠ some "" := by
    intro heq
    obtain ⟨line, hline, htext⟩ := List.mem_map.1 (List.mem_of_getLast? heq)
    exact filled line hline htext
  have hfilled : (lines.map Line.text).filter (fun text => !text.isEmpty) = lines.map Line.text :=
    List.filter_eq_self.2 (List.forall_mem_map.2 fun line hline => by simpa using filled line hline)
  have hkind : ∀ line ∈ lines, ofText line.text = line := by
    rintro ⟨text, kind⟩ hline
    have hmarked := marked _ hline
    cases kind <;> simp_all [ofText, isDefinition]
  rw [canonical, raw, Text.lines_join (List.forall_mem_map.2 oneLine) hlast, hfilled, List.map_map]
  exact congrArg order ((List.map_congr_left hkind).trans (List.map_id lines))

namespace Root

/-- Lines are those of some chain of the top level. -/
theorem exists_of_mem_traceRoots {line : Line} : ∀ {roots : List Root} {run : Run},
    line ∈ (traceRoots roots run).value →
      ∃ root ∈ roots, ∃ run, line ∈ root.lineOf (Block.traceChain [] root.chain run).value
  | [], run, h => by simp [traceRoots] at h
  | root :: roots, run, h => by
    rcases List.mem_append.1 h with h | h
    · exact ⟨root, List.mem_cons_self, run, h⟩
    · obtain ⟨other, hother, hline⟩ := exists_of_mem_traceRoots h
      exact ⟨other, List.mem_cons_of_mem _ hother, hline⟩

variable {root : Root}

/-- Definitions have nothing before and nothing behind them. -/
def definitionsAlone (root : Root) : Bool :=
  (Block.sitesOf [] root.chain).all fun site =>
    site.block.kind ≠ .process || (site.trail.isEmpty && site.followers.isEmpty)

theorem alone_of_mem (alone : root.definitionsAlone = true) {site : Site}
    (hsite : site ∈ Block.sitesOf [] root.chain) (hkind : site.block.kind = .process) :
    site.trail = [] ∧ site.followers = [] := by
  simpa [hkind] using List.all_eq_true.1 alone site hsite

/-- A mark stands in the line of a definition and in no other. -/
theorem marked_lineOf (alone : root.definitionsAlone = true)
    (lettered : ∀ site ∈ Block.sitesOf [] root.chain, site.block.lettered = true) (run : Run) :
    ∀ line ∈ root.lineOf (Block.traceChain [] root.chain run).value,
      (Line.isDefinition line.text = true ↔ line.kind = .definition) ∧
        Text.OneLine line.text := by
  intro line hline
  obtain ⟨hne, rfl⟩ := eq_of_mem_lineOf hline
  rw [chain, Block.sitesOf] at lettered
  obtain ⟨hhead, htail⟩ := List.forall_mem_cons.1 lettered
  -- trails below and behind the head are not empty
  have hplain : ∀ site ∈ Block.sitesBelow [] root.head ++
      Block.sitesOf [.previous root.head] root.rest, site.block.Plain := by
    refine fun site hsite => ⟨htail site hsite, fun hkind => ?_⟩
    have hmem : site ∈ Block.sitesOf [] root.chain := by
      rw [chain, Block.sitesOf]
      exact List.mem_cons_of_mem _ hsite
    have htrail := (alone_of_mem alone hmem hkind).1
    rcases List.mem_append.1 hsite with hsite | hsite
    · simpa [htrail] using Block.suffix_of_mem_sitesBelow _ _ hsite
    · simpa [htrail] using Block.suffix_of_mem_sitesOf _ _ hsite
  by_cases hkind : root.head.kind = .process
  · have hmem : ⟨root.head, root.rest, []⟩ ∈ Block.sitesOf [] root.chain := by
      rw [chain, Block.sitesOf]
      exact List.mem_cons_self
    have hrest : root.rest = [] := (alone_of_mem alone hmem hkind).2
    have hgate : root.head.kind.opensGate = true := by simp [hkind, Kind.opensGate]
    rw [chain, hrest, Block.value_traceChain_singleton (Block.counts_of_opensGate _ hgate)] at hne ⊢
    obtain ⟨hmarked, honeLine⟩ := Block.marked_of_process [] [] run hhead hkind
      (fun site hsite => hplain site (List.mem_append_left _ hsite)) hne
    exact ⟨by simp [hmarked, hkind], honeLine⟩
  · have hsettled : Line.Settled (Block.traceChain [] root.chain run).value := by
      refine Block.settled_traceChain [] root.chain run ?_
      rw [chain, Block.sitesOf]
      exact List.forall_mem_cons.2 ⟨⟨hhead, hkind⟩, hplain⟩
    have hunmarked := Line.isDefinition_eq_false_iff.2 hsettled.spaced
    exact ⟨by simp [hunmarked, hkind], hsettled.oneLine⟩

end Root

namespace Tree

variable {tree : Tree}

/-- Definitions stand at the top level, each in a chain of its own. -/
def definitionsAlone (tree : Tree) : Bool := tree.roots.all Root.definitionsAlone

/-- The names of all blocks are made of letters, digits and underscores, and their comparisons are
such. -/
def lettered (tree : Tree) : Bool := tree.sites.all fun site => site.block.lettered

/-- If definitions stand alone at the top level and names are made of letters, digits and
underscores, a mark stands in the lines of definitions and in no others, and no line contains a
line break. So the joined text, taken apart and laid out, is the text of the pass. -/
theorem marked_of_lettered (alone : tree.definitionsAlone = true) (lettered : tree.lettered = true)
    (scopes : Scopes) :
    (∀ line ∈ (tree.generate scopes).1,
      (Text.contains line.text Line.marker = true ↔ line.kind = .definition) ∧
        '\n' ∉ line.text.toList ∧ '\r' ∉ line.text.toList) ∧
      Line.canonical (Line.raw (tree.generate scopes).1) = Line.order (tree.generate scopes).1 ∧
      Line.order (tree.generate scopes).1 = (tree.pass scopes true).1.text := by
  have hlines : ∀ line ∈ (tree.generate scopes).1,
      (Line.isDefinition line.text = true ↔ line.kind = .definition) ∧
        Text.OneLine line.text := by
    intro line hline
    rw [generate_eq] at hline
    obtain ⟨root, hroot, run, hline⟩ := Root.exists_of_mem_traceRoots hline
    have hroots := tree.mem_visitOrder.1 hroot
    refine Root.marked_lineOf (List.all_eq_true.1 alone root hroots) (fun site hsite => ?_) run
      line hline
    exact List.all_eq_true.1 lettered site (List.mem_flatMap.2 ⟨root, hroots, hsite⟩)
  exact ⟨hlines, Line.canonical_raw (fun line => text_ne_empty_of_mem_lines)
    (fun line hline => (hlines line hline).2) fun line hline => (hlines line hline).1, rfl⟩

/-- A guard with terminations in the places of its names. -/
def comparing (id : String) : Block :=
  .mk id .guarded [] [
    (SlotName.first, [.mk (id ++ " left") .termination [] []]),
    (SlotName.second, [.mk (id ++ " right") .termination [] []]),
    (SlotName.scope, [.mk (id ++ " end") .termination [] []])]

/-- A program and a definition behind it, a guard in both. -/
def comparingTwice : Tree where
  roots := (program [comparing "guard"]).roots ++
    [⟨.mk "process" .process [(FieldName.process, "P")] [(SlotName.body, [comparing "other"])],
      [], none⟩]

theorem marked_of_lettered_comparingTwice : comparingTwice.definitionsAlone = true ∧
    comparingTwice.lettered = true ∧
    (comparingTwice.generate {}).1 = [⟨"[0=0] 0", .program⟩, ⟨"P = [0=0] 0", .definition⟩] ∧
    Line.canonical "[0=0] 0\nP = [0=0] 0" = "P = [0=0] 0\n\n[0=0] 0" ∧
    (comparingTwice.pass {} true).1.text = "P = [0=0] 0\n\n[0=0] 0" := by
  have alone : comparingTwice.definitionsAlone = true := by decide
  have lettered : comparingTwice.lettered = true := by decide +kernel
  have hlines : (comparingTwice.generate {}).1 =
      [⟨"[0=0] 0", .program⟩, ⟨"P = [0=0] 0", .definition⟩] := by decide +kernel
  obtain ⟨-, hcanonical, htext⟩ := marked_of_lettered alone lettered {}
  rw [hlines] at hcanonical htext
  exact ⟨alone, lettered, hlines, hcanonical, htext.symm⟩

end Tree

end PiBlocks
