import PiBlocks.Proofs.Walk.Visits

/-!
# Outside of programs and definitions

Wherever blocks stand, a block that the walk comes to outside of programs and definitions gives no
text, changes nothing and hides what is behind and inside of it, unless it is a program, a
definition or a global name (`Block.traceChain_of_not_counts`). So the walk over a chain without
programs and definitions goes along the global names in front, and no further
(`Block.traceChain_of_not_opensGate`). In a tree without them nothing but these names is left of a
pass (`Tree.gated`).
-/

namespace PiBlocks

namespace Block

/-- A global name is declared, and gives no text. -/
theorem traceBlock_globalName (trail followers) {block : Block} (h : block.kind = .globalName)
    (run : Run) : traceBlock trail followers block run =
      ⟨"", { run with scopes := run.scopes.declare (block.field FieldName.new) },
        [⟨⟨block, followers, trail⟩, run, ""⟩]⟩ := by
  obtain ⟨id, kind, fields, slots⟩ := block
  obtain rfl : kind = .globalName := h
  simp [traceBlock, Run.counts, Kind.bypassesGate, Plan.ofBlock, Plan.opened, Plan.closed,
    Plan.enter, Scopes.declareAll, Kind.isFork, Kind.isBranch, Kind.opensGate, Parts.ownText,
    field_mk]

/-- The blocks of a chain stand at sites of it. -/
theorem chain_sublist_sitesOf : ∀ (trail : List Step) (chain : List Block),
    chain.Sublist ((sitesOf trail chain).map Site.block)
  | _, [] => List.nil_sublist _
  | trail, block :: rest => by
    rw [sitesOf, List.map_cons, List.map_append]
    refine List.Sublist.cons_cons block ?_
    exact (chain_sublist_sitesOf _ rest).trans (List.sublist_append_right _ _)

/-- What the global names in front of a chain declare. -/
def leadingNames (chain : List Block) : List String :=
  (chain.takeWhile fun block => block.kind = .globalName).map (·.field FieldName.new)

theorem leadingNames_cons_of_ne {block : Block} (h : block.kind ≠ .globalName)
    (rest : List Block) : leadingNames (block :: rest) = [] := by
  simp [leadingNames, h]

/-- Outside of programs and definitions, and without any, a chain leaves the global names in front
of it and no text. -/
theorem traceChain_of_not_opensGate : ∀ (trail) {chain : List Block} {run : Run},
    run.emitting = false → (∀ block ∈ chain, block.kind.opensGate = false) →
      (traceChain trail chain run).value = "" ∧ (traceChain trail chain run).run =
        { run with scopes := run.scopes.declareAll (leadingNames chain) }
  | trail, [], run, _, _ => by simp [traceChain, leadingNames, Scopes.declareAll]
  | trail, .mk id kind fields slots :: rest, run, hemitting, hchain => by
    by_cases hglobal : (Block.mk id kind fields slots).kind = .globalName
    · obtain rfl : kind = .globalName := hglobal
      let declared : Run := { run with
        scopes := run.scopes.declare ((Block.mk id .globalName fields slots).field FieldName.new) }
      have hdeclared : declared.emitting = false := hemitting
      obtain ⟨hvalue, hrun⟩ := traceChain_of_not_opensGate
        (.previous (.mk id .globalName fields slots) :: trail) hdeclared
        fun block hblock => hchain block (List.mem_cons_of_mem _ hblock)
      have hcounts : declared.counts .globalName = true := rfl
      rw [traceChain, traceBlock_globalName _ _ rfl]
      simp only [declared] at hvalue hrun hcounts
      simp only [hcounts, Bool.not_true, Bool.false_eq_true, if_false, hvalue, hrun]
      exact ⟨by simp [sequence], by simp [leadingNames, Scopes.declareAll]⟩
    · have hgate : kind.opensGate = false := hchain _ List.mem_cons_self
      have hcounts : run.counts (Block.mk id kind fields slots).kind = false := by
        rw [kind_mk] at hglobal ⊢
        simp only [Kind.opensGate, Bool.or_eq_false_iff, decide_eq_false_iff_not] at hgate
        simp [Run.counts, Kind.bypassesGate, hgate, hglobal, hemitting]
      rw [traceChain_of_not_counts hcounts, leadingNames_cons_of_ne hglobal]
      exact ⟨rfl, rfl⟩

end Block

namespace Root

theorem leadingNames_of_not_isGlobal {root : Root} (h : root.isGlobal = false) :
    Block.leadingNames root.chain = [] :=
  Block.leadingNames_cons_of_ne (by simpa [isGlobal] using h) root.rest

/-- Without programs and definitions, chains of the top level leave the global names in front of
them and no lines. -/
theorem traceRoots_of_not_opensGate : ∀ {roots : List Root} {run : Run}, run.emitting = false →
    (∀ root ∈ roots, ∀ block ∈ root.chain, block.kind.opensGate = false) →
      (traceRoots roots run).value = [] ∧ (traceRoots roots run).run = { run with
        scopes := run.scopes.declareAll (roots.flatMap fun root => Block.leadingNames root.chain) }
  | [], run, _, _ => ⟨rfl, rfl⟩
  | root :: roots, run, hemitting, h => by
    obtain ⟨hvalue, hrun⟩ :=
      Block.traceChain_of_not_opensGate [] hemitting (h root List.mem_cons_self)
    have hrest : (Block.traceChain [] root.chain run).run.emitting = false := by
      rw [hrun]
      exact hemitting
    obtain ⟨hlines, hrest⟩ := traceRoots_of_not_opensGate hrest
      fun root hroot => h root (List.mem_cons_of_mem _ hroot)
    refine ⟨?_, ?_⟩
    · simp [traceRoots, hvalue, hlines, lineOf]
    · rw [traceRoots, hrest, hrun]
      simp [Scopes.declareAll]

end Root

namespace Tree

variable (tree : Tree)

/-- Global names are met in reading order, since other chains have none in front. -/
theorem flatMap_leadingNames :
    (tree.visitOrder.flatMap fun root => Block.leadingNames root.chain) =
      tree.ordered.flatMap fun root => Block.leadingNames root.chain := by
  have hglobal (roots : List Root) :
      ((roots.filter Root.isGlobal).flatMap fun root => Block.leadingNames root.chain) =
        roots.flatMap fun root => Block.leadingNames root.chain := by
    induction roots with
    | nil => rfl
    | cons root roots ih =>
      cases h : root.isGlobal with
      | true => simp [h, ih]
      | false => simp [h, ih, Root.leadingNames_of_not_isGlobal h]
  have hlocal : ((tree.ordered.filter fun root => !root.isGlobal).flatMap fun root =>
      Block.leadingNames root.chain) = [] := by
    simp +contextual [List.flatMap_eq_nil_iff, Root.leadingNames_of_not_isGlobal]
  rw [visitOrder, List.flatMap_append, hglobal, hlocal, List.append_nil]

theorem trace_of_not_opensGate (scopes : Scopes)
    (h : ∀ site ∈ tree.sites, site.block.kind.opensGate = false) :
    (tree.trace scopes).value = [] ∧ (tree.trace scopes).run.scopes.active =
      { global := .mk .global (Scope.declarable
          (tree.ordered.flatMap fun root => Block.leadingNames root.chain)) [] } := by
  have hchains : ∀ root ∈ tree.visitOrder, ∀ block ∈ root.chain,
      block.kind.opensGate = false := fun root hroot block hblock => by
    obtain ⟨site, hsite, rfl⟩ :=
      List.mem_map.1 ((Block.chain_sublist_sitesOf [] root.chain).subset hblock)
    exact h site (List.mem_flatMap.2 ⟨root, tree.mem_visitOrder.1 hroot, hsite⟩)
  let started : Run := { scopes := scopes.begin }
  have hstarted : started.emitting = false := rfl
  obtain ⟨hlines, hrun⟩ := Root.traceRoots_of_not_opensGate hstarted hchains
  refine ⟨hlines, ?_⟩
  have hbegin : started.scopes =
      ⟨Snapshot.opened {} Scope.globalKey (.empty .global) [], scopes.committed⟩ := rfl
  have hfresh : Frame.Fresh Scope.globalKey [] := trivial
  rw [trace, hrun, flatMap_leadingNames, hbegin, Scopes.declareAll_opened hfresh]
  rfl

/-- Wherever blocks stand : outside of programs and definitions, a block that the walk comes to and
that is no program, definition or global name gives no text and changes nothing, and the walk comes
neither to what is behind it nor to what is inside of it. So if a tree has no program and no
definition, a pass gives no line and no text, and all it commits is the valid ones among the global
names in front of the chains of the top level, in reading order. -/
theorem gated (scopes : Scopes) :
    (∀ visit ∈ tree.visits scopes, visit.run.emitting = false →
      visit.site.block.kind ≠ .main → visit.site.block.kind ≠ .process →
      visit.site.block.kind ≠ .globalName →
        (Block.renderChain (visit.site.block :: visit.site.followers)).run visit.run =
          ("", visit.run) ∧
        (Block.traceChain visit.site.trail (visit.site.block :: visit.site.followers)
          visit.run).visits = [visit]) ∧
    ((∀ site ∈ tree.sites, site.block.kind ≠ .main ∧ site.block.kind ≠ .process) →
      (tree.generate scopes).1 = [] ∧ ∀ canonical,
        (tree.pass scopes canonical).1.text = "" ∧
        (tree.pass scopes canonical).2.committed =
          { global := .mk .global (Scope.declarable
              (tree.ordered.flatMap fun root => Block.leadingNames root.chain)) [] }) := by
  refine ⟨fun visit hvisit hemitting hmain hprocess hglobal => ?_, fun h => ?_⟩
  · have hcounts : visit.run.counts visit.site.block.kind = false := by
      simp [Run.counts, Kind.bypassesGate, hmain, hprocess, hglobal, hemitting]
    have htext : visit.text = "" := by
      rw [(telling_of_mem_visits hvisit).text, Block.traceBlock_of_not_counts hcounts]
    rw [Block.run_renderChain _ visit.site.trail, Block.traceChain_of_not_counts hcounts, ← htext]
    exact ⟨rfl, rfl⟩
  · obtain ⟨hlines, hactive⟩ := tree.trace_of_not_opensGate scopes fun site hsite => by
      simp [Kind.opensGate, h site hsite]
    refine ⟨by rw [generate_eq, hlines], fun canonical => ?_⟩
    simp only [pass, generate_eq, hlines, Scopes.commit, hactive, and_true]
    cases canonical <;> rfl

/-- A chain of global names with a message between them. -/
def interruptedNames : Tree where
  roots := [⟨.mk "x" .globalName [(FieldName.new, "x")] [],
    [.mk "empty" .globalName [] [], sending "x", .mk "y" .globalName [(FieldName.new, "y")] []],
    none⟩]

theorem gated_interruptedNames :
    (∃ visit ∈ interruptedNames.visits {}, visit.run.emitting = false ∧
      visit.site.block.kind = .send ∧ visit.site.next.map Block.id = some "y" ∧
      (Block.renderChain (visit.site.block :: visit.site.followers)).run visit.run =
        ("", visit.run) ∧
      (Block.traceChain visit.site.trail (visit.site.block :: visit.site.followers)
        visit.run).visits = [visit]) ∧
    (∀ site ∈ interruptedNames.sites, site.block.kind ≠ .main ∧ site.block.kind ≠ .process) ∧
      (interruptedNames.pass {} true).1.text = "" ∧
      (interruptedNames.pass {} true).2.committed = { global := .mk .global ["x"] [] } := by
  obtain ⟨visit, hvisit, hemitting, hkind, hnext⟩ : ∃ visit ∈ interruptedNames.visits {},
      visit.run.emitting = false ∧ visit.site.block.kind = .send ∧
        visit.site.next.map Block.id = some "y" := by
    decide +kernel
  have hsites : ∀ site ∈ interruptedNames.sites,
      site.block.kind ≠ .main ∧ site.block.kind ≠ .process := by
    decide +kernel
  obtain ⟨hskipped, hpass⟩ := interruptedNames.gated {}
  obtain ⟨htext, hcommitted⟩ := (hpass hsites).2 true
  refine ⟨⟨visit, hvisit, hemitting, hkind, hnext, ?_⟩, hsites, htext, ?_⟩
  · exact hskipped visit hvisit hemitting (by simp [hkind]) (by simp [hkind]) (by simp [hkind])
  · exact hcommitted.trans (by decide +kernel)

end Tree

end PiBlocks
