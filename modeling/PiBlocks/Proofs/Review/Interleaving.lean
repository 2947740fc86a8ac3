import PiBlocks.Proofs.Review.Agreement
import PiBlocks.Proofs.Walk.Alone
import PiBlocks.Proofs.Workspace.Rebuild

/-!
# Programs and definitions that stand apart

Trees that consist of the same programs and the same definitions, however these are mixed with one
another and with chains of global names, give the same outcome if the same names are global
(`Tree.same_of_interleaves`). Each program and definition has the line it has by itself among the
global names, so the text with definitions first is one and the same. The scopes of the top level
are the same under every key, though their order is not, so the check finds the same names ; and
the processes come from the definitions alone.
-/

namespace PiBlocks

open Block

/-! ## Lines of a kind -/

/-- The heads of the chains of the top level that are of a kind, in reading order. -/
def Tree.headsOf (tree : Tree) (kind : Kind) : List Block :=
  (tree.ordered.map Root.head).filter fun block => block.kind = kind

/-- The lines that such chains give in a pass, each with the head of its chain. -/
def Tree.linesOf (tree : Tree) (scopes : Scopes) (kind : Kind) : List (Block × List Line) :=
  ((tree.rootLines scopes).filter fun entry => entry.1.head.kind = kind).map
    fun entry => (entry.1.head, entry.2)

/-- What such lines are made from. -/
def LineKind.head : LineKind → Kind
  | .definition => .process
  | .program => .main

theorem Block.of_mem_lineAmong {names : List String} {block : Block} {line : Line}
    (h : line ∈ block.lineAmong names) :
    line.text ≠ "" ∧ ∀ kind, line.kind = kind ↔ block.kind = LineKind.head kind := by
  rw [lineAmong] at h
  split_ifs at h with hgate
  · obtain ⟨htext, rfl⟩ := Root.eq_of_mem_lineOf h
    simp only [Kind.opensGate, Bool.or_eq_true, decide_eq_true_eq] at hgate
    refine ⟨htext, fun kind => ?_⟩
    rcases hgate with hkind | hkind <;> cases kind <;> simp [hkind, LineKind.head]
  · cases h

theorem Block.textsOf_lineAmong (names : List String) (block : Block) (kind : LineKind) :
    Line.textsOf kind (block.lineAmong names) =
      if block.kind = kind.head then (block.lineAmong names).map Line.text else [] := by
  rw [Line.textsOf]
  split_ifs with hkind
  · rw [List.filter_eq_self.2 fun line h => ?_]
    obtain ⟨htext, hline⟩ := of_mem_lineAmong h
    simp [htext, (hline kind).2 hkind]
  · rw [List.filter_eq_nil_iff.2 fun line h => ?_, List.map_nil]
    simp [((of_mem_lineAmong h).2 kind).not.2 hkind]

theorem Line.textsOf_flatMap {α : Type} (kind : LineKind) (entries : List α)
    (lines : α → List Line) : textsOf kind (entries.flatMap lines) =
      entries.flatMap fun entry => textsOf kind (lines entry) := by
  simp only [textsOf, List.filter_flatMap, List.map_flatMap]

theorem Line.order_congr {lines others : List Line}
    (h : ∀ kind, textsOf kind lines = textsOf kind others) : order lines = order others := by
  rw [order, order, h .definition, h .program]

namespace Tree

variable {tree : Tree} {kind : Kind}

theorem filter_visitOrder_head (hgate : kind.opensGate = true) :
    (tree.visitOrder.filter fun root => decide (root.head.kind = kind)).map Root.head =
      tree.headsOf kind := by
  have hlocal : ∀ root : Root, decide (root.head.kind = kind) = true → root.isGlobal = false :=
    fun root h => isGlobal_of_opensGate (of_decide_eq_true h ▸ hgate)
  rw [tree.filter_visitOrder hlocal, headsOf, List.filter_map]
  rfl

/-- Programs and definitions give the lines they have by themselves, each in its turn. -/
theorem linesOf_eq (placed : tree.wellPlaced = true) (distinct : (tree.ids.map Scope.key).Nodup)
    (scopes : Scopes) (hgate : kind.opensGate = true) : tree.linesOf scopes kind =
      (tree.headsOf kind).map fun head => (head, head.lineAmong tree.globalNames) := by
  rw [linesOf, rootLines_eq placed distinct, List.filter_map, List.map_map,
    ← filter_visitOrder_head hgate, List.map_map]
  rfl

/-- The texts of a kind are those of the programs, or of the definitions. -/
theorem textsOf_generate (placed : tree.wellPlaced = true)
    (distinct : (tree.ids.map Scope.key).Nodup) (scopes : Scopes) (kind : LineKind) :
    Line.textsOf kind (tree.generate scopes).1 =
      ((tree.linesOf scopes kind.head).flatMap Prod.snd).map Line.text := by
  have hgate : kind.head.opensGate = true := by cases kind <;> rfl
  have hfilter (roots : List Root) (lines : Block → List String) :
      (roots.flatMap fun root => if root.head.kind = kind.head then lines root.head else []) =
        ((roots.filter fun root => root.head.kind = kind.head).map Root.head).flatMap lines := by
    induction roots with
    | nil => rfl
    | cons root roots ih => by_cases h : root.head.kind = kind.head <;> simp [h, ih]
  rw [generate_lines, rootLines_eq placed distinct, List.flatMap_map, Line.textsOf_flatMap,
    linesOf_eq placed distinct scopes hgate, List.flatMap_map, List.map_flatMap,
    ← filter_visitOrder_head hgate, ← hfilter]
  simp only [textsOf_lineAmong]

theorem exists_root_of_mem_headsOf {head : Block} (h : head ∈ tree.headsOf kind) :
    ∃ root ∈ tree.roots, root.head = head ∧ head.kind = kind := by
  obtain ⟨hmem, hkind⟩ := List.mem_filter.1 h
  obtain ⟨root, hroot, rfl⟩ := List.mem_map.1 hmem
  exact ⟨root, tree.mem_ordered.1 hroot, rfl, of_decide_eq_true hkind⟩

end Tree

/-! ## Problems -/

/-- What is wrong with a block hangs on the names found where it stands and on the processes. -/
theorem Site.problem_congr (site : Site) {snapshot other : Snapshot}
    (hnames : ∀ name ≠ unresolved,
      name ∈ site.visibleNames snapshot ↔ name ∈ site.visibleNames other)
    (hprocesses : snapshot.processes = other.processes) :
    site.problem snapshot = site.problem other := by
  have hreference : site.referenceProblem snapshot = site.referenceProblem other := by
    rw [referenceProblem, referenceProblem]
    split_ifs with hnothing hvisible hvisible' hvisible' <;> try rfl
    all_goals
      simp only [Bool.or_eq_true, decide_eq_true_eq, not_or] at hnothing
      simp [hnames _ hnothing.2] at hvisible hvisible'
      contradiction
  have hcall : site.callProblem snapshot = site.callProblem other := by
    rw [callProblem, callProblem, Snapshot.hasProcess, Snapshot.params, hprocesses]
    rfl
  cases hkind : site.block.kind <;> simp only [problem, hkind, hreference, hcall]

/-- The warnings about the block with an id. -/
def Generation.warningsOf (generation : Generation) (id : String) : List Warning :=
  generation.warnings.filter fun warning => warning.block = id

/-- The warning about a block, if there is one, is what is wrong with it. -/
theorem Tree.filter_warnings {tree : Tree} (distinct : tree.ids.Nodup) {site : Site}
    (hsite : site ∈ tree.sites) (snapshot : Snapshot) :
    ((tree.warnings snapshot).filter fun warning => warning.block = site.block.id) =
      ((site.problem snapshot).map fun problem => ⟨problem, site.block.id⟩).toList := by
  obtain ⟨front, back, hsites⟩ := List.append_of_mem hsite
  rw [ids, hsites, List.map_append, List.map_cons] at distinct
  have hother : ∀ other ∈ front ++ back, other.block.id ≠ site.block.id := by
    have hperm := (List.perm_middle (a := site.block.id)).nodup_iff.1 distinct
    rw [← List.map_append] at hperm
    exact fun other ho heq => (List.nodup_cons.1 hperm).1 (heq ▸ List.mem_map_of_mem ho)
  have hnone (sites : List Site) (h : ∀ other ∈ sites, other.block.id ≠ site.block.id) :
      ((sites.filterMap fun other => (other.problem snapshot).map
        fun problem => (⟨problem, other.block.id⟩ : Warning)).filter
          fun warning => warning.block = site.block.id) = [] := by
    simp only [List.filter_eq_nil_iff, List.mem_filterMap, Option.map_eq_some_iff,
      decide_eq_true_eq]
    rintro _ ⟨other, ho, problem, -, rfl⟩
    exact h other ho
  rw [warnings, hsites, List.filterMap_append, List.filter_append, List.filterMap_cons,
    hnone front fun other ho => hother other (List.mem_append_left _ ho), List.nil_append]
  have hback := hnone back fun other ho => hother other (List.mem_append_right _ ho)
  cases site.problem snapshot <;> simp [hback]

/-! ## Interleaving -/

/-- Two trees have the same definitions, the same programs and the same global names. The first two
come in the same order each. -/
structure Tree.Interleaves (tree other : Tree) : Prop where
  definitions : tree.headsOf .process = other.headsOf .process
  programs : tree.headsOf .main = other.headsOf .main
  names : ∀ name, name ∈ tree.globalNames ↔ name ∈ other.globalNames

namespace Tree

variable {tree other : Tree}

/-- The scopes of the top level are those of the definitions and of the programs. -/
theorem flatMap_scopes_perm (tree : Tree) : (tree.ordered.flatMap Root.scopes).Perm
    ((tree.headsOf .process ++ tree.headsOf .main).flatMap scopesOf) := by
  have hheads : ((tree.ordered.filter fun root => root.head.kind.opensGate).map Root.head).Perm
      (tree.headsOf .process ++ tree.headsOf .main) := by
    refine (List.filter_append_perm (fun block => decide (block.kind = .process)) _).symm.trans ?_
    have hfilter (p : Kind → Bool) (kind : Kind)
        (h : ∀ other, (p other && other.opensGate) = decide (other = kind)) :
        ((tree.ordered.filter fun root => root.head.kind.opensGate).map Root.head).filter
          (fun block => p block.kind) = tree.headsOf kind := by
      simp [headsOf, List.filter_map, List.filter_filter, Function.comp_def, h]
    rw [hfilter (fun kind => decide (kind = .process)) .process fun kind => by
        cases kind <;> rfl,
      hfilter (fun kind => !decide (kind = .process)) .main fun kind => by cases kind <;> rfl]
  have hscopes := hheads.flatMap_right scopesOf
  rw [List.flatMap_map] at hscopes
  rwa [flatMap_scopes]

theorem nodup_keys_snapshot (distinct : (tree.ids.map Scope.key).Nodup) :
    (OrderedMap.keys (tree.ordered.flatMap Root.scopes)).Nodup :=
  (tree.nodup_ordered distinct).sublist (Root.keys_flatMap_scopes_sublist tree.ordered)

theorem definitions_eq (tree : Tree) :
    tree.definitions = (tree.headsOf .process).filter isDefinition := by
  rw [definitions, headsOf, List.filter_filter]
  congr 1
  funext block
  simp only [isDefinition]
  cases decide (block.kind = .process) <;> simp

namespace Interleaves

variable (h : tree.Interleaves other)
include h

theorem headsOf_eq {kind : Kind} (hgate : kind.opensGate = true) :
    tree.headsOf kind = other.headsOf kind := by
  simp only [Kind.opensGate, Bool.or_eq_true, decide_eq_true_eq] at hgate
  rcases hgate with rfl | rfl
  · exact h.programs
  · exact h.definitions

theorem processes_eq : tree.snapshot.processes = other.snapshot.processes := by
  rw [snapshot, snapshot, definitions_eq, definitions_eq, h.definitions]

theorem linesOf_eq (placed : tree.wellPlaced = true) (placed' : other.wellPlaced = true)
    (distinct : (tree.ids.map Scope.key).Nodup) (distinct' : (other.ids.map Scope.key).Nodup)
    (scopes scopes' : Scopes) {kind : Kind} (hgate : kind.opensGate = true) :
    tree.linesOf scopes kind = other.linesOf scopes' kind := by
  rw [Tree.linesOf_eq placed distinct scopes hgate, Tree.linesOf_eq placed' distinct' scopes' hgate,
    ← h.headsOf_eq hgate]
  refine List.map_congr_left fun head hhead => ?_
  obtain ⟨root, hroot, rfl, -⟩ := exists_root_of_mem_headsOf hhead
  have hkeys : root.head.ownKeys.Nodup := by
    have hchain := (List.nodup_flatMap.1 (tree.nodup_visitOrder distinct)).1 root
      (tree.mem_visitOrder.2 hroot)
    rw [Root.chain, keysOf_cons] at hchain
    exact hchain.sublist (List.sublist_append_left _ _)
  have hplaced := Root.of_wellPlaced (List.all_eq_true.1 placed root hroot) _ List.mem_cons_self
  rw [lineAmong_congr hplaced hkeys h.names]

theorem visibleNames_iff (distinct : (tree.ids.map Scope.key).Nodup) (site : Site) {name : String}
    (hname : name ≠ unresolved) :
    name ∈ site.visibleNames tree.snapshot ↔ name ∈ site.visibleNames other.snapshot := by
  have hperm : (tree.ordered.flatMap Root.scopes).Perm (other.ordered.flatMap Root.scopes) := by
    have hscopes := tree.flatMap_scopes_perm
    rw [h.definitions, h.programs] at hscopes
    exact hscopes.trans other.flatMap_scopes_perm.symm
  have hchild (key : String) :
      tree.snapshot.global.child? key = other.snapshot.global.child? key :=
    OrderedMap.get?_eq_of_perm hperm (nodup_keys_snapshot distinct) key
  have hnames : name ∈ tree.snapshot.global.names ↔ name ∈ other.snapshot.global.names :=
    h.names name
  rw [Site.visibleNames, Site.visibleNames, List.mem_filter, List.mem_filter]
  exact and_congr_left fun _ => Scope.mem_namesAlong_congr hname hnames hchild _

end Interleaves

/-- Trees of the same definitions, programs and global names, however these are mixed, give each
definition and program the same line, have the same text with definitions first and the same
processes, and warn of the same in the definitions and programs. -/
theorem same_of_interleaves (placed : tree.wellPlaced = true) (placed' : other.wellPlaced = true)
    (distinct : (tree.ids.map Scope.key).Nodup) (distinct' : (other.ids.map Scope.key).Nodup)
    (h : tree.Interleaves other) (scopes scopes' : Scopes) :
    (∀ kind, kind.opensGate = true → tree.linesOf scopes kind = other.linesOf scopes' kind) ∧
      (tree.pass scopes true).1.text = (other.pass scopes' true).1.text ∧
      ∀ canonical canonical',
        (tree.pass scopes canonical).2.committed.processes =
          (other.pass scopes' canonical').2.committed.processes ∧
        ∀ kind, kind.opensGate = true → ∀ head ∈ tree.headsOf kind, ∀ site ∈ sitesOf [] [head],
          (tree.pass scopes canonical).1.warningsOf site.block.id =
            (other.pass scopes' canonical').1.warningsOf site.block.id := by
  have hlines {kind : Kind} (hgate : kind.opensGate = true) :=
    h.linesOf_eq placed placed' distinct distinct' scopes scopes' hgate
  refine ⟨fun kind hgate => hlines hgate, ?_, fun canonical canonical' => ⟨?_, ?_⟩⟩
  · have htext (tree : Tree) (scopes : Scopes) :
        (tree.pass scopes true).1.text = Line.order (tree.generate scopes).1 := rfl
    rw [htext, htext]
    refine Line.order_congr fun kind => ?_
    rw [textsOf_generate placed distinct, textsOf_generate placed' distinct',
      hlines (by cases kind <;> rfl)]
  · rw [committed_pass tree placed distinct, committed_pass other placed' distinct',
      h.processes_eq]
  · intro kind hgate head hhead site hsite
    have hmem {tree : Tree} (placed : tree.wellPlaced = true) (hhead : head ∈ tree.headsOf kind) :
        site ∈ tree.sites := by
      obtain ⟨root, hroot, rfl, hkind⟩ := exists_root_of_mem_headsOf hhead
      have hchain := Root.chain_of_opensGate (List.all_eq_true.1 placed root hroot)
        (hkind ▸ hgate)
      exact List.mem_flatMap.2 ⟨root, hroot, hchain ▸ hsite⟩
    have hproblem : site.problem tree.snapshot = site.problem other.snapshot :=
      site.problem_congr (fun name hname => h.visibleNames_iff distinct site hname) h.processes_eq
    rw [Generation.warningsOf, Generation.warningsOf, warnings_pass tree placed distinct,
      warnings_pass other placed' distinct',
      filter_warnings (distinct.of_map _) (hmem placed hhead),
      filter_warnings (distinct'.of_map _) (hmem placed' (h.headsOf_eq hgate ▸ hhead)), hproblem]

/-- Chains whose places are unknown come in the order of the file. -/
theorem ordered_of_place (h : ∀ root ∈ tree.roots, root.place = none) :
    tree.ordered = tree.roots := by
  refine Root.foldl_of_sorted tree.roots [] ?_
  refine List.pairwise_iff_forall_sublist.2 fun {root other} hsublist => ?_
  have hroot := h root (hsublist.subset List.mem_cons_self)
  have hother := h other (hsublist.subset (List.mem_cons_of_mem _ List.mem_cons_self))
  simp [Root.key, hroot, hother]

/-- A program that calls a process. -/
def caller : Block :=
  .mk "main" .main [] [(SlotName.main, [.mk "call" .call [(FieldName.processName, "P")] []])]

/-- A global name, a definition that sends it on itself, and a program that calls that. -/
def apart : Tree where
  roots := [
    ⟨.mk "global" .globalName [(FieldName.new, "x")] [], [], none⟩,
    ⟨.mk "definition" .process [(FieldName.process, "P")] [(SlotName.body, [sending "x"])],
      [], none⟩,
    ⟨caller, [], none⟩]

/-- The same chains the other way round. -/
def turned : Tree := { roots := apart.roots.reverse }

theorem same_of_interleaves_turned : apart.wellPlaced = true ∧ turned.wellPlaced = true ∧
    (apart.ids.map Scope.key).Nodup ∧ (turned.ids.map Scope.key).Nodup ∧
    apart.Interleaves turned ∧ apart.linesOf {} .process = turned.linesOf {} .process ∧
    apart.linesOf {} .main = turned.linesOf {} .main ∧
    (apart.pass {} true).1.text = (turned.pass {} true).1.text ∧
    (apart.pass {} true).2.committed.processes = (turned.pass {} true).2.committed.processes ∧
    caller ∈ apart.headsOf .main ∧
    (apart.pass {} true).1.warningsOf "call" = (turned.pass {} true).1.warningsOf "call" := by
  have placed : apart.wellPlaced = true := by decide
  have placed' : turned.wellPlaced = true := by decide
  have distinct : (apart.ids.map Scope.key).Nodup := by decide +kernel
  have distinct' : (turned.ids.map Scope.key).Nodup := by
    have hsites : turned.sites.Perm apart.sites := apart.roots.reverse_perm.flatMap_right _
    exact ((hsites.map _).map _).nodup_iff.2 distinct
  have hordered : apart.ordered = apart.roots := ordered_of_place (by simp [apart])
  have hordered' : turned.ordered = turned.roots := ordered_of_place (by simp [turned, apart])
  have h : apart.Interleaves turned := by
    constructor
    · rw [headsOf, headsOf, hordered, hordered']
      rfl
    · rw [headsOf, headsOf, hordered, hordered']
      rfl
    · rw [globalNames, globalNames, hordered, hordered']
      exact fun _ => .rfl
  obtain ⟨hlines, htext, hcommitted⟩ :=
    same_of_interleaves placed placed' distinct distinct' h {} {}
  obtain ⟨hprocesses, hwarnings⟩ := hcommitted true true
  have hhead : caller ∈ apart.headsOf .main := by
    rw [headsOf, hordered]
    exact List.mem_singleton_self _
  have hcall := hwarnings .main rfl caller hhead
    ⟨.mk "call" .call [(FieldName.processName, "P")] [], [], [.owner caller]⟩
    (by simp [sitesOf, sitesBelow, sitesInSlots, caller])
  exact ⟨placed, placed', distinct, distinct', h, hlines .process rfl, hlines .main rfl, htext,
    hprocesses, hhead, hcall⟩

end Tree

end PiBlocks
