import PiBlocks.Proofs.Walk.Visits

/-!
# Definitions of the walk

The walk learns of processes from the definitions it visits and from nothing else : entering and
leaving scopes and declaring names leave the processes of a snapshot as they are. So a process
that is known at the end of a pass has been visited (`Tree.exists_visit_of_hasProcess`).

The text of a definition is empty if the chain inside gives nothing but blanks
(`Block.text_definition`), and then it has no line, though the process is known. Otherwise its
line is in the text of the workspace (`Tree.definition_mem_lines`), since definitions stand at
the top level, each in a chain of its own.
-/

namespace PiBlocks

/-! ## Processes of snapshots -/

theorem Snapshot.processes_updateCurrent (snapshot : Snapshot) (change : Scope → Scope) :
    (snapshot.updateCurrent change).processes = snapshot.processes := by
  rw [updateCurrent]
  split <;> (try split_ifs) <;> rfl

namespace Scopes

variable (scopes : Scopes)

@[simp] theorem processes_enter (id : String) (kind : ScopeKind) :
    (scopes.enter id kind).active.processes = scopes.active.processes := by
  simp only [enter]
  split <;> simp [Snapshot.processes_updateCurrent]

@[simp] theorem processes_leave : scopes.leave.active.processes = scopes.active.processes := by
  rw [leave]
  split_ifs <;> rfl

@[simp] theorem processes_declare (name : String) :
    (scopes.declare name).active.processes = scopes.active.processes := by
  rw [declare]
  split_ifs <;> simp [Snapshot.processes_updateCurrent]

@[simp] theorem processes_declareAll (names : List String) :
    (scopes.declareAll names).active.processes = scopes.active.processes := by
  induction names generalizing scopes with
  | nil => rfl
  | cons name names ih => exact (ih (scopes.declare name)).trans (scopes.processes_declare name)

end Scopes

/-- A visit is one of the definition of a process. -/
def Visit.Defines (visit : Visit) (process : String) : Prop :=
  visit.site.block.kind = .process ∧ visit.site.block.field FieldName.process = process

/-- The processes known after a walk were known before, or visits define them. -/
def Run.Learns (run : Run) (visits : List Visit) (after : Run) : Prop :=
  ∀ process, after.scopes.active.hasProcess process = true →
    run.scopes.active.hasProcess process = true ∨ ∃ visit ∈ visits, visit.Defines process

namespace Run.Learns

variable {run middle after : Run} {visits more : List Visit}

theorem of_eq (h : after.scopes.active.processes = run.scopes.active.processes)
    (visits : List Visit) : run.Learns visits after := by
  intro process hknown
  rw [Snapshot.hasProcess, h] at hknown
  exact .inl hknown

theorem trans (h : run.Learns visits middle) (h' : middle.Learns more after) :
    run.Learns (visits ++ more) after := by
  intro process hknown
  rcases h' process hknown with hmiddle | ⟨visit, hvisit, hdefines⟩
  · exact (h process hmiddle).imp_right fun ⟨visit, hvisit, hdefines⟩ =>
      ⟨visit, List.mem_append_left _ hvisit, hdefines⟩
  · exact .inr ⟨visit, List.mem_append_right _ hvisit, hdefines⟩

end Run.Learns

namespace Plan

variable {plan : Plan} {process : String}

/-- Only the process that a plan signs is learnt when its scope is entered. -/
theorem hasProcess_enter {id : String} {scopes : Scopes}
    (h : (plan.enter id scopes).active.hasProcess process = true) :
    scopes.active.hasProcess process = true ∨ plan.signs = some process := by
  rw [enter] at h
  split at h
  · exact .inl (by simpa [Snapshot.hasProcess] using h)
  · exact .inl (by simpa [Snapshot.hasProcess] using h)
  · next name _ hsigns =>
    by_cases heq : process = name
    · exact .inr (heq ▸ hsigns)
    · refine .inl ?_
      simpa [Snapshot.hasProcess, Scopes.register, OrderedMap.contains,
        OrderedMap.get?_insert_of_ne heq] using h

/-- Definitions sign the process they have in their field. -/
theorem signs_eq_some {fields : OrderedMap String} {slots : List (String × List Block)}
    {kind : Kind} (h : (ofBlock fields slots kind).signs = some process) :
    kind = .process ∧ (OrderedMap.get? FieldName.process fields).getD "" = process := by
  cases kind <;> simp only [ofBlock] at h <;> (try split_ifs at h) <;> simp_all

theorem processes_closed (kind : Kind) (body : String) (run : Run) :
    (plan.closed kind body run).scopes.active.processes = run.scopes.active.processes := by
  simp only [closed]
  split_ifs <;> simp

end Plan

namespace Block

/-! ## Processes of the walk -/

mutual

theorem learns_traceBlock (trail followers) : ∀ (block : Block) (run : Run),
    run.Learns (traceBlock trail followers block run).visits
      (traceBlock trail followers block run).run
  | .mk id kind fields slots, run => by
    by_cases hc : run.counts kind = true
    · have hslot (slot run) :=
        learns_traceSlot (.owner (.mk id kind fields slots) :: trail) slot slots run
      have hitems (items run) :=
        learns_traceItemsIn (.owner (.mk id kind fields slots) :: trail) items slots run
      have hvalues := ((hslot (Plan.ofBlock fields slots kind).first run).trans
        (hslot (Plan.ofBlock fields slots kind).second _)).trans
        (hitems (Plan.ofBlock fields slots kind).items _)
      have hinside (run) := (hslot (Plan.ofBlock fields slots kind).names run).trans
        (hslot (Plan.ofBlock fields slots kind).body _)
      simp only [traceBlock, hc, Bool.not_true, Bool.false_eq_true, if_false]
      intro process hknown
      rw [Snapshot.hasProcess, Plan.processes_closed] at hknown
      -- what is learnt of between the values and the names is the process of the block itself
      rcases hinside _ process hknown with hopened | ⟨visit, hvisit, hdefines⟩
      · rcases Plan.hasProcess_enter hopened with hread | hsigns
        · refine (hvalues process hread).imp_right fun ⟨visit, hvisit, hdefines⟩ => ?_
          exact ⟨visit, by simp at hvisit ⊢; tauto, hdefines⟩
        · exact .inr ⟨_, List.mem_cons_self, Plan.signs_eq_some hsigns⟩
      · exact .inr ⟨visit, by simp at hvisit ⊢; tauto, hdefines⟩
    · simp only [traceBlock, hc, Bool.not_false, if_true]
      exact .of_eq rfl _

theorem learns_traceChain (trail) : ∀ (chain : List Block) (run : Run),
    run.Learns (traceChain trail chain run).visits (traceChain trail chain run).run
  | [], run => by
    rw [traceChain]
    exact .of_eq rfl _
  | .mk id kind fields slots :: rest, run => by
    have hown := learns_traceBlock trail rest (.mk id kind fields slots) run
    rw [traceChain]
    split_ifs
    · exact hown
    · exact hown.trans (learns_traceChain _ rest _)

theorem learns_traceSlot (trail slot) : ∀ (slots : List (String × List Block)) (run : Run),
    run.Learns (traceSlot trail slot slots run).visits (traceSlot trail slot slots run).run
  | [], run => by
    rw [traceSlot]
    exact .of_eq rfl _
  | (name, chain) :: slots, run => by
    rw [traceSlot]
    split_ifs
    · exact learns_traceChain trail chain run
    · exact learns_traceSlot trail slot slots run

theorem learns_traceItems (trail item) : ∀ (chain : List Block) (run : Run),
    run.Learns (traceItems trail item chain run).visits (traceItems trail item chain run).run
  | [], run => by
    rw [traceItems]
    exact .of_eq rfl _
  | .mk id kind fields slots :: rest, run => by
    rw [traceItems]
    exact (learns_traceSlot _ _ slots run).trans (learns_traceItems _ _ rest _)

theorem learns_traceItemsIn (trail items) : ∀ (slots : List (String × List Block)) (run : Run),
    run.Learns (traceItemsIn trail items slots run).visits
      (traceItemsIn trail items slots run).run
  | [], run => by
    rw [traceItemsIn]
    exact .of_eq rfl _
  | (name, chain) :: slots, run => by
    rw [traceItemsIn]
    split_ifs
    · exact learns_traceItems trail _ chain run
    · exact learns_traceItemsIn trail items slots run

end

/-! ## Texts of definitions -/

/-- The visit of a block comes first, and the others are below. -/
theorem eq_or_mem_sitesBelow {trail followers} {block : Block} {run : Run} {visit : Visit}
    (h : visit ∈ (traceBlock trail followers block run).visits) :
    visit = ⟨⟨block, followers, trail⟩, run, (traceBlock trail followers block run).value⟩ ∨
      visit.site ∈ sitesBelow trail block := by
  obtain ⟨id, kind, fields, slots⟩ := block
  rw [sitesBelow]
  by_cases hc : run.counts kind = true
  · simp only [traceBlock, hc, Bool.not_true, Bool.false_eq_true, if_false, List.mem_cons,
      List.mem_append] at h ⊢
    refine h.imp_right ?_
    rintro ((((h | h) | h) | h) | h)
    all_goals
      first
      | exact (telling_traceSlot _ _ slots _ visit h).site
      | exact (telling_traceItemsIn _ _ slots _ visit h).site
  · simp only [traceBlock, hc, Bool.not_false, if_true, List.mem_singleton] at h ⊢
    exact .inl h

end Block

/-- The text of the chain inside of the block. -/
def Visit.bodyText (visit : Visit) : String :=
  (visit.site.block.walkInside visit.site.trail visit.run).value

theorem Block.text_definition {sites : List Site} {visits : List Visit} {visit : Visit}
    (h : Telling sites visits visit) (hkind : visit.site.block.kind = .process) :
    visit.text = definitionText (visit.site.block.field FieldName.process)
      (namesIn FieldName.new (visit.site.block.chain SlotName.params)) visit.bodyText := by
  obtain ⟨⟨⟨id, kind, fields, slots⟩, followers, trail⟩, run, text⟩ := visit
  obtain rfl : kind = .process := hkind
  have hcounts : run.counts .process = true := rfl
  have hbody (run) : traceSlot (.owner (.mk id .process fields slots) :: trail)
      (Plan.ofBlock fields slots .process).body slots run =
        traceChain _ (Block.mk id .process fields slots).body run :=
    traceSlot_body _ (.mk id .process fields slots) run
  rw [h.text, Visit.bodyText, walkInside]
  simp only [traceBlock, hcounts, hbody]
  simp [Plan.ofBlock, Parts.ownText, start, plan, newNames, Scopes.declareAll, field_mk, chain_mk,
    Plan.namesOf]

theorem Block.definitionText_ne_empty_iff {name body : String} {params : List String} :
    definitionText name params body ≠ "" ↔ name ≠ "" ∧ Text.isBlank body = false := by
  rw [definitionText]
  split_ifs with hnothing
  · simp only [Bool.or_eq_true, String.isEmpty_iff] at hnothing
    simpa [or_iff_not_imp_left] using hnothing
  all_goals simp_all

/-! ## Lines of definitions -/

namespace Root

theorem learns_traceRoots : ∀ (roots : List Root) (run : Run),
    run.Learns (traceRoots roots run).visits (traceRoots roots run).run
  | [], _ => .of_eq rfl _
  | root :: roots, run =>
    (Block.learns_traceChain [] root.chain run).trans (learns_traceRoots roots _)

theorem text_ne_empty_of_mem_lines {line : Line} : ∀ {roots : List Root} {run : Run},
    line ∈ (traceRoots roots run).value → line.text ≠ ""
  | [], run, h => by simp [traceRoots] at h
  | root :: roots, run, h => by
    rcases List.mem_append.1 h with h | h
    · by_cases hempty : (Block.traceChain [] root.chain run).value = ""
      · simp [lineOf, hempty] at h
      · rw [lineOf, if_neg (by simpa using hempty), List.mem_singleton] at h
        rw [h]
        exact hempty
    · exact text_ne_empty_of_mem_lines h

/-- A definition that has text has it alone in the line of its chain. -/
theorem definition_mem_lines : ∀ {roots : List Root} {run : Run},
    (∀ root ∈ roots, root.wellPlaced = true) → ∀ visit ∈ (traceRoots roots run).visits,
      visit.site.block.kind = .process → visit.text ≠ "" →
        (⟨visit.text, .definition⟩ : Line) ∈ (traceRoots roots run).value
  | [], run, _, visit, h, _, _ => by simp [traceRoots] at h
  | root :: roots, run, placed, visit, h, hkind, htext => by
    have hroot := placed root List.mem_cons_self
    rw [traceRoots]
    rcases List.mem_append.1 h with h | h
    · refine List.mem_append_left _ ?_
      have hopens : visit.site.block.kind.opensGate = true := by simp [hkind, Kind.opensGate]
      have hgate := opensGate_head hroot (Block.telling_traceChain [] root.chain run visit h).site
        hopens
      have hchain := chain_of_opensGate hroot hgate
      rw [hchain, Block.traceChain_singleton] at h
      rcases Block.eq_or_mem_sitesBelow h with rfl | hbelow
      · have hkind : root.head.kind = .process := hkind
        have htext : (Block.traceBlock [] [] root.head run).value ≠ "" := htext
        rw [hchain, Block.value_traceChain_singleton (Block.counts_of_opensGate _ hgate)]
        simp [lineOf, hkind, htext]
      · rw [Block.opensGate_of_mem_sitesBelow (of_wellPlaced hroot _ List.mem_cons_self) hbelow]
          at hopens
        cases hopens
    · exact List.mem_append_right _ (definition_mem_lines
        (fun root hr => placed root (List.mem_cons_of_mem _ hr)) visit h hkind htext)

end Root

/-- A definition of a process has a line in the text. -/
def Tree.HasLineOf (tree : Tree) (scopes : Scopes) (process : String) : Prop :=
  ∃ visit ∈ tree.visits scopes, visit.Defines process ∧
    (⟨visit.text, .definition⟩ : Line) ∈ (tree.generate scopes).1

namespace Tree

variable {tree : Tree} {scopes : Scopes}

theorem definition_mem_lines (placed : tree.wellPlaced = true) {visit : Visit}
    (h : visit ∈ tree.visits scopes) (hkind : visit.site.block.kind = .process)
    (htext : visit.text ≠ "") :
    (⟨visit.text, .definition⟩ : Line) ∈ (tree.generate scopes).1 := by
  rw [generate_eq]
  exact Root.definition_mem_lines (fun root => wellPlaced_of_mem placed) visit h hkind htext

theorem text_ne_empty_of_mem_lines {line : Line} (h : line ∈ (tree.generate scopes).1) :
    line.text ≠ "" := by
  rw [generate_eq] at h
  exact Root.text_ne_empty_of_mem_lines h

/-- A process has a line if and only if the chain inside of a definition gives more than
blanks. -/
theorem hasLineOf_iff (placed : tree.wellPlaced = true) {process : String}
    (hprocess : process ≠ "") : tree.HasLineOf scopes process ↔
      ∃ visit ∈ tree.visits scopes, visit.Defines process ∧
        Text.isBlank visit.bodyText = false := by
  refine exists_congr fun visit => and_congr_right fun h => and_congr_right fun hdefines => ?_
  obtain ⟨hkind, rfl⟩ := hdefines
  have htext := Block.text_definition (telling_of_mem_visits h) hkind
  rw [← and_iff_right (b := Text.isBlank visit.bodyText = false) hprocess,
    ← Block.definitionText_ne_empty_iff, ← htext]
  exact ⟨text_ne_empty_of_mem_lines, definition_mem_lines placed h hkind⟩

/-- A process that is known at the end of a pass has been visited. -/
theorem exists_visit_of_hasProcess {canonical : Bool} {process : String}
    (h : (tree.pass scopes canonical).2.committed.hasProcess process = true) :
    ∃ visit ∈ tree.visits scopes, visit.Defines process := by
  simp only [pass, generate_eq] at h
  rcases Root.learns_traceRoots tree.visitOrder _ process h with hnone | hvisit
  · cases hnone
  · exact hvisit

end Tree

end PiBlocks
