import PiBlocks.Proofs.Scope.Kinds
import PiBlocks.Proofs.Walk.Definitions
import PiBlocks.Proofs.Walk.Values

/-!
# Texts along chains

The texts of the blocks of a chain (`Block.ownTexts`) are put together to the text of the chain
(`Block.value_traceChain`). A visit of a term leaves the counts of branches as they were, but for a
branch with text, which counts once (`Block.passed`) ; so the count that a fork ends with is the
number of its branches that have text (`Block.parts_body`). The kinds of the open scopes are the
same after a visit as before. None of this asks whether keys are distinct.
-/

namespace PiBlocks

/-- The counts of branches once some more of the innermost fork have text. -/
def Run.counted (more : Nat) : List Nat → List Nat
  | [] => []
  | count :: outer => (count + more) :: outer

@[simp] theorem Run.counted_zero (branches : List Nat) : counted 0 branches = branches := by
  cases branches <;> rfl

theorem Run.counted_counted (more less : Nat) (branches : List Nat) :
    counted less (counted more branches) = counted (more + less) branches := by
  cases branches <;> simp [counted, Nat.add_assoc]

namespace Block

/-- The own texts of the blocks of a chain. -/
def ownTexts (trail : List Step) : List Block → Run → List String
  | [], _ => []
  | block :: rest, run =>
    (traceBlock trail rest block run).value ::
      ownTexts (.previous block :: trail) rest (traceBlock trail rest block run).run

theorem length_ownTexts : ∀ (trail : List Step) (chain : List Block) (run : Run),
    (ownTexts trail chain run).length = chain.length
  | _, [], _ => rfl
  | _, _ :: rest, _ => congrArg Nat.succ (length_ownTexts _ rest _)

/-- The texts of a chain put together. -/
def joined : List Kind → List String → String
  | kind :: kinds, own :: texts => sequence kind kinds.head? own (joined kinds texts)
  | _, _ => ""

/-- One if the block is a branch with text. -/
def branchCount (block : Block) (text : String) : Nat :=
  if block.kind.isBranch && !text.isEmpty then 1 else 0

/-- The number of branches with text in a chain. -/
def branchCounts : List Block → List String → Nat
  | block :: rest, own :: texts => branchCount block own + branchCounts rest texts
  | _, _ => 0

/-- What a visit of a part of the walk leaves as it was : it counts branches, and the kinds of the
open scopes are the same. -/
structure Passed (count : Nat) (run after : Run) : Prop where
  branches : after.branches = Run.counted count run.branches
  around : ∀ kinds, run.scopes.Around kinds → after.scopes.Around kinds

variable {block : Block} {run : Run}

theorem Passed.trans {count more : Nat} {run middle after : Run} (h : Passed count run middle)
    (h' : Passed more middle after) : Passed (count + more) run after :=
  ⟨by rw [h'.branches, h.branches, Run.counted_counted],
    fun kinds hkinds => h'.around kinds (h.around kinds hkinds)⟩

theorem around_start (block : Block) (hterm : block.kind.isTerm = true) {kinds : List ScopeKind}
    (h : run.scopes.Around kinds) :
    (block.start run).scopes.Around (kinds ++ block.scope?.toList) := by
  cases hscope : block.scope? with
  | none => simpa [scopes_start_of_none hterm hscope] using h
  | some kind =>
    refine Scopes.Around.declareAll ?_ _
    change (block.plan.enter block.id ⟨run.scopes.active, run.scopes.committed⟩).Around _
    rw [enter_plan hscope]
    have hsigning : Scopes.Around ⟨run.scopes.active.signing block, run.scopes.committed⟩ kinds := h
    exact (hsigning.enter block.id kind).declareAll _

/-- The scope a block opens is the body of a program or definition if the block is one. -/
theorem isBody_of_scope? {around : ScopeKind} (h : block.scope? = some around) :
    around.isBody = block.kind.opensGate := by
  obtain ⟨id, kind, fields, slots⟩ := block
  cases kind <;> simp only [scope?, Kind.scope?, kind_mk] at h <;> (try split_ifs at h) <;>
    cases h <;> rfl

/-- What a visit of a term leaves as it was. -/
def IsPassed (block : Block) : Prop :=
  ∀ (trail : List Step) (followers : List Block) {run : Run}, block.wellPlaced = true →
    block.kind.isTerm = true → run.counts block.kind = true →
    Passed (branchCount block (traceBlock trail followers block run).value) run
        (traceBlock trail followers block run).run ∧
      (traceBlock trail followers block run).run.emitting = (run.emitting && !block.kind.opensGate)

theorem passed_chain : ∀ {chain : List Block} (trail : List Step) {run : Run},
    (∀ block ∈ chain, IsPassed block) → (∀ block ∈ chain, block.IsInner) →
      run.emitting = true →
      Passed (branchCounts chain (ownTexts trail chain run)) run (traceChain trail chain run).run ∧
        (traceChain trail chain run).run.emitting = true
  | [], trail, run, _, _, hemitting => by
    rw [traceChain]
    exact ⟨⟨(Run.counted_zero _).symm, fun _ h => h⟩, hemitting⟩
  | .mk id kind fields slots :: rest, trail, run, passed, inner, hemitting => by
    obtain ⟨placed, hterm, hgate⟩ := inner _ List.mem_cons_self
    obtain ⟨hown, hstill⟩ := passed _ List.mem_cons_self trail rest placed hterm
      (counts_of_emitting _ hemitting)
    rw [hemitting, hgate] at hstill
    obtain ⟨hrest, hafter⟩ := passed_chain (.previous (.mk id kind fields slots) :: trail)
      (fun block hb => passed block (List.mem_cons_of_mem _ hb))
      (fun block hb => inner block (List.mem_cons_of_mem _ hb)) hstill
    have hcounts := counts_of_emitting kind hstill
    simp only [traceChain, hcounts, Bool.not_true, Bool.false_eq_true, if_false]
    exact ⟨hown.trans hrest, hafter⟩

theorem branchCounts_of_isStatement : ∀ {chain : List Block} (texts : List String),
    (∀ block ∈ chain, block.kind.isStatement = true) → branchCounts chain texts = 0
  | [], _, _ => by rw [branchCounts]; simp
  | _ :: _, [], _ => by rw [branchCounts]; simp
  | block :: rest, own :: texts, h => by
    have hbranch := Kind.not_isBranch_of_isStatement (h block List.mem_cons_self)
    simp [branchCounts, branchCount, hbranch,
      branchCounts_of_isStatement texts fun other ho => h other (List.mem_cons_of_mem _ ho)]

theorem value_of_isBranch (trail followers) (placed : block.wellPlaced = true)
    (hbranch : block.kind.isBranch = true) (hcounts : run.counts block.kind = true) :
    (traceBlock trail followers block run).value =
      if Text.isBlank (block.walkInside trail run).value then ""
      else (block.walkInside trail run).value := by
  have hterm := Kind.isTerm_of_isBranch hbranch
  rw [traceBlock_eq trail followers placed hterm hcounts, ownText, parts]
  revert hbranch
  cases block.kind <;> intro hbranch <;> first | (cases hbranch; done) | rfl

theorem around_finish (trail) (hterm : block.kind.isTerm = true) {kinds : List ScopeKind}
    (hinside : ∀ kinds, (block.start run).scopes.Around kinds →
      (block.walkInside trail run).run.scopes.Around kinds) (h : run.scopes.Around kinds) :
    (block.finish trail run).scopes.Around kinds := by
  have hbody := hinside _ (block.around_start hterm h)
  rw [finish, Plan.closed, plan_scope]
  cases hscope : block.scope? with
  | none => simpa [hscope] using hbody
  | some kind =>
    rw [hscope] at hbody
    simpa using hbody.leave h.ne_nil

theorem branches_finish (trail) (placed : block.wellPlaced = true) {text : String}
    (hbranch : block.kind.isBranch = true → text =
      if Text.isBlank (block.walkInside trail run).value then ""
      else (block.walkInside trail run).value)
    (hinside : (block.walkInside trail run).run.branches = Run.counted
      (branchCounts block.body (ownTexts (.owner block :: trail) block.body (block.start run)))
      (block.start run).branches) :
    (block.finish trail run).branches = Run.counted (branchCount block text) run.branches := by
  rw [finish, Plan.closed]
  cases hfork : block.kind.isFork with
  | true =>
    have hkind := Kind.not_isBranch_of_isFork hfork
    have hcount : branchCount block text = 0 := by simp [branchCount, hkind]
    rw [hcount, Run.counted_zero, hinside, start, Plan.opened, hfork]
    rfl
  | false =>
    have hstatements := branchCounts_of_isStatement
      (ownTexts (.owner block :: trail) block.body (block.start run))
      fun inner => isStatement_of_mem_body placed hfork
    have hsame : (block.walkInside trail run).run.branches = run.branches := by
      rw [hinside, hstatements, Run.counted_zero, start, Plan.opened, hfork]
      simp
    cases hkind : block.kind.isBranch with
    | false => simp [hsame, branchCount, hkind]
    | true =>
      rw [hbranch hkind]
      cases hblank : Text.isBlank (block.walkInside trail run).value with
      | true => simp [hsame, branchCount, hkind]
      | false =>
        have hne := Text.ne_empty_of_not_blank hblank
        have hcount : branchCount block (block.walkInside trail run).value = 1 := by
          simp [branchCount, hkind, hne]
        simp only [hsame, Bool.false_eq_true, if_false, hcount]
        cases run.branches <;> rfl

theorem passed_of_body (inside : ∀ inner ∈ block.body, IsPassed inner) : IsPassed block := by
  intro trail followers run placed hterm hcounts
  have hstart : (block.start run).emitting = true := emitting_opened hterm hcounts
  obtain ⟨hinside, hstill⟩ := passed_chain (.owner block :: trail) inside
    (fun inner => isInner_of_mem_body placed) hstart
  have hstill : (block.walkInside trail run).run.emitting = true := hstill
  have hrun : (traceBlock trail followers block run).run = block.finish trail run :=
    run_traceBlock trail followers placed hterm hcounts
  rw [hrun]
  refine ⟨⟨?_, fun kinds h => around_finish trail hterm hinside.around h⟩, ?_⟩
  · exact branches_finish trail placed
      (fun hbranch => value_of_isBranch trail followers placed hbranch hcounts) hinside.branches
  · have hopen : (run.emitting || block.kind.opensGate) = true := hstart
    simp only [finish, Plan.closed, hstill]
    revert hopen
    cases run.emitting <;> cases block.kind.opensGate <;> simp

/-- A visit of a term counts branches with text, and leaves the rest as it was. -/
theorem passed (block : Block) : IsPassed block :=
  body_induction (fun _ => passed_of_body) block

/-- One block of a chain inside. -/
theorem passed_inner (inner : block.IsInner) (trail followers) (hemitting : run.emitting = true) :
    Passed (branchCount block (traceBlock trail followers block run).value) run
        (traceBlock trail followers block run).run ∧
      (traceBlock trail followers block run).run.emitting = true := by
  obtain ⟨placed, hterm, hgate⟩ := inner
  obtain ⟨hpassed, hstill⟩ := passed block trail followers placed hterm
    (counts_of_emitting _ hemitting)
  exact ⟨hpassed, by rw [hstill, hemitting, hgate]; rfl⟩

/-- The text of a chain is put together from the own texts of its blocks. -/
theorem value_traceChain : ∀ {chain : List Block} (trail : List Step) {run : Run},
    (∀ block ∈ chain, block.IsInner) → run.emitting = true →
      (traceChain trail chain run).value = joined (chain.map kind) (ownTexts trail chain run)
  | [], trail, run, _, _ => by
    rw [traceChain]
    rfl
  | .mk id kind fields slots :: rest, trail, run, inner, hemitting => by
    obtain ⟨-, hstill⟩ := passed_inner (inner _ List.mem_cons_self) trail rest hemitting
    have hrest := value_traceChain (.previous (.mk id kind fields slots) :: trail)
      (fun block hb => inner block (List.mem_cons_of_mem _ hb)) hstill
    simp only [traceChain, counts_of_emitting kind hstill, Bool.not_true, Bool.false_eq_true,
      if_false, hrest, ownTexts, List.map_cons, joined, List.head?_map]
    rfl

/-- The own texts of the chain inside. -/
def bodyTexts (trail : List Step) (block : Block) (run : Run) : List String :=
  ownTexts (.owner block :: trail) block.body (block.start run)

/-- The text of the chain inside is put together from its own texts, and a fork ends with the count
of its branches that have text. -/
theorem parts_body (trail) (placed : block.wellPlaced = true) (hterm : block.kind.isTerm = true)
    (hcounts : run.counts block.kind = true) :
    (block.parts trail run).body = joined (block.body.map kind) (block.bodyTexts trail run) ∧
      (block.kind.isFork = true → (block.parts trail run).count =
        branchCounts block.body (block.bodyTexts trail run)) := by
  have hstart : (block.start run).emitting = true := emitting_opened hterm hcounts
  have inner : ∀ inner ∈ block.body, inner.IsInner := fun inner => isInner_of_mem_body placed
  refine ⟨value_traceChain _ inner hstart, fun hfork => ?_⟩
  obtain ⟨hinside, -⟩ := passed_chain (.owner block :: trail) (fun inner _ => passed inner) inner
    hstart
  have hbranches : (block.walkInside trail run).run.branches = _ := hinside.branches
  have hbegin : (block.start run).branches = 0 :: run.branches := by
    simp [start, Plan.opened, hfork]
  rw [parts, hbranches, hbegin]
  exact Nat.zero_add _

theorem value_names : ∀ (trail) (chain : List Block) (run : Run),
    (∀ block ∈ chain, block.kind.isName = true) → (traceChain trail chain run).value = ""
  | trail, [], run, _ => by simp [traceChain]
  | trail, .mk id kind fields slots :: rest, run, hname => by
    have hkind : kind.isName = true := hname _ List.mem_cons_self
    have hown : (traceBlock trail rest (.mk id kind fields slots) run).value = "" := by
      by_cases hc : run.counts kind = true
      · revert hkind
        cases kind <;> simp_all [Kind.isName, traceBlock, Parts.ownText]
      · simp_all [traceBlock]
    have hrest := value_names (.previous (.mk id kind fields slots) :: trail) rest
      (traceBlock trail rest (.mk id kind fields slots) run).run
      fun block hb => hname block (List.mem_cons_of_mem _ hb)
    rw [traceChain]
    split_ifs
    · rfl
    · simp [hown, hrest, sequence]

end Block

/-! ## The top level -/

namespace Root

variable {root : Root} {run : Run}

/-- Outside of programs and definitions there is no text. -/
theorem value_of_not_opensGate (placed : root.wellPlaced = true)
    (hgate : root.head.kind.opensGate = false) (hemitting : run.emitting = false) :
    (Block.traceChain [] root.chain run).value = "" := by
  by_cases hglobal : root.isGlobal = true
  · have hkinds := kind_of_isGlobal placed hglobal
    exact Block.value_names [] root.chain run fun block hb => by simp [hkinds block hb, Kind.isName]
  · rw [chain, Block.traceChain_of_not_counts
      (not_counts_head (by simpa using hglobal) hgate hemitting)]

/-- A program or definition is alone in its chain, and the text of the chain is its own. -/
theorem value_of_opensGate (placed : root.wellPlaced = true)
    (hgate : root.head.kind.opensGate = true) :
    (Block.traceChain [] root.chain run).value = (Block.traceBlock [] [] root.head run).value := by
  rw [chain_of_opensGate placed hgate,
    Block.value_traceChain_singleton (Block.counts_of_opensGate _ hgate)]

/-- A chain of the top level leaves the kinds of the open scopes as they were. -/
theorem around_chain (placed : root.wellPlaced = true) (hemitting : run.emitting = false)
    {kinds : List ScopeKind} (haround : run.scopes.Around kinds) :
    (Block.traceChain [] root.chain run).run.scopes.Around kinds ∧
      (Block.traceChain [] root.chain run).run.emitting = false := by
  by_cases hgate : root.head.kind.opensGate = true
  · have hterm := Kind.isTerm_of_opensGate hgate
    obtain ⟨hpassed, hstill⟩ := Block.passed root.head [] []
      (of_wellPlaced placed _ List.mem_cons_self) hterm (Block.counts_of_opensGate run hgate)
    rw [chain_of_opensGate placed hgate, Block.traceChain_singleton]
    exact ⟨hpassed.around _ haround, by rw [hstill, hemitting]; rfl⟩
  by_cases hglobal : root.isGlobal = true
  · have hkinds := kind_of_isGlobal placed hglobal
    rw [Block.run_names [] _ _ fun block hb => by
      simp [hkinds block hb, Kind.isName, Run.counts, Kind.bypassesGate]]
    exact ⟨haround.declareAll _, hemitting⟩
  · rw [chain, Block.traceChain_of_not_counts (not_counts_head (by simpa using hglobal)
      (by simpa using hgate) hemitting)]
    exact ⟨haround, hemitting⟩

theorem eq_of_mem_lineOf {text : String} {line : Line}
    (h : line ∈ root.lineOf text) : text ≠ "" ∧
      line = ⟨text, if root.head.kind = .process then .definition else .program⟩ := by
  by_cases htext : text = ""
  · simp [lineOf, htext] at h
  · exact ⟨htext, by simpa [lineOf, htext] using h⟩

end Root

end PiBlocks
