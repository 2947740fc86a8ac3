import PiBlocks.Proofs.Walk.Operations

/-!
# What is opened is closed

Wherever blocks stand, well-placed or not, each part of the walk leaves the path of open scopes as
it has found it, and of the counts of branches it changes at most the innermost (`Run.Returns`).
What makes this an induction is that a scope can be opened only where the path leads to one ; so it
does if the active snapshot has come about by operations on a fresh one (`Scopes.Founded`). Between
the opening and the closing of a visit there are parts that return (`Run.Returns.closed`), so what
is closed is what the visit has opened.

A pass begins with a fresh snapshot, so all of its parts return (`Tree.balanced`) : a scope is
always opened inside of one that is there, the outermost scope is never left, the count that a fork
takes is the one it has begun, and at the end nothing is open.
-/

namespace PiBlocks

/-! ## Scopes that operations lead to -/

theorem Operation.refreshes_of_writes {op : Operation} (h : op.writes = true) :
    op.refreshes = false := by
  cases op with
  | begin | commit | restore => cases h
  | enter | leave | declare | register => rfl

/-- Operations that keep the active snapshot are recorded one after the other. -/
theorem Snapshot.Records.applyAll {ops : List Operation} : ∀ {more : List Operation}
    {scopes : Scopes}, Records scopes.active ops → (∀ op ∈ more, op.writes = true) →
      Records (Operation.applyAll more scopes).active (ops ++ more)
  | [], _, h, _ => by simpa using h
  | op :: more, scopes, h, hwrites => by
    have hop := h.apply (Operation.refreshes_of_writes (hwrites op List.mem_cons_self))
    have hrest := applyAll hop fun op hmem => hwrites op (List.mem_cons_of_mem _ hmem)
    rwa [List.append_assoc] at hrest

namespace Scopes

/-- The active snapshot has come about by operations on a fresh one. -/
def Founded (scopes : Scopes) : Prop := ∃ ops, scopes.active.Records ops

namespace Founded

variable {scopes : Scopes}

theorem begin (scopes : Scopes) : scopes.begin.Founded := ⟨[], .fresh⟩

theorem applyAll (h : scopes.Founded) {ops : List Operation}
    (hwrites : ∀ op ∈ ops, op.writes = true) : (Operation.applyAll ops scopes).Founded := by
  obtain ⟨before, hrecords⟩ := h
  exact ⟨before ++ ops, hrecords.applyAll hwrites⟩

/-- The path of open scopes begins with the outermost one and leads to a scope. -/
theorem isSome_current? (h : scopes.Founded) : scopes.active.current?.isSome := by
  obtain ⟨ops, hrecords⟩ := h
  exact hrecords.current? ▸ hrecords.isSome_pathOf

/-- Operations move along the path of open scopes. -/
theorem exists_stack_eq (h : scopes.Founded) :
    ∃ keys, scopes.active.stack = Scope.globalKey :: keys ∧
      ∀ ops : List Operation, (∀ op ∈ ops, op.writes = true) →
        (Operation.applyAll ops scopes).active.stack =
          Scope.globalKey :: ops.foldl (fun keys op => op.path keys) keys := by
  obtain ⟨before, hrecords⟩ := h
  refine ⟨Operation.pathOf before, hrecords.stack, fun ops hwrites => ?_⟩
  rw [(hrecords.applyAll hwrites).stack, Operation.pathOf, List.foldl_append]
  rfl

end Founded

end Scopes

/-! ## Openings and closings -/

namespace Plan

variable (plan : Plan) (id : String)

/-- An opening goes down into the scope of the block, if it has one. -/
theorem path_opening (keys : List String) :
    (plan.opening id).foldl (fun keys op => op.path keys) keys =
      keys ++ if plan.scope.isSome then [Scope.key id] else [] := by
  have hstay (keys : List String) :
      (plan.declared.map Operation.declare).foldl (fun keys op => op.path keys) keys = keys := by
    rw [List.foldl_map]
    exact List.foldl_fixed _
  rw [opening]
  split
  · next hscope => rw [hstay, hscope, if_neg (by simp), List.append_nil]
  · next hscope _ =>
    rw [hscope, List.foldl_cons, hstay]
    rfl
  · next hscope _ =>
    rw [hscope]
    rfl

theorem path_closing (keys : List String) :
    plan.closing.foldl (fun keys op => op.path keys) keys =
      if plan.scope.isSome then keys.dropLast else keys := by
  rw [closing]
  split_ifs <;> rfl

variable {scopes : Scopes} (h : scopes.Founded)
include h

theorem founded_enter : (plan.enter id scopes).Founded := by
  rw [enter_eq_applyAll]
  exact h.applyAll fun _ hop => plan.writes_of_mem_opening hop

theorem stack_enter : (plan.enter id scopes).active.stack =
    scopes.active.stack ++ if plan.scope.isSome then [Scope.key id] else [] := by
  obtain ⟨keys, hkeys, hmove⟩ := h.exists_stack_eq
  rw [enter_eq_applyAll, hmove _ fun _ hop => plan.writes_of_mem_opening hop, path_opening, hkeys]
  rfl

omit h in
theorem founded_opened (kind : Kind) {run : Run} (h : run.scopes.Founded) :
    (plan.opened kind id run).scopes.Founded :=
  plan.founded_enter id h

end Plan

/-! ## Parts of the walk that return -/

/-- Between two runs, what was opened has been closed : the path of open scopes is the same, and of
the counts of branches at most the innermost is another. -/
structure Run.Returns (before after : Run) : Prop where
  founded : after.scopes.Founded
  stack : after.scopes.active.stack = before.scopes.active.stack
  length : after.branches.length = before.branches.length
  outer : after.branches.tail = before.branches.tail
  gate : after.emitting = true → before.emitting = true

namespace Run.Returns

variable {before middle after : Run}

theorem refl {run : Run} (h : run.scopes.Founded) : run.Returns run := ⟨h, rfl, rfl, rfl, id⟩

theorem trans (h : before.Returns middle) (hrest : middle.Returns after) :
    before.Returns after where
  founded := hrest.founded
  stack := hrest.stack.trans h.stack
  length := hrest.length.trans h.length
  outer := hrest.outer.trans h.outer
  gate := h.gate ∘ hrest.gate

variable {plan : Plan} {kind : Kind} {id : String}

/-- The branches of a fork are counted where the fork has begun to count them. -/
theorem branches_of_isFork (hfork : kind.isFork = true)
    (h : (plan.opened kind id before).Returns after) :
    ∃ count, after.branches = count :: before.branches := by
  have hlength := h.length
  have houter := h.outer
  simp only [Plan.opened, hfork, if_true, List.tail_cons, List.length_cons] at hlength houter
  cases hbranches : after.branches with
  | nil => simp [hbranches] at hlength
  | cons count outer =>
    rw [hbranches] at houter
    exact ⟨count, congrArg (count :: ·) houter⟩

/-- A branch is counted in the innermost count, and a fork takes its own. -/
theorem branches_closed (body : String) (h : (plan.opened kind id before).Returns after) :
    (plan.closed kind body after).branches.length = before.branches.length ∧
      (plan.closed kind body after).branches.tail = before.branches.tail := by
  by_cases hfork : kind.isFork = true
  · obtain ⟨count, hcount⟩ := h.branches_of_isFork hfork
    simp [Plan.closed, hfork, hcount]
  · have hopened : (plan.opened kind id before).branches = before.branches := if_neg hfork
    rw [← hopened, ← h.length, ← h.outer]
    simp only [Plan.closed, if_neg hfork]
    split_ifs
    · cases after.branches <;> simp
    · exact ⟨rfl, rfl⟩

/-- A visit returns if what happens between its opening and its closing does. -/
theorem closed (body : String) (hfounded : before.scopes.Founded)
    (h : (plan.opened kind id before).Returns after) :
    before.Returns (plan.closed kind body after) := by
  have hscopes := plan.scopes_closed kind body after
  obtain ⟨outer, houter, -⟩ := hfounded.exists_stack_eq
  obtain ⟨keys, hkeys, hmove⟩ := h.founded.exists_stack_eq
  have hopened : keys = outer ++ if plan.scope.isSome then [Scope.key id] else [] := by
    have hstack : after.scopes.active.stack = _ := h.stack.trans (plan.stack_enter id hfounded)
    rw [hkeys, houter] at hstack
    exact (List.cons.inj hstack).2
  refine ⟨?_, ?_, ?_, ?_, ?_⟩
  · rw [hscopes]
    exact h.founded.applyAll fun _ hop => plan.writes_of_mem_closing hop
  · rw [hscopes, hmove _ fun _ hop => plan.writes_of_mem_closing hop, Plan.path_closing, hopened,
      houter]
    split_ifs <;> simp
  · exact (h.branches_closed body).1
  · exact (h.branches_closed body).2
  · intro hgate
    simp only [Plan.closed, Bool.and_eq_true, Bool.not_eq_true'] at hgate
    simpa [Plan.opened, hgate.2] using h.gate hgate.1

end Run.Returns

namespace Block

mutual

theorem returns_traceBlock (trail followers) : ∀ (block : Block) {run : Run}, run.scopes.Founded →
    run.Returns (traceBlock trail followers block run).run
  | .mk id kind fields slots, run, h => by
    rw [traceBlock]
    split_ifs
    · exact .refl h
    · let plan := Plan.ofBlock fields slots kind
      let below : List Step := .owner (.mk id kind fields slots) :: trail
      have hfirst := returns_traceSlot below plan.first slots h
      have hsecond := returns_traceSlot below plan.second slots hfirst.founded
      have hitems := returns_traceItemsIn below plan.items slots hsecond.founded
      have hnames := returns_traceSlot below plan.names slots
        (plan.founded_opened id kind hitems.founded)
      have hbody := returns_traceSlot below plan.body slots hnames.founded
      exact hfirst.trans (hsecond.trans (hitems.trans
        (.closed _ hitems.founded (hnames.trans hbody))))

theorem returns_traceChain (trail) : ∀ (chain : List Block) {run : Run}, run.scopes.Founded →
    run.Returns (traceChain trail chain run).run
  | [], run, h => by
    rw [traceChain]
    exact .refl h
  | .mk id kind fields slots :: rest, run, h => by
    have hown := returns_traceBlock trail rest (.mk id kind fields slots) h
    rw [traceChain]
    split_ifs
    · exact hown
    · exact hown.trans (returns_traceChain _ rest hown.founded)

theorem returns_traceSlot (trail slot) : ∀ (slots : List (String × List Block)) {run : Run},
    run.scopes.Founded → run.Returns (traceSlot trail slot slots run).run
  | [], run, h => by
    rw [traceSlot]
    exact .refl h
  | (name, chain) :: slots, run, h => by
    rw [traceSlot]
    split_ifs
    · exact returns_traceChain trail chain h
    · exact returns_traceSlot trail slot slots h

theorem returns_traceItems (trail item) : ∀ (chain : List Block) {run : Run},
    run.scopes.Founded → run.Returns (traceItems trail item chain run).run
  | [], run, h => by
    rw [traceItems]
    exact .refl h
  | .mk id kind fields slots :: rest, run, h => by
    have hown := returns_traceSlot (.owner (.mk id kind fields slots) :: trail) (some item) slots h
    have hrest := returns_traceItems (.previous (.mk id kind fields slots) :: trail) item rest
      hown.founded
    rw [traceItems]
    exact hown.trans hrest

theorem returns_traceItemsIn (trail items) : ∀ (slots : List (String × List Block)) {run : Run},
    run.scopes.Founded → run.Returns (traceItemsIn trail items slots run).run
  | [], run, h => by
    rw [traceItemsIn]
    exact .refl h
  | (name, chain) :: slots, run, h => by
    rw [traceItemsIn]
    split_ifs
    · exact returns_traceItems trail _ chain h
    · exact returns_traceItemsIn trail items slots h

end

end Block

theorem Root.returns_traceRoots : ∀ (roots : List Root) {run : Run}, run.scopes.Founded →
    run.Returns (traceRoots roots run).run
  | [], _, h => .refl h
  | root :: roots, _, h =>
    have hown := Block.returns_traceChain [] root.chain h
    hown.trans (returns_traceRoots roots hown.founded)

/-! ## Where scopes are opened and closed -/

namespace Visit

variable (visit : Visit)

/-- Where the walk stands once it has read the values of a block, before it opens the scope. -/
def beforeOpening : Run :=
  let block := visit.site.block
  let below := .owner block :: visit.site.trail
  let first := Block.traceSlot below block.plan.first block.slots visit.run
  let second := Block.traceSlot below block.plan.second block.slots first.run
  (Block.traceItemsIn below block.plan.items block.slots second.run).run

/-- Where the walk stands once it has been through the slots inside of a block, before it closes
the scope. -/
def beforeClosing : Run :=
  let block := visit.site.block
  let below := .owner block :: visit.site.trail
  let opened := block.plan.opened block.kind block.id visit.beforeOpening
  let names := Block.traceSlot below block.plan.names block.slots opened
  (Block.traceSlot below block.plan.body block.slots names.run).run

/-- A visit ends where it has closed its scope. -/
theorem exists_run_renderBlock (h : visit.run.counts visit.site.block.kind = true) :
    ∃ body, ((Block.renderBlock visit.site.block).run visit.run).2 =
      visit.site.block.plan.closed visit.site.block.kind body visit.beforeClosing := by
  obtain ⟨⟨⟨id, kind, fields, slots⟩, followers, trail⟩, run, text⟩ := visit
  have hcounts : run.counts kind = true := h
  rw [Block.run_renderBlock _ trail followers, Block.traceBlock]
  simp only [hcounts, Bool.not_true, Bool.false_eq_true, if_false]
  exact ⟨_, rfl⟩

variable {visit} (h : visit.run.scopes.Founded)
include h

theorem returns_beforeOpening : visit.run.Returns visit.beforeOpening := by
  have hfirst := Block.returns_traceSlot (.owner visit.site.block :: visit.site.trail)
    visit.site.block.plan.first visit.site.block.slots h
  have hsecond := Block.returns_traceSlot (.owner visit.site.block :: visit.site.trail)
    visit.site.block.plan.second visit.site.block.slots hfirst.founded
  exact hfirst.trans (hsecond.trans (Block.returns_traceItemsIn _ _ _ hsecond.founded))

theorem returns_beforeClosing :
    (visit.site.block.plan.opened visit.site.block.kind visit.site.block.id
      visit.beforeOpening).Returns visit.beforeClosing := by
  have hopened := visit.site.block.plan.founded_opened visit.site.block.id visit.site.block.kind
    (returns_beforeOpening h).founded
  have hnames := Block.returns_traceSlot (.owner visit.site.block :: visit.site.trail)
    visit.site.block.plan.names visit.site.block.slots hopened
  exact hnames.trans (Block.returns_traceSlot _ _ _ hnames.founded)

end Visit

namespace Tree

variable (tree : Tree)

theorem founded_of_mem_visits {scopes : Scopes} {visit : Visit} (h : visit ∈ tree.visits scopes) :
    visit.run.scopes.Founded := by
  have htell := tree.tell_trace scopes
  obtain ⟨front, hfront, hrun⟩ := htell.visits visit h
  rw [hrun]
  exact (Scopes.Founded.begin scopes).applyAll fun op hop => htell.writes op (hfront.subset hop)

/-- Wherever blocks stand, the walk over a chain that a pass comes to ends with the path of open
scopes and the counts of branches with which it has begun, but for the innermost count. A visit that
opens a scope does so inside of one that is there, and closes the one it has opened, and a fork
takes the count it has begun. When the pass has been through all chains, only the outermost scope is
open, no branches are counted, and the walk is outside of programs and definitions. -/
theorem balanced (scopes : Scopes) :
    (∀ visit ∈ tree.visits scopes,
      let after := ((Block.renderChain (visit.site.block :: visit.site.followers)).run visit.run).2
      after.scopes.active.stack = visit.run.scopes.active.stack ∧
        after.branches.length = visit.run.branches.length ∧
        after.branches.tail = visit.run.branches.tail) ∧
    (∀ visit ∈ tree.visits scopes, visit.run.counts visit.site.block.kind = true →
      let block := visit.site.block
      (∃ body, ((Block.renderBlock block).run visit.run).2 =
        block.plan.closed block.kind body visit.beforeClosing) ∧
      visit.beforeOpening.scopes.active.stack = visit.run.scopes.active.stack ∧
      visit.beforeOpening.scopes.active.current?.isSome ∧
      (block.plan.scope.isSome → visit.beforeClosing.scopes.active.stack =
        visit.run.scopes.active.stack ++ [Scope.key block.id] ∧
        1 < visit.beforeClosing.scopes.active.stack.length) ∧
      (block.kind.isFork →
        ∃ count, visit.beforeClosing.branches = count :: visit.beforeOpening.branches)) ∧
    let ended := ((Root.renderLines tree.visitOrder).run { scopes := scopes.begin }).2
    ended.scopes.active.stack = [Scope.globalKey] ∧ ended.branches = [] ∧
      ended.emitting = false := by
  refine ⟨fun visit hvisit => ?_, fun visit hvisit hcounts => ?_, ?_⟩
  · have hreturns := Block.returns_traceChain visit.site.trail
      (visit.site.block :: visit.site.followers) (tree.founded_of_mem_visits hvisit)
    rw [Block.run_renderChain _ visit.site.trail]
    exact ⟨hreturns.stack, hreturns.length, hreturns.outer⟩
  · have hfounded := tree.founded_of_mem_visits hvisit
    have hopening := Visit.returns_beforeOpening hfounded
    have hclosing := Visit.returns_beforeClosing hfounded
    refine ⟨visit.exists_run_renderBlock hcounts, hopening.stack,
      hopening.founded.isSome_current?, fun hscope => ?_,
      fun hfork => hclosing.branches_of_isFork hfork⟩
    have hstack : visit.beforeClosing.scopes.active.stack =
        visit.run.scopes.active.stack ++ [Scope.key visit.site.block.id] := by
      have hopened := visit.site.block.plan.stack_enter visit.site.block.id hopening.founded
      rw [if_pos hscope, hopening.stack] at hopened
      exact hclosing.stack.trans hopened
    obtain ⟨keys, hkeys, -⟩ := hfounded.exists_stack_eq
    exact ⟨hstack, by simp [hstack, hkeys]⟩
  · let started : Run := { scopes := scopes.begin }
    have hfounded : started.scopes.Founded := .begin scopes
    have hreturns := Root.returns_traceRoots tree.visitOrder hfounded
    rw [Root.run_renderLines]
    refine ⟨hreturns.stack, List.eq_nil_of_length_eq_zero hreturns.length, ?_⟩
    exact Bool.eq_false_iff.2 fun hemitting => Bool.false_ne_true (hreturns.gate hemitting)

/-- A program in the slot of a fork, behind a branch. It leaves the gate closed, so what comes
behind the fork does not count. -/
def nestedPrograms : Tree :=
  program [
    .mk "fork" .parallelFork [] [(SlotName.parallel, [.mk "left" .parallelBranch [] [
      (SlotName.scope, [sending "x"])], .mk "inner" .main [] []])],
    .mk "end" .termination [] []]

theorem balanced_nestedPrograms : ∃ visit ∈ nestedPrograms.visits {},
    visit.site.block.id = "fork" ∧
    visit.run.counts visit.site.block.kind = true ∧
      visit.site.block.plan.scope.isSome ∧ visit.site.block.kind.isFork ∧
      visit.beforeClosing.scopes.active.stack =
        visit.run.scopes.active.stack ++ [Scope.key visit.site.block.id] ∧
      ∃ count, visit.beforeClosing.branches = count :: visit.beforeOpening.branches := by
  obtain ⟨visit, hvisit, hid, hcounts, hscope, hfork⟩ : ∃ visit ∈ nestedPrograms.visits {},
      visit.site.block.id = "fork" ∧ visit.run.counts visit.site.block.kind = true ∧
        visit.site.block.plan.scope.isSome ∧ visit.site.block.kind.isFork := by
    decide +kernel
  obtain ⟨-, -, -, hclosing, hbranches⟩ := (nestedPrograms.balanced {}).2.1 visit hvisit hcounts
  exact ⟨visit, hvisit, hid, hcounts, hscope, hfork, (hclosing hscope).1, hbranches hfork⟩

end Tree

end PiBlocks
