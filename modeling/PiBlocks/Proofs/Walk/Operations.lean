import PiBlocks.Proofs.Scope.History
import PiBlocks.Proofs.Walk.Scopes

/-!
# What a pass does to scopes

The operations of a pass on the scopes are written in the tree : a visit follows its plan, and
whether a block is visited does not hang on any name (`Block.operations`). `Tree.operations`
lists them in the order of the walk. None of them makes a snapshot fresh, commits or restores one
(`Tree.writes_of_mem_operations`). The scopes at every visit are those after some of the
operations, and the scopes at the end are those after all of them (`Tree.tell_trace`).

So the committed snapshot stays as it is until the pass is over. No text depends on it either :
walks that begin with the same active snapshot go the same way (`Tree.agree_trace`). With the fresh
snapshot of a pass, its outcome is a matter of the tree alone (`Tree.pass_eq`).
-/

namespace PiBlocks

/-- Whether an operation writes into the active snapshot and keeps the committed one. -/
def Operation.writes : Operation → Bool
  | .enter _ _ | .leave | .declare _ | .register _ _ _ => true
  | .begin | .commit | .restore _ => false

theorem Operation.committed_applyAll : ∀ {ops : List Operation}, (∀ op ∈ ops, op.writes = true) →
    ∀ scopes, (applyAll ops scopes).committed = scopes.committed
  | [], _, _ => rfl
  | op :: ops, h, scopes => by
    have hop : (op.apply scopes).committed = scopes.committed := by
      have hwrites := h op List.mem_cons_self
      rw [committed_apply]
      cases op <;> first | rfl | cases hwrites
    exact (committed_applyAll (fun op hmem => h op (List.mem_cons_of_mem _ hmem)) _).trans hop

theorem Scopes.declareAll_eq_applyAll (names : List String) (scopes : Scopes) :
    scopes.declareAll names = Operation.applyAll (names.map .declare) scopes := by
  rw [Operation.applyAll, List.foldl_map]
  rfl

/-! ## Plans as operations -/

namespace Plan

variable (plan : Plan)

/-- What a visit does to scopes once its values are read. -/
def opening (id : String) : List Operation :=
  match plan.scope, plan.signs with
  | none, _ => plan.declared.map .declare
  | some kind, none => .enter id kind :: plan.declared.map .declare
  | some _, some name => [.register id name plan.declared]

/-- What a visit does to scopes at its end. -/
def closing : List Operation := if plan.scope.isSome then [.leave] else []

theorem enter_eq_applyAll (id : String) (scopes : Scopes) :
    plan.enter id scopes = Operation.applyAll (plan.opening id) scopes := by
  cases hscope : plan.scope with
  | none => simp [enter, opening, hscope, Scopes.declareAll_eq_applyAll]
  | some kind =>
    cases hsigns : plan.signs with
    | none => simp [enter, opening, hscope, hsigns, Scopes.declareAll_eq_applyAll,
        Operation.applyAll, Operation.apply]
    | some name => simp [enter, opening, hscope, hsigns, Operation.applyAll, Operation.apply]

theorem scopes_closed (kind : Kind) (body : String) (run : Run) :
    (plan.closed kind body run).scopes = Operation.applyAll plan.closing run.scopes := by
  by_cases h : plan.scope.isSome = true <;>
    simp [closed, closing, h, Operation.applyAll, Operation.apply]

theorem writes_of_mem_opening {id : String} {op : Operation} (h : op ∈ plan.opening id) :
    op.writes = true := by
  rw [opening] at h
  split at h <;> simp only [List.mem_cons, List.mem_map, List.not_mem_nil, or_false] at h
  · obtain ⟨name, -, rfl⟩ := h
    rfl
  · rcases h with rfl | ⟨name, -, rfl⟩ <;> rfl
  · rw [h]
    rfl

theorem writes_of_mem_closing {op : Operation} (h : op ∈ plan.closing) : op.writes = true := by
  rw [closing] at h
  split_ifs at h
  · obtain rfl := List.mem_singleton.1 h
    rfl
  · cases h

end Plan

/-! ## Operations of a walk -/

/-- What a part of the walk does to scopes, and whether the walk is inside of a program or
definition afterwards. -/
structure Deeds where
  ops : List Operation
  emitting : Bool

namespace Deeds

/-- Nothing is done. -/
def none (emitting : Bool) : Deeds := ⟨[], emitting⟩

/-- One part after the other. -/
def followedBy (deeds : Deeds) (next : Bool → Deeds) : Deeds :=
  ⟨deeds.ops ++ (next deeds.emitting).ops, (next deeds.emitting).emitting⟩

end Deeds

namespace Block

mutual

/-- What the walk over a block does to scopes. -/
def operations : Block → Bool → Deeds
  | .mk id kind fields slots, emitting =>
    if !(kind.bypassesGate || emitting) then .none emitting
    else
      let plan := Plan.ofBlock fields slots kind
      (operationsIn plan.first slots emitting).followedBy fun emitting =>
        (operationsIn plan.second slots emitting).followedBy fun emitting =>
        (operationsOfItemsIn plan.items slots emitting).followedBy fun emitting =>
        Deeds.followedBy ⟨plan.opening id, emitting || kind.opensGate⟩ fun emitting =>
        (operationsIn plan.names slots emitting).followedBy fun emitting =>
        (operationsIn plan.body slots emitting).followedBy fun emitting =>
        ⟨plan.closing, emitting && !kind.opensGate⟩

/-- What the walk over a chain does to scopes. -/
def operationsOf : List Block → Bool → Deeds
  | [], emitting => .none emitting
  | .mk id kind fields slots :: rest, emitting =>
    (operations (.mk id kind fields slots) emitting).followedBy fun emitting =>
      if !(kind.bypassesGate || emitting) then .none emitting else operationsOf rest emitting

/-- What the walk over the chain in a slot does to scopes. -/
def operationsIn (slot : Option String) : List (String × List Block) → Bool → Deeds
  | [], emitting => .none emitting
  | (name, chain) :: slots, emitting =>
    if some name = slot then operationsOf chain emitting else operationsIn slot slots emitting

/-- What the walk over one slot of every block of a chain does to scopes. -/
def operationsOfItems (item : String) : List Block → Bool → Deeds
  | [], emitting => .none emitting
  | .mk _ _ _ slots :: rest, emitting =>
    (operationsIn (some item) slots emitting).followedBy fun emitting =>
      operationsOfItems item rest emitting

/-- What the walk over one slot of every block of the chain in a slot does to scopes. -/
def operationsOfItemsIn (items : Option (String × String)) :
    List (String × List Block) → Bool → Deeds
  | [], emitting => .none emitting
  | (name, chain) :: slots, emitting =>
    if some name = items.map Prod.fst then
      operationsOfItems ((items.map Prod.snd).getD "") chain emitting
    else operationsOfItemsIn items slots emitting

end

end Block

/-- The walk between two runs did what is told, and came to every visit after some of it. -/
structure Deeds.Tell (deeds : Deeds) (before after : Run) (visits : List Visit) : Prop where
  emitting : after.emitting = deeds.emitting
  scopes : after.scopes = Operation.applyAll deeds.ops before.scopes
  writes : ∀ op ∈ deeds.ops, op.writes = true
  visits : ∀ visit ∈ visits, ∃ front, front <+: deeds.ops ∧
    visit.run.scopes = Operation.applyAll front before.scopes

namespace Deeds.Tell

variable {deeds : Deeds} {before middle after : Run} {visits more : List Visit}

theorem none (run : Run) : (Deeds.none run.emitting).Tell run run [] :=
  ⟨rfl, rfl, by simp [Deeds.none], by simp⟩

theorem followedBy {next : Bool → Deeds} (h : deeds.Tell before middle visits)
    (hnext : (next middle.emitting).Tell middle after more) :
    (deeds.followedBy next).Tell before after (visits ++ more) := by
  rw [Deeds.followedBy, ← h.emitting]
  refine ⟨hnext.emitting, ?_, fun op hop => ?_, fun visit hvisit => ?_⟩
  · rw [Operation.applyAll_append, ← h.scopes]
    exact hnext.scopes
  · exact (List.mem_append.1 hop).elim (h.writes op) (hnext.writes op)
  · rcases List.mem_append.1 hvisit with hvisit | hvisit
    · obtain ⟨front, hfront, hrun⟩ := h.visits visit hvisit
      exact ⟨front, hfront.trans (List.prefix_append _ _), hrun⟩
    · obtain ⟨front, hfront, hrun⟩ := hnext.visits visit hvisit
      refine ⟨deeds.ops ++ front, List.prefix_append_right_inj _ |>.2 hfront, ?_⟩
      rw [hrun, Operation.applyAll_append, ← h.scopes]

/-- A part that comes to no block adds no visits. -/
theorem followedBy_nil {next : Bool → Deeds} (h : deeds.Tell before middle visits)
    (hnext : (next middle.emitting).Tell middle after []) :
    (deeds.followedBy next).Tell before after visits := by
  simpa using h.followedBy hnext

/-- The visit of the block the walk begins with comes before everything. -/
theorem visit (h : deeds.Tell before after visits) (site : Site) (text : String) :
    deeds.Tell before after (⟨site, before, text⟩ :: visits) := by
  refine ⟨h.emitting, h.scopes, h.writes, fun visit hvisit => ?_⟩
  rcases List.mem_cons.1 hvisit with rfl | hvisit
  · exact ⟨[], List.nil_prefix, rfl⟩
  · exact h.visits visit hvisit

end Deeds.Tell

namespace Block

theorem tell_opened (plan : Plan) (kind : Kind) (id : String) (run : Run) :
    Deeds.Tell ⟨plan.opening id, run.emitting || kind.opensGate⟩ run (plan.opened kind id run) [] :=
  ⟨rfl, plan.enter_eq_applyAll id run.scopes, fun _ hop => plan.writes_of_mem_opening hop, by simp⟩

theorem tell_closed (plan : Plan) (kind : Kind) (body : String) (run : Run) :
    Deeds.Tell ⟨plan.closing, run.emitting && !kind.opensGate⟩ run (plan.closed kind body run) [] :=
  ⟨rfl, plan.scopes_closed kind body run, fun _ hop => plan.writes_of_mem_closing hop, by simp⟩

mutual

theorem tell_traceBlock (trail followers) : ∀ (block : Block) (run : Run),
    (operations block run.emitting).Tell run (traceBlock trail followers block run).run
      (traceBlock trail followers block run).visits
  | .mk id kind fields slots, run => by
    rw [operations, traceBlock]
    by_cases hcounts : run.counts kind = true
    · have hgate : (kind.bypassesGate || run.emitting) = true := hcounts
      simp only [hcounts, hgate, Bool.not_true, Bool.false_eq_true, if_false]
      refine Deeds.Tell.visit ?_ _ _
      simp only [List.append_assoc]
      refine (tell_traceSlot _ _ slots run).followedBy ?_
      refine (tell_traceSlot _ _ slots _).followedBy ?_
      refine (tell_traceItemsIn _ _ slots _).followedBy ?_
      refine List.nil_append _ ▸ (tell_opened _ kind id _).followedBy ?_
      refine (tell_traceSlot _ _ slots _).followedBy ?_
      exact (tell_traceSlot _ _ slots _).followedBy_nil (tell_closed _ kind _ _)
    · have hgate : (kind.bypassesGate || run.emitting) = false := Bool.eq_false_iff.2 hcounts
      simp only [hcounts, hgate, Bool.not_false, if_true]
      exact (Deeds.Tell.none run).visit _ _

theorem tell_traceChain (trail) : ∀ (chain : List Block) (run : Run),
    (operationsOf chain run.emitting).Tell run (traceChain trail chain run).run
      (traceChain trail chain run).visits
  | [], run => by
    rw [operationsOf, traceChain]
    exact .none run
  | .mk id kind fields slots :: rest, run => by
    have hown := tell_traceBlock trail rest (.mk id kind fields slots) run
    rw [operationsOf, traceChain]
    split_ifs with hcounts
    · refine hown.followedBy_nil ?_
      have hgate : (!(kind.bypassesGate || _)) = true := hcounts
      rw [if_pos hgate]
      exact .none _
    · refine hown.followedBy ?_
      have hgate : ¬ (!(kind.bypassesGate || _)) = true := hcounts
      rw [if_neg hgate]
      exact tell_traceChain _ rest _

theorem tell_traceSlot (trail) (slot : Option String) : ∀ (slots) (run : Run),
    (operationsIn slot slots run.emitting).Tell run (traceSlot trail slot slots run).run
      (traceSlot trail slot slots run).visits
  | [], run => by
    rw [operationsIn, traceSlot]
    exact .none run
  | (name, chain) :: slots, run => by
    rw [operationsIn, traceSlot]
    split_ifs
    · exact tell_traceChain trail chain run
    · exact tell_traceSlot trail slot slots run

theorem tell_traceItems (trail) (item : String) : ∀ (chain : List Block) (run : Run),
    (operationsOfItems item chain run.emitting).Tell run (traceItems trail item chain run).run
      (traceItems trail item chain run).visits
  | [], run => by
    rw [operationsOfItems, traceItems]
    exact .none run
  | .mk id kind fields slots :: rest, run => by
    rw [operationsOfItems, traceItems]
    exact (tell_traceSlot _ _ slots run).followedBy (tell_traceItems _ item rest _)

theorem tell_traceItemsIn (trail) (items : Option (String × String)) : ∀ (slots) (run : Run),
    (operationsOfItemsIn items slots run.emitting).Tell run
      (traceItemsIn trail items slots run).run (traceItemsIn trail items slots run).visits
  | [], run => by
    rw [operationsOfItemsIn, traceItemsIn]
    exact .none run
  | (name, chain) :: slots, run => by
    rw [operationsOfItemsIn, traceItemsIn]
    split_ifs
    · exact tell_traceItems trail _ chain run
    · exact tell_traceItemsIn trail items slots run

end

end Block

namespace Root

/-- What the walk over chains of the top level does to scopes. -/
def operations : List Root → Bool → Deeds
  | [], emitting => .none emitting
  | root :: roots, emitting =>
    (Block.operationsOf root.chain emitting).followedBy fun emitting => operations roots emitting

theorem tell_traceRoots : ∀ (roots : List Root) (run : Run),
    (operations roots run.emitting).Tell run (traceRoots roots run).run
      (traceRoots roots run).visits
  | [], run => .none run
  | root :: roots, run =>
    (Block.tell_traceChain [] root.chain run).followedBy (tell_traceRoots roots _)

end Root

/-- What a pass does to scopes once it has begun and before it commits. -/
def Tree.operations (tree : Tree) : List Operation := (Root.operations tree.visitOrder false).ops

theorem Tree.tell_trace (tree : Tree) (scopes : Scopes) :
    (Root.operations tree.visitOrder false).Tell { scopes := scopes.begin }
      (tree.trace scopes).run (tree.visits scopes) :=
  Root.tell_traceRoots tree.visitOrder { scopes := scopes.begin }

/-- A pass generates with the scopes after all of its operations. -/
theorem Tree.scopes_generate (tree : Tree) (scopes : Scopes) :
    (tree.generate scopes).2 = Operation.applyAll tree.operations scopes.begin := by
  rw [generate_eq]
  exact (tree.tell_trace scopes).scopes

/-- No operation of a pass makes a snapshot fresh, commits or restores one. -/
theorem Tree.writes_of_mem_operations (tree : Tree) : ∀ op ∈ tree.operations, op.writes = true :=
  (tree.tell_trace {}).writes

/-! ## The committed snapshot is not read -/

namespace Scopes

variable {scopes other : Scopes} (h : scopes.active = other.active)
include h

theorem active_enter (id : String) (kind : ScopeKind) :
    (scopes.enter id kind).active = (other.enter id kind).active := by
  simp only [enter, h]
  split <;> rfl

theorem active_leave : scopes.leave.active = other.leave.active := by
  simp only [leave, h]
  split_ifs
  · exact h
  · rfl

theorem active_declare (name : String) :
    (scopes.declare name).active = (other.declare name).active := by
  simp only [declare, h]
  split_ifs
  · exact h
  · rfl

theorem active_declareAll (names : List String) :
    (scopes.declareAll names).active = (other.declareAll names).active := by
  induction names generalizing scopes other with
  | nil => exact h
  | cons name names ih => exact ih (active_declare h name)

theorem active_register (id name : String) (params : List String) :
    (scopes.register id name params).active = (other.register id name params).active := by
  refine active_declareAll (active_enter ?_ id .process) params
  simp only [h]

theorem active_planned (plan : Plan) (id : String) :
    (plan.enter id scopes).active = (plan.enter id other).active := by
  simp only [Plan.enter]
  split
  · exact active_declareAll h _
  · exact active_declareAll (active_enter h id _) _
  · exact active_register h id _ _

theorem isVisible_congr (name : String) : scopes.isVisible name = other.isVisible name := by
  simp only [isVisible, h]

theorem currentKind_congr : scopes.currentKind = other.currentKind := by
  simp only [currentKind, h]

end Scopes

/-- Runs that differ in nothing but the committed snapshot. -/
structure Run.Agree (run other : Run) : Prop where
  active : run.scopes.active = other.scopes.active
  emitting : run.emitting = other.emitting
  branches : run.branches = other.branches

namespace Run.Agree

variable {run other : Run} (h : run.Agree other)
include h

theorem counts (kind : Kind) : run.counts kind = other.counts kind := by
  simp only [Run.counts, h.emitting]

theorem opened (plan : Plan) (kind : Kind) (id : String) :
    (plan.opened kind id run).Agree (plan.opened kind id other) where
  active := Scopes.active_planned h.active plan id
  emitting := by simp only [Plan.opened, h.emitting]
  branches := by simp only [Plan.opened, h.branches]

theorem closed (plan : Plan) (kind : Kind) {body text : String} (hbody : body = text) :
    (plan.closed kind body run).Agree (plan.closed kind text other) where
  active := by
    simp only [Plan.closed]
    split_ifs
    · exact Scopes.active_leave h.active
    · exact h.active
  emitting := by simp only [Plan.closed, h.emitting]
  branches := by simp only [Plan.closed, h.branches, hbody]

end Run.Agree

theorem Parts.ownText_congr (parts : Parts) {scopes other : Scopes}
    (h : scopes.active = other.active) (kind : Kind) (fields : OrderedMap String)
    (slots : List (String × List Block)) :
    parts.ownText scopes kind fields slots = parts.ownText other kind fields slots := by
  cases kind <;> simp only [ownText, Scopes.isVisible_congr h, Scopes.currentKind_congr h]

/-- Parts of walks that give the same and end in runs that agree. -/
structure Traced.Agree {α : Type} (traced other : Traced α) : Prop where
  value : traced.value = other.value
  run : traced.run.Agree other.run

namespace Block

mutual

/-- Walks over a block that begin with runs that agree go the same way. -/
theorem agree_traceBlock (trail followers) : ∀ (block : Block) {run other : Run},
    run.Agree other →
      (traceBlock trail followers block run).Agree (traceBlock trail followers block other)
  | .mk id kind fields slots, run, other, h => by
    rw [traceBlock, traceBlock, h.counts]
    split_ifs
    · exact ⟨rfl, h⟩
    · let plan := Plan.ofBlock fields slots kind
      let below : List Step := .owner (.mk id kind fields slots) :: trail
      have hfirst := agree_traceSlot below plan.first slots h
      have hsecond := agree_traceSlot below plan.second slots hfirst.run
      have hitems := agree_traceItemsIn below plan.items slots hsecond.run
      have hnames := agree_traceSlot below plan.names slots (hitems.run.opened plan kind id)
      have hbody := agree_traceSlot below plan.body slots hnames.run
      have hended := hbody.run.closed plan kind hbody.value
      refine ⟨?_, hended⟩
      simp only [plan, below] at hfirst hsecond hitems hbody hended
      simp only [hfirst.value, hsecond.value, hitems.value, hbody.value, hbody.run.branches]
      rw [hbody.value] at hended
      exact Parts.ownText_congr _ hended.active _ _ _

theorem agree_traceChain (trail) : ∀ (chain : List Block) {run other : Run}, run.Agree other →
    (traceChain trail chain run).Agree (traceChain trail chain other)
  | [], run, other, h => by
    rw [traceChain, traceChain]
    exact ⟨rfl, h⟩
  | .mk id kind fields slots :: rest, run, other, h => by
    have hown := agree_traceBlock trail rest (.mk id kind fields slots) h
    rw [traceChain, traceChain, hown.run.counts]
    split_ifs
    · exact ⟨rfl, hown.run⟩
    · have hrest := agree_traceChain (.previous (.mk id kind fields slots) :: trail) rest hown.run
      exact ⟨by simp only [hown.value, hrest.value], hrest.run⟩

theorem agree_traceSlot (trail) (slot : Option String) : ∀ (slots) {run other : Run},
    run.Agree other → (traceSlot trail slot slots run).Agree (traceSlot trail slot slots other)
  | [], run, other, h => by
    rw [traceSlot, traceSlot]
    exact ⟨rfl, h⟩
  | (name, chain) :: slots, run, other, h => by
    rw [traceSlot, traceSlot]
    split_ifs
    · exact agree_traceChain trail chain h
    · exact agree_traceSlot trail slot slots h

theorem agree_traceItems (trail) (item : String) : ∀ (chain : List Block) {run other : Run},
    run.Agree other → (traceItems trail item chain run).Agree (traceItems trail item chain other)
  | [], run, other, h => by
    rw [traceItems, traceItems]
    exact ⟨rfl, h⟩
  | .mk id kind fields slots :: rest, run, other, h => by
    have hown := agree_traceSlot (.owner (.mk id kind fields slots) :: trail) (some item) slots h
    have hrest := agree_traceItems (.previous (.mk id kind fields slots) :: trail) item rest
      hown.run
    rw [traceItems, traceItems]
    exact ⟨by simp only [hown.value, hrest.value], hrest.run⟩

theorem agree_traceItemsIn (trail) (items : Option (String × String)) :
    ∀ (slots) {run other : Run}, run.Agree other →
      (traceItemsIn trail items slots run).Agree (traceItemsIn trail items slots other)
  | [], run, other, h => by
    rw [traceItemsIn, traceItemsIn]
    exact ⟨rfl, h⟩
  | (name, chain) :: slots, run, other, h => by
    rw [traceItemsIn, traceItemsIn]
    split_ifs
    · exact agree_traceItems trail _ chain h
    · exact agree_traceItemsIn trail items slots h

end

end Block

theorem Root.agree_traceRoots : ∀ (roots : List Root) {run other : Run}, run.Agree other →
    (traceRoots roots run).Agree (traceRoots roots other)
  | [], _, _, h => ⟨rfl, h⟩
  | root :: roots, _, _, h => by
    have hown := Block.agree_traceChain [] root.chain h
    have hrest := agree_traceRoots roots hown.run
    exact ⟨by simp only [traceRoots, hown.value, hrest.value], hrest.run⟩

namespace Tree

variable (tree : Tree)

/-- Whatever the scopes hold, a pass walks the same way. -/
theorem agree_trace (scopes other : Scopes) : (tree.trace scopes).Agree (tree.trace other) :=
  Root.agree_traceRoots tree.visitOrder ⟨rfl, rfl, rfl⟩

/-- While a pass walks, the committed snapshot is the one it has found. -/
theorem committed_of_prefix {front : List Operation} (h : front <+: tree.operations)
    (scopes : Scopes) : (Operation.applyAll front scopes.begin).committed = scopes.committed :=
  Operation.committed_applyAll
    (fun op hop => tree.writes_of_mem_operations op (h.subset hop)) scopes.begin

/-- The outcome of a pass and the scopes it leaves hang on the tree alone, whatever an earlier pass
or a saved state has left in the scopes, and the active snapshot it leaves is fresh. Until the pass
is over, after each of its operations and at each of its visits, the committed snapshot is the one
it has found. So a second pass changes nothing. -/
theorem pass_eq (scopes other : Scopes) (canonical : Bool) :
    tree.pass scopes canonical = tree.pass other canonical ∧
    (tree.pass scopes canonical).2.active = {} ∧
    (tree.generate scopes).2 = Operation.applyAll tree.operations scopes.begin ∧
    (∀ front, front <+: tree.operations →
      (Operation.applyAll front scopes.begin).committed = scopes.committed) ∧
    (∀ visit ∈ tree.visits scopes, visit.run.scopes.committed = scopes.committed) ∧
    tree.pass (tree.pass scopes canonical).2 canonical = tree.pass scopes canonical := by
  have hpass (scopes other : Scopes) : tree.pass scopes canonical = tree.pass other canonical := by
    have hagree := tree.agree_trace scopes other
    simp only [pass, generate_eq, Scopes.commit, hagree.value, hagree.run.active]
  refine ⟨hpass scopes other, rfl, tree.scopes_generate scopes,
    fun front hfront => tree.committed_of_prefix hfront scopes, fun visit hvisit => ?_,
    hpass _ scopes⟩
  obtain ⟨front, hfront, hrun⟩ := (tree.tell_trace scopes).visits visit hvisit
  rw [hrun]
  exact tree.committed_of_prefix hfront scopes

/-- A pass over a program that finds a committed snapshot and an open scope. -/
theorem pass_eq_restricting :
    let scopes := (Scopes.resume { declaredMain := true }).enter "open" .guarded
    [.enter "main" .main] <+: (restricting "x").operations ∧
      (Operation.applyAll [.enter "main" .main] scopes.begin).committed = { declaredMain := true } ∧
      (∃ visit ∈ (restricting "x").visits scopes,
        visit.run.scopes.committed = { declaredMain := true }) ∧
      ((restricting "x").pass scopes true).1 = ⟨"$x. x'<x>", []⟩ := by
  intro scopes
  have hfound : scopes.committed = { declaredMain := true } := by decide +kernel
  have hfront : [.enter "main" .main] <+: (restricting "x").operations := by decide +kernel
  have hvisits : 0 < ((restricting "x").visits scopes).length := by decide +kernel
  obtain ⟨visit, hvisit⟩ := List.exists_mem_of_length_pos hvisits
  obtain ⟨hpass, -, -, hcommitted, hthroughout, -⟩ := (restricting "x").pass_eq scopes {} true
  exact ⟨hfront, (hcommitted _ hfront).trans hfound,
    ⟨visit, hvisit, (hthroughout visit hvisit).trans hfound⟩,
    (congrArg Prod.fst hpass).trans (by decide +kernel)⟩

end Tree

end PiBlocks
