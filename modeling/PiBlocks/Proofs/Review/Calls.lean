import PiBlocks.Proofs.Review.Agreement
import PiBlocks.Proofs.Walk.Definitions
import Mathlib.Data.List.Forall2

/-!
# Calls without warnings

The check of a call asks whether the process is known and counts arguments. The text of the call
has one text for each argument, and the definition of the process has a line if there is
something in it. So a call without warnings is not closed in the text as it stands
(`Tree.not_closed_without_warnings`) : the line is there if and only if a definition of the process
gives more than blanks, and an argument has text if and only if its slot is filled and the name
of the reference is bound there (`Tree.closed_of_no_warning`).
-/

namespace PiBlocks

open Block

/-! ## Arguments -/

/-- The references in a slot of the blocks of a chain, `none` where the slot is empty. -/
def Block.itemSites (slot : String) (trail : List Step) : List Block → List (Option Site)
  | [] => []
  | item :: rest =>
    ((item.chain slot).head?.map fun reference => ⟨reference, [], .owner item :: trail⟩) ::
      itemSites slot (.previous item :: trail) rest

/-- The references in the arguments of a call. -/
def Site.arguments (site : Site) : List (Option Site) :=
  Block.itemSites SlotName.arg (.owner site.block :: site.trail)
    (site.block.chain SlotName.args)

/-- What an argument gives : the text of the visit of its reference, or nothing. -/
def Run.Gives (run : Run) (visits : List Visit) : Option Site → String → Prop
  | none, text => text = ""
  | some site, text => site.block.kind = .reference ∧ ⟨site, run, text⟩ ∈ visits

theorem Run.Gives.mono {run : Run} {visits visits' : List Visit} (hvisits : visits ⊆ visits') :
    ∀ {argument : Option Site} {text : String}, run.Gives visits argument text →
      run.Gives visits' argument text
  | none, _, h => h
  | some _, _, h => ⟨h.1, hvisits h.2⟩

namespace Block

variable {block : Block} {run : Run} {name : String}

theorem length_itemSites (slot : String) : ∀ (trail) (chain : List Block),
    (itemSites slot trail chain).length = chain.length
  | _, [] => rfl
  | _, _ :: rest => congrArg Nat.succ (length_itemSites slot _ rest)

theorem gives_value (hopen : run.emitting = true) (hname : name ∈ SlotName.values) (trail)
    (placed : block.wellPlaced = true) :
    run.Gives (traceSlot trail (some name) block.slots run).visits
      ((block.chain name).head?.map fun reference => ⟨reference, [], trail⟩)
      (traceSlot trail (some name) block.slots run).value := by
  rw [traceSlot_some]
  rcases chain_of_mem_values hname (wellPlaced_chain placed name) with hchain | ⟨reference, hchain⟩
  · rw [hchain]
    change run.Gives (traceChain trail (block.chain name) run).visits none
      (traceChain trail (block.chain name) run).value
    simp [hchain, traceChain, Run.Gives]
  · have hkind := kind_of_mem_values placed hname (hchain ▸ List.mem_cons_self)
    have hcounts : (traceBlock trail [] reference run).run.counts reference.kind = true := by
      rw [run_reference trail [] hkind]
      exact counts_of_emitting _ hopen
    rw [hchain]
    change run.Gives (traceChain trail (block.chain name) run).visits _
      (traceChain trail (block.chain name) run).value
    rw [hchain, value_traceChain_singleton hcounts, traceChain_singleton]
    exact ⟨hkind, head_mem_visits trail [] reference run⟩

theorem gives_items (hopen : run.emitting = true) (hname : name ∈ SlotName.values) :
    ∀ (trail) {chain : List Block}, (∀ block ∈ chain, block.wellPlaced = true) →
      List.Forall₂ (run.Gives (traceItems trail name chain run).visits)
        (itemSites name trail chain) (traceItems trail name chain run).value
  | trail, [], _ => by simp [traceItems, itemSites]
  | trail, .mk id kind fields slots :: rest, placed => by
    have hplaced := placed _ List.mem_cons_self
    have hown : (traceSlot (.owner (.mk id kind fields slots) :: trail) (some name) slots run).run =
        run := run_value _ run hplaced (by simpa using hname)
    have hvalue := gives_value hopen hname (.owner (.mk id kind fields slots) :: trail) hplaced
    have hrest := gives_items hopen hname (.previous (.mk id kind fields slots) :: trail)
      fun block hb => placed block (List.mem_cons_of_mem _ hb)
    rw [traceItems, itemSites, hown]
    exact .cons (hvalue.mono (List.subset_append_left _ _))
      (hrest.imp fun _ _ => .mono (List.subset_append_right _ _))

/-- A call that has text is inside of a program or definition, and has the texts that its
arguments give there. -/
theorem text_call {sites : List Site} {visits : List Visit} {visit : Visit}
    (h : Telling sites visits visit) (placed : visit.site.block.wellPlaced = true)
    (hkind : visit.site.block.kind = .call) (htext : visit.text ≠ "") :
    visit.run.emitting = true ∧
      selectsNothing (visit.site.block.field FieldName.processName) = false ∧
      ∃ args, List.Forall₂ (visit.run.Gives visits) visit.site.arguments args ∧
        visit.text = callText (visit.site.block.field FieldName.processName) args := by
  obtain ⟨⟨⟨id, kind, fields, slots⟩, followers, trail⟩, run, text⟩ := visit
  obtain rfl : kind = .call := hkind
  have htext : text ≠ "" := htext
  have hvalue := h.text
  have hbelow := h.below
  by_cases hc : run.counts .call = true
  · have hopen : run.emitting = true := by simpa [Run.counts, Kind.bypassesGate] using hc
    cases hname : selectsNothing ((OrderedMap.get? FieldName.processName fields).getD "") with
    | true =>
      refine absurd hvalue ?_
      simpa [traceBlock, hc, Parts.ownText, hname] using htext
    | false =>
      simp only [traceBlock, hc, Plan.ofBlock, Parts.ownText, hname, Bool.not_true,
        Bool.false_eq_true, if_false, traceSlot_none, traceItemsIn_some, List.nil_append,
        List.append_nil] at hvalue hbelow
      refine ⟨hopen, hname, _, ?_, hvalue⟩
      have harg : SlotName.arg ∈ SlotName.values := by simp [SlotName.values]
      have hargs : ∀ inner ∈ (Block.mk id .call fields slots).chain SlotName.args,
          inner.wellPlaced = true := fun inner => wellPlaced_of_mem placed
      have hgives := gives_items hopen harg (.owner (.mk id .call fields slots) :: trail) hargs
      exact hgives.imp fun _ _ => .mono fun _ hmem => hbelow (List.mem_cons_of_mem _ hmem)
  · refine absurd hvalue ?_
    simpa [traceBlock, hc] using htext

/-- Items without scope keep the way back as it is. -/
theorem straight_of_mem_itemSites {slot : String} {site : Site} :
    ∀ {chain : List Block} {trail : List Step}, (∀ item ∈ chain, item.kind.opensScope = false) →
      Step.straight trail = true → some site ∈ itemSites slot trail chain →
        Step.straight site.trail.tail = true
  | [], _, _, _, h => by simp [itemSites] at h
  | item :: rest, trail, hscope, hstraight, h => by
    rw [itemSites, List.mem_cons] at h
    rcases h with h | h
    · obtain ⟨reference, -, rfl⟩ := Option.map_eq_some_iff.1 h.symm
      exact hstraight
    · refine straight_of_mem_itemSites (fun block hb => hscope block (List.mem_cons_of_mem _ hb))
        ?_ h
      simp [Step.straight, Step.passes, hscope item List.mem_cons_self, hstraight]

end Block

/-- If the text of a reference is decided by a property, all arguments have text if and only if
all slots are filled with references that have it. -/
theorem Run.forall_ne_empty_iff {run : Run} {visits : List Visit} {P : Site → Prop}
    {arguments : List (Option Site)} {args : List String}
    (h : List.Forall₂ (run.Gives visits) arguments args)
    (decides : ∀ site, some site ∈ arguments → ∀ text, run.Gives visits (some site) text →
      (text ≠ "" ↔ P site)) :
    (∀ arg ∈ args, arg ≠ "") ↔ ∀ argument ∈ arguments, ∃ reference ∈ argument, P reference := by
  induction h with
  | nil => simp
  | @cons argument text arguments args hgives _ ih =>
    have hhead : text ≠ "" ↔ ∃ reference ∈ argument, P reference := by
      cases argument with
      | none => simpa [Run.Gives] using hgives
      | some site => simpa using decides site List.mem_cons_self text hgives
    rw [List.forall_mem_cons, List.forall_mem_cons, hhead,
      ih fun site hsite => decides site (List.mem_cons_of_mem _ hsite)]

/-- All argument texts count if none is empty. -/
theorem length_filter_nonempty (args : List String) :
    (args.filter fun arg => !arg.isEmpty).length = args.length ↔ ∀ arg ∈ args, arg ≠ "" := by
  simp [List.length_filter_eq_length_iff]

/-! ## Warnings of calls -/

/-- There is a warning about the block with an id. -/
def Generation.WarnsOf (generation : Generation) (id : String) : Prop :=
  ∃ warning ∈ generation.warnings, warning.block = id

instance (generation : Generation) (id : String) : Decidable (generation.WarnsOf id) :=
  inferInstanceAs (Decidable (∃ warning ∈ generation.warnings, warning.block = id))

theorem Site.callProblem_eq_none_iff (site : Site) (snapshot : Snapshot) :
    site.callProblem snapshot = none ↔
      selectsNothing (site.block.field FieldName.processName) = false ∧
        snapshot.hasProcess (site.block.field FieldName.processName) = true ∧
        (snapshot.params (site.block.field FieldName.processName)).length =
          (site.block.chain SlotName.args).length := by
  change (if selectsNothing (site.block.field FieldName.processName) = true then _ else _) =
    none ↔ _
  split_ifs with hnothing hknown <;> simp_all

namespace Tree

variable {tree : Tree} {scopes : Scopes} {canonical : Bool} {visit : Visit}

theorem problem_eq_none {site : Site} (hsite : site ∈ tree.sites)
    (h : ¬(tree.pass scopes canonical).1.WarnsOf site.block.id) :
    site.problem (tree.pass scopes canonical).2.committed = none := by
  cases hproblem : site.problem (tree.pass scopes canonical).2.committed with
  | none => rfl
  | some problem =>
    refine absurd ⟨⟨problem, site.block.id⟩, ?_, rfl⟩ h
    have hwarnings : (tree.pass scopes canonical).1.warnings =
        tree.warnings (tree.pass scopes canonical).2.committed := rfl
    rw [hwarnings]
    exact List.mem_filterMap.2 ⟨site, hsite, by simp [hproblem]⟩

theorem opensScope_of_argument (placed : tree.wellPlaced = true) {site : Site}
    (hsite : site ∈ tree.sites) :
    ∀ item ∈ site.block.chain SlotName.args, item.kind.opensScope = false := fun _ =>
  opensScope_of_item (tree.wellPlaced_of_mem_sites placed hsite) (.inl rfl)

/-- A call that has text and no warning selects a process that a visited definition has, and
that process has a line if and only if something is in a definition. The call has as many
argument texts as the process has parameters. If keys are distinct, these are non-empty if and
only if every slot is filled and the names of the references are bound, and they are non-empty
if the references have no warnings and no block in front of the call or around it opens a scope. -/
theorem closed_of_no_warning (placed : tree.wellPlaced = true) (h : visit ∈ tree.visits scopes)
    (hkind : visit.site.block.kind = .call) (htext : visit.text ≠ "") (canonical : Bool)
    (hwarn : ¬(tree.pass scopes canonical).1.WarnsOf visit.site.block.id) :
    ((∃ definition ∈ tree.visits scopes,
          definition.Defines (visit.site.block.field FieldName.processName)) ∧
        (tree.HasLineOf scopes (visit.site.block.field FieldName.processName) ↔
          ∃ definition ∈ tree.visits scopes,
            definition.Defines (visit.site.block.field FieldName.processName) ∧
              Text.isBlank definition.bodyText = false)) ∧
      ∃ args, List.Forall₂ (visit.run.Gives (tree.visits scopes)) visit.site.arguments args ∧
        visit.text = callText (visit.site.block.field FieldName.processName) args ∧
        args.length = ((tree.pass scopes canonical).2.committed.params
          (visit.site.block.field FieldName.processName)).length ∧
        ((tree.ids.map Scope.key).Nodup →
          ((args.filter fun arg => !arg.isEmpty).length =
              ((tree.pass scopes canonical).2.committed.params
                (visit.site.block.field FieldName.processName)).length ↔
            ∀ argument ∈ visit.site.arguments, ∃ reference ∈ argument,
              tree.Binds reference (reference.block.field FieldName.name)) ∧
          (Step.straight visit.site.trail = true →
            (∀ argument ∈ visit.site.arguments, ∃ reference ∈ argument,
              ¬(tree.pass scopes canonical).1.WarnsOf reference.block.id) →
            (args.filter fun arg => !arg.isEmpty).length =
              ((tree.pass scopes canonical).2.committed.params
                (visit.site.block.field FieldName.processName)).length)) := by
  have htelling := telling_of_mem_visits h
  have hplaced := tree.wellPlaced_of_mem_sites placed htelling.site
  obtain ⟨hopen, hprocess, args, hgives, hcall⟩ := text_call htelling hplaced hkind htext
  have hproblem := problem_eq_none htelling.site hwarn
  rw [Site.problem, hkind] at hproblem
  obtain ⟨-, hknown, harity⟩ := (Site.callProblem_eq_none_iff _ _).1 hproblem
  have hname : visit.site.block.field FieldName.processName ≠ "" := by
    rintro hempty
    rw [hempty] at hprocess
    cases hprocess
  have hlength : args.length = ((tree.pass scopes canonical).2.committed.params
      (visit.site.block.field FieldName.processName)).length := by
    rw [← hgives.length_eq, Site.arguments, length_itemSites, harity]
  refine ⟨⟨exists_visit_of_hasProcess hknown, hasLineOf_iff placed hname⟩, args, hgives, hcall,
    hlength, fun distinct => ?_⟩
  rw [← hlength, length_filter_nonempty]
  refine ⟨Run.forall_ne_empty_iff hgives fun site _ text hsite =>
    text_ne_empty_iff placed distinct hsite.2 hopen hsite.1, fun hstraight hsilent => ?_⟩
  have hbelow : Step.straight (.owner visit.site.block :: visit.site.trail) = true := hstraight
  have hagrees := Run.forall_ne_empty_iff
    (P := fun site => ¬(tree.pass scopes canonical).1.WarnsOfName site.block.id) hgives
    fun site hmem text hsite => agrees_of_straight placed distinct hsite.2 hopen hsite.1
      (straight_of_mem_itemSites (opensScope_of_argument placed htelling.site) hbelow hmem)
      canonical
  refine hagrees.2 fun argument harg => ?_
  obtain ⟨reference, hreference, hnone⟩ := hsilent argument harg
  refine ⟨reference, hreference, ?_⟩
  rintro ⟨warning, hmem, hid, -⟩
  exact hnone ⟨warning, hmem, hid⟩

/-- A definition of a process. -/
def defining (params chain : List Block) : Tree where
  roots := [⟨.mk "definition" .process [(FieldName.process, "P")]
    [(SlotName.params, params), (SlotName.body, chain)], [], none⟩]

/-- A parameter of the process. -/
def parameter : Block := .mk "parameter" .parameter [(FieldName.new, "x")] []

/-- A call of the process with one argument. -/
def calling (value : List Block) : Block :=
  .mk "call" .call [(FieldName.processName, "P")]
    [(SlotName.args, [.mk "argument" .argument [] [(SlotName.arg, value)]])]

/-- A definition of a process that calls itself with its parameter. -/
def recurring : Tree :=
  defining [parameter] [calling [.mk "value" .reference [(FieldName.name, "x")] []]]

theorem closed_of_no_warning_recurring :
    recurring.wellPlaced = true ∧ (recurring.ids.map Scope.key).Nodup ∧
      ∃ visit ∈ recurring.visits {}, visit.site.block.kind = .call ∧ visit.text = "P(x)" ∧
        ¬(recurring.pass {} true).1.WarnsOf visit.site.block.id ∧ recurring.HasLineOf {} "P" ∧
        ∃ args, visit.text = callText "P" args ∧
          (args.filter fun arg => !arg.isEmpty).length =
            ((recurring.pass {} true).2.committed.params "P").length := by
  have placed : recurring.wellPlaced = true := by decide +kernel
  have distinct : (recurring.ids.map Scope.key).Nodup := by decide +kernel
  obtain ⟨visit, h, hkind, htext, hwarn, hname, hstraight, hsilent⟩ :
      ∃ visit ∈ recurring.visits {}, visit.site.block.kind = .call ∧ visit.text = "P(x)" ∧
        ¬(recurring.pass {} true).1.WarnsOf visit.site.block.id ∧
        visit.site.block.field FieldName.processName = "P" ∧
        Step.straight visit.site.trail = true ∧
        ∀ argument ∈ visit.site.arguments, ∃ reference ∈ argument,
          ¬(recurring.pass {} true).1.WarnsOf reference.block.id := by
    decide +kernel
  obtain ⟨definition, hdefinition⟩ : ∃ definition ∈ recurring.visits {},
      (definition.site.block.kind = .process ∧
        definition.site.block.field FieldName.process = "P") ∧
      Text.isBlank definition.bodyText = false := by
    decide +kernel
  have hclosed := closed_of_no_warning placed h hkind (by simp [htext]) true hwarn
  rw [hname] at hclosed
  obtain ⟨⟨-, hline⟩, args, -, hcall, -, hargs⟩ := hclosed
  exact ⟨placed, distinct, visit, h, hkind, htext, hwarn, hline.2 ⟨definition, hdefinition⟩,
    args, hcall, (hargs distinct).2 hstraight hsilent⟩

/-- The definition of a process is dropped if there is nothing but a reception without channel in
it, and the call behind that is not warned about. Neither is a call with an empty argument. -/
theorem not_closed_without_warnings :
    (∃ tree, tree = defining [] [.mk "receive" .receive [(FieldName.new, "x")]
          [(SlotName.scope, [.mk "call" .call [(FieldName.processName, "P")] []])]] ∧
      tree.wellPlaced = true ∧ (tree.ids.map Scope.key).Nodup ∧
      (tree.pass {} true).1.warnings = [] ∧
      (∃ visit ∈ tree.visits {}, visit.site.block.kind = .call ∧ visit.text = "P") ∧
      (tree.generate {}).1 = []) ∧
    ∃ tree, tree = defining [parameter] [calling []] ∧
      tree.wellPlaced = true ∧ (tree.ids.map Scope.key).Nodup ∧
      (tree.pass {} true).1.warnings = [] ∧
      ∃ visit ∈ tree.visits {}, visit.site.block.kind = .call ∧ visit.text = "P" ∧
        (tree.pass {} true).2.committed.params "P" = ["x"] := by
  exact ⟨⟨_, rfl, by decide +kernel⟩, ⟨_, rfl, by decide +kernel⟩⟩

end Tree

end PiBlocks
