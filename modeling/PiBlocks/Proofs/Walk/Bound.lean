import PiBlocks.Proofs.Review.Agreement
import PiBlocks.Proofs.Walk.Definitions
import PiBlocks.Proofs.Walk.Inside

/-!
# Names that are printed as bound

A restriction, a receipt or a definition prints the names it binds, and the scope it opens
declares them. Both lists are made of the same names (`Block.bound`). Printing takes those that
are not empty (`Block.ownText_of_isBinder`) ; a scope takes none that is the mark either. So the
lists are the same as long as the mark is not among the names (`Scope.declarable_eq_iff`), and a
restriction of one name is not printed at all if it is.

The scope of a block lies under the keys of the blocks around it, the outermost first
(`Step.keys`) ; a chain that is reached is the one inside of the scope that these keys lead to
(`Reached.at?_keys`).
-/

namespace PiBlocks

open Block

/-- Whether blocks of the kind print names as bound. -/
def Kind.isBinder : Kind → Bool
  | .restrict | .multiRestrict | .receive | .multiReceive | .process => true
  | _ => false

theorem Kind.isTerm_of_isBinder {kind : Kind} (h : kind.isBinder = true) :
    kind.isTerm = true := by
  cases kind <;> first | rfl | cases h

/-- The scope takes up all the names if each is one that can be selected. -/
theorem Scope.declarable_eq_iff {names : List String} (hfull : "" ∉ names) :
    declarable names = names ↔ unresolved ∉ names := by
  have hselects : ∀ name ∈ names, selectsNothing name = decide (name = unresolved) := by
    intro name hname
    have hne : name ≠ "" := fun h => hfull (h ▸ hname)
    simp [selectsNothing, hne]
  rw [declarable, List.filter_eq_self]
  constructor
  · intro h hmem
    simpa [hselects unresolved hmem] using h unresolved hmem
  · intro h name hname
    have hne : name ≠ unresolved := fun heq => h (heq ▸ hname)
    simp [hselects name hname, hne]

namespace Block

variable {block : Block}

/-! ## Texts of binders -/

/-- The names a block has for the chain inside, as they are printed. -/
def bound (block : Block) : List String :=
  match block.kind with
  | .restrict | .receive => [block.field FieldName.new]
  | .multiRestrict | .multiReceive => namesIn FieldName.new (block.chain SlotName.names)
  | .process => namesIn FieldName.new (block.chain SlotName.params)
  | _ => []

theorem binds_eq (block : Block) : block.binds = Scope.declarable block.bound := rfl

/-- The text in which a block binds names, given the texts of its channel and of the chain
inside. -/
def textBinding (block : Block) (names : List String) (channel body : String) : String :=
  match block.kind with
  | .restrict | .multiRestrict =>
    continued (Text.join ". " (names.map fun name => "$" ++ name)) body
  | .receive | .multiReceive => continued (Text.join ". " (names.map (receiveText channel))) body
  | .process => definitionText (block.field FieldName.process) names body
  | _ => ""

theorem empty_not_mem_namesIn (field : String) (chain : List Block) :
    "" ∉ namesIn field chain := by
  simp [namesIn]

theorem selectsNothing_eq_false_iff {name : String} :
    selectsNothing name = false ↔ name ≠ "" ∧ name ≠ unresolved := by
  rw [selectsNothing, Bool.or_eq_false_iff, decide_eq_false_iff_not, ← Bool.not_eq_true,
    String.isEmpty_iff]

/-- A binder that has text prints the names it has, and none of them is empty. -/
theorem ownText_of_isBinder (hkind : block.kind.isBinder = true) {parts : Parts} {scopes : Scopes}
    (htext : parts.ownText scopes block.kind block.fields block.slots ≠ "") :
    parts.ownText scopes block.kind block.fields block.slots =
        block.textBinding block.bound parts.first parts.body ∧
      "" ∉ block.bound ∧ (block.kind = .restrict → unresolved ∉ block.bound) := by
  obtain ⟨id, kind, fields, slots⟩ := block
  cases kind with
  | restrict =>
    obtain ⟨hnothing, -⟩ := ite_ne_left_iff.1 htext
    obtain ⟨hempty, hmark⟩ := selectsNothing_eq_false_iff.1 (Bool.eq_false_iff.2 hnothing)
    exact ⟨if_neg hnothing, fun h => hempty (List.mem_singleton.1 h).symm,
      fun _ h => hmark (List.mem_singleton.1 h).symm⟩
  | receive =>
    obtain ⟨hnothing, -⟩ := ite_ne_left_iff.1 htext
    obtain ⟨hempty, -⟩ : (Block.mk id .receive fields slots).field FieldName.new ≠ "" ∧ _ := by
      simpa [field_mk] using hnothing
    exact ⟨if_neg hnothing, fun h => hempty (List.mem_singleton.1 h).symm, fun h => by cases h⟩
  | multiRestrict | multiReceive =>
    obtain ⟨hnothing, -⟩ := ite_ne_left_iff.1 htext
    exact ⟨if_neg hnothing, empty_not_mem_namesIn _ _, fun h => by cases h⟩
  | process => exact ⟨rfl, empty_not_mem_namesIn _ _, fun h => by cases h⟩
  | _ => cases hkind

end Block

/-- A binder that selects names opens a scope. -/
theorem Block.exists_scope? {block : Block} (hkind : block.kind.isBinder = true)
    (hfull : "" ∉ block.bound) (hrestrict : block.kind = .restrict → unresolved ∉ block.bound) :
    ∃ scopeKind, block.scope? = some scopeKind := by
  obtain ⟨id, kind, fields, slots⟩ := block
  cases kind with
  | restrict =>
    have hselects : selectsNothing ((Block.mk id .restrict fields slots).field FieldName.new) =
        false := selectsNothing_eq_false_iff.2
      ⟨fun h => hfull (List.mem_singleton.2 h.symm),
        fun h => hrestrict rfl (List.mem_singleton.2 h.symm)⟩
    exact ⟨_, if_neg fun h => Bool.false_ne_true (hselects.symm.trans h.2)⟩
  | multiRestrict | receive | multiReceive | process => exact ⟨_, if_neg fun h => by cases h.1⟩
  | _ => cases hkind

/-! ## Where scopes lie -/

/-- The keys of the scopes around a place, the outermost first. -/
def Step.keys (trail : List Step) : List String :=
  (Step.owners trail).reverse.map fun block => Scope.key block.id

section

variable {root chain : List Block} {trail : List Step} {global : Scope} {head : Block}
  {begin run : Run}

/-- The keys around a chain that is reached lead to the scope in which its blocks have theirs. -/
theorem Reached.at?_keys (hroot : (keysOf root).Nodup)
    (hglobal : ∀ block ∈ root, global.child? (Scope.key block.id) = block.ownScope?)
    (h : Reached root trail chain) : chain ≠ [] →
      ∃ scope, global.at? (Step.keys trail) = some scope ∧
        ∀ block ∈ chain, scope.child? (Scope.key block.id) = block.ownScope? := by
  induction h with
  | root => exact fun _ => ⟨global, rfl, hglobal⟩
  | previous _ ih =>
    intro _
    obtain ⟨scope, hscope, hchild⟩ := ih (List.cons_ne_nil _ _)
    exact ⟨scope, hscope, fun block hblock => hchild block (List.mem_cons_of_mem _ hblock)⟩
  | @owner trail block rest reached ih =>
    intro hbody
    obtain ⟨scope, hscope, hchild⟩ := ih (List.cons_ne_nil _ _)
    have hown := hchild block List.mem_cons_self
    have hnodup := reached.owner.nodup hroot
    have hkeys : Step.keys (.owner block :: trail) = Step.keys trail ++ [Scope.key block.id] := by
      simp [Step.keys, Step.owners]
    cases hkind : block.scope? with
    | none => exact absurd (body_of_scope?_eq_none hkind) hbody
    | some kind =>
      rw [hkeys, Scope.at?_concat, hscope, Option.bind_some, hown, ownScope?, hkind]
      exact ⟨_, rfl, get?_scopesIn hnodup⟩

/-- What the walk comes to is reached. -/
theorem Block.Comes.reached (h : Comes head begin trail chain run) :
    Reached [head] trail chain := by
  induction h with
  | head => exact .root
  | previous _ ih => exact ih.previous
  | owner _ ih => exact ih.owner

end

/-! ## Printed and declared -/

/-- The text of the channel, read where the block stands. -/
def Visit.channelText (visit : Visit) : String :=
  (visit.site.block.parts visit.site.trail visit.run).first

namespace Tree

variable {tree : Tree} {scopes : Scopes} {visit : Visit}

/-- The scope of a term that counts, under the keys around the term. -/
theorem scope?_of_mem_visits (placed : tree.wellPlaced = true)
    (distinct : (tree.ids.map Scope.key).Nodup) (h : visit ∈ tree.visits scopes)
    (hterm : visit.site.block.kind.isTerm = true)
    (hcounts : visit.run.counts visit.site.block.kind = true) :
    tree.snapshot.global.at? (Step.keys visit.site.trail ++ [Scope.key visit.site.block.id]) =
      visit.site.block.ownScope? := by
  have hroots : ∀ root ∈ tree.visitOrder, root.wellPlaced = true :=
    fun root => wellPlaced_of_mem placed
  obtain ⟨before, root, after, horder, hgate, -, comes⟩ := Root.comes_roots hroots rfl
    (Scopes.Around.begin scopes) h hterm hcounts
  have hroot : root ∈ tree.visitOrder := by simp [horder]
  have hnodup : (keysOf root.chain).Nodup :=
    (List.nodup_flatMap.1 (tree.nodup_visitOrder distinct)).1 root hroot
  rw [Root.chain_of_opensGate (hroots root hroot) hgate] at hnodup
  obtain ⟨scope, hscope, hchild⟩ := comes.reached.at?_keys hnodup (fun block hblock => by
    obtain rfl := List.mem_singleton.1 hblock
    exact child?_snapshot distinct (tree.mem_visitOrder.1 hroot) hgate) (List.cons_ne_nil _ _)
  rw [Scope.at?_concat, hscope, Option.bind_some, hchild _ List.mem_cons_self]

/-- The text of a binder is made of the names it has. -/
theorem text_of_isBinder (placed : tree.wellPlaced = true) (h : visit ∈ tree.visits scopes)
    (hkind : visit.site.block.kind.isBinder = true) (htext : visit.text ≠ "") :
    visit.run.counts visit.site.block.kind = true ∧
      visit.text = visit.site.block.textBinding visit.site.block.bound visit.channelText
        visit.bodyText ∧
      "" ∉ visit.site.block.bound ∧
      (visit.site.block.kind = .restrict → unresolved ∉ visit.site.block.bound) := by
  have htelling := telling_of_mem_visits h
  have hcounts : visit.run.counts visit.site.block.kind = true := by
    by_contra hnot
    refine htext (htelling.text.trans ?_)
    rw [traceBlock_of_not_counts (Bool.eq_false_iff.2 hnot)]
  have hown : visit.text = (visit.site.block.parts visit.site.trail visit.run).ownText
      (visit.site.block.finish visit.site.trail visit.run).scopes visit.site.block.kind
      visit.site.block.fields visit.site.block.slots :=
    htelling.text.trans (value_traceBlock _ _
      (tree.wellPlaced_of_mem_sites placed htelling.site) (Kind.isTerm_of_isBinder hkind) hcounts)
  exact ⟨hcounts, hown ▸ ownText_of_isBinder hkind (hown ▸ htext)⟩

/-- A binder that has text prints names as bound, and its scope in the committed snapshot has
those of them that are not the mark. So what is printed is what is declared, in order, if and only
if the mark is not printed. A restriction of one name never prints it. -/
theorem names_eq_bound_iff (placed : tree.wellPlaced = true)
    (distinct : (tree.ids.map Scope.key).Nodup) (canonical : Bool)
    (h : visit ∈ tree.visits scopes) (hkind : visit.site.block.kind.isBinder = true)
    (htext : visit.text ≠ "") :
    visit.text = visit.site.block.textBinding visit.site.block.bound visit.channelText
        visit.bodyText ∧
      ∃ scope, (tree.pass scopes canonical).2.committed.global.at?
          (Step.keys visit.site.trail ++ [Scope.key visit.site.block.id]) = some scope ∧
        scope.names = Scope.declarable visit.site.block.bound ∧
        (scope.names = visit.site.block.bound ↔ unresolved ∉ visit.site.block.bound) ∧
        (visit.site.block.kind = .restrict → scope.names = visit.site.block.bound) := by
  obtain ⟨hcounts, hbinding, hfull, hrestrict⟩ := text_of_isBinder placed h hkind htext
  have hcommitted : (tree.pass scopes canonical).2.committed = tree.snapshot := by
    simp only [pass, generate_eq]
    exact tree.active_trace placed distinct scopes
  have hscope := scope?_of_mem_visits placed distinct h (Kind.isTerm_of_isBinder hkind) hcounts
  obtain ⟨scopeKind, hopens⟩ := Block.exists_scope? hkind hfull hrestrict
  rw [ownScope?, hopens] at hscope
  refine ⟨hbinding, .mk scopeKind visit.site.block.binds (scopesIn visit.site.block.body),
    hcommitted ▸ hscope, binds_eq _, Scope.declarable_eq_iff hfull, fun h => ?_⟩
  exact (Scope.declarable_eq_iff hfull).2 (hrestrict h)

/-- A program that restricts several names and then ends. -/
def restrictingAll (names : List String) : Tree :=
  program [.mk "restrict" .multiRestrict []
    [(SlotName.names, names.zipIdx.map fun (name, i) =>
        .mk ("name " ++ toString i) .restrictName [(FieldName.new, name)] []),
      (SlotName.scope, [.mk "end" .termination [] []])]]

theorem nodup_keys_restrictingAll :
    ((restrictingAll ["x", "y", "x"]).ids.map Scope.key).Nodup := by
  decide +kernel

theorem names_eq_bound_restrictingAll : (restrictingAll ["x", "y", "x"]).wellPlaced = true ∧
    ((restrictingAll ["x", "y", "x"]).ids.map Scope.key).Nodup ∧
    ∃ visit ∈ (restrictingAll ["x", "y", "x"]).visits {},
      visit.site.block.kind.isBinder = true ∧ visit.text = "$x. $y. $x. 0" ∧
      ∃ scope, ((restrictingAll ["x", "y", "x"]).pass {} true).2.committed.global.at?
          (Step.keys visit.site.trail ++ [Scope.key visit.site.block.id]) = some scope ∧
        scope.names = ["x", "y", "x"] := by
  have distinct := nodup_keys_restrictingAll
  obtain ⟨visit, h, hkind, htext, hbound⟩ : ∃ visit ∈ (restrictingAll ["x", "y", "x"]).visits {},
      visit.site.block.kind.isBinder = true ∧ visit.text = "$x. $y. $x. 0" ∧
        visit.site.block.bound = ["x", "y", "x"] := by decide +kernel
  obtain ⟨-, scope, hscope, -, hiff, -⟩ := names_eq_bound_iff (by decide) distinct true h hkind
    (by rw [htext]; decide)
  have hnames := hiff.2 (by rw [hbound]; decide)
  exact ⟨by decide, distinct, visit, h, hkind, htext, scope, hscope, hnames.trans hbound⟩

/-- A restriction of several names prints the mark, and its scope does not have it. -/
theorem unresolved_printed_not_declared :
    (restrictingAll ["x", unresolved]).wellPlaced = true ∧
    ((restrictingAll ["x", unresolved]).ids.map Scope.key).Nodup ∧
    ∃ visit ∈ (restrictingAll ["x", unresolved]).visits {},
      visit.site.block.kind.isBinder = true ∧
      visit.text = "$x. $__VISPI_INVALID_NAME__. 0" ∧
      visit.site.block.bound = ["x", unresolved] ∧
      (((restrictingAll ["x", unresolved]).pass {} true).2.committed.global.at?
        [Scope.key "main", Scope.key visit.site.block.id]).map Scope.names = some ["x"] := by
  decide +kernel

end Tree

end PiBlocks
