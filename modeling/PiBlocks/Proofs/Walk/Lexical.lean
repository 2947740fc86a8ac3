import PiBlocks.Proofs.Walk.Values
import PiBlocks.Proofs.Walk.Visits

/-!
# Names are resolved lexically

A reference is printed if and only if its name is bound around it : by a global name, or by a
block whose chain inside leads to the reference through owners only (`Site.Encloses`). What
blocks before it in a chain, branches beside it or other chains of the top level declare does
not count, nor does what the block that holds it binds itself.

The invariant is `Run.Sees` : where the walk comes to a term, the visible names are the global
names and those bound by the owners on the trail (`Tree.lexical_of_mem_visits`). The names in
the open scopes follow the trail as the walk enters and leaves scopes (`Standing.Shows`).
-/

namespace PiBlocks

open Block

/-! ## What is reached -/

section

variable {root chain : List Block} {trail : List Step}

theorem mem_chain_of_mem_body {block : Block} {site : Site}
    (h : site ∈ sitesOf (.owner block :: trail) block.body) :
    ∃ slot, block.kind.bodySlot = some slot ∧
      site ∈ sitesOf (.owner block :: trail) (block.chain slot) := by
  rcases block.body_eq_nil_or with hbody | ⟨slot, hslot, hbody⟩
  · simp [hbody, sitesOf] at h
  · exact ⟨slot, hslot, hbody ▸ h⟩

theorem mem_sitesOf_of_mem_body {block : Block} {rest : List Block} {site : Site}
    (h : site ∈ sitesOf (.owner block :: trail) block.body) :
    site ∈ sitesOf trail (block :: rest) := by
  obtain ⟨slot, -, hsite⟩ := mem_chain_of_mem_body h
  rw [sitesOf]
  exact List.mem_cons_of_mem _
    (List.mem_append_left _ ((sitesOf_chain_sublist trail slot block).subset hsite))

theorem mem_sitesOf_of_mem_rest {block : Block} {rest : List Block} {site : Site}
    (h : site ∈ sitesOf (.previous block :: trail) rest) :
    site ∈ sitesOf trail (block :: rest) := by
  rw [sitesOf]
  exact List.mem_cons_of_mem _ (List.mem_append_right _ h)

/-- The sites of a chain that is reached are sites of the chain of the top level. -/
theorem Reached.sites_subset (h : Reached root trail chain) :
    ∀ site ∈ sitesOf trail chain, site ∈ sitesOf [] root := by
  induction h with
  | root => exact fun site h => h
  | previous _ ih => exact fun site h => ih site (mem_sitesOf_of_mem_rest h)
  | owner _ ih => exact fun site h => ih site (mem_sitesOf_of_mem_body h)

theorem Reached.placed (hroot : ∀ block ∈ root, block.wellPlaced = true)
    (h : Reached root trail chain) : ∀ block ∈ chain, block.wellPlaced = true := by
  induction h with
  | root => exact hroot
  | previous _ ih => exact fun block hb => ih block (List.mem_cons_of_mem _ hb)
  | owner _ ih => exact fun inner h => (isInner_of_mem_body (ih _ List.mem_cons_self) h).1

theorem mem_sitesOf_append (item : Block) (after : List Block) : ∀ (trail) (before : List Block),
    (⟨item, after, before.reverse.map .previous ++ trail⟩ : Site) ∈
        sitesOf trail (before ++ item :: after) ∧
      ∀ site ∈ sitesBelow (before.reverse.map .previous ++ trail) item,
        site ∈ sitesOf trail (before ++ item :: after)
  | trail, [] => by
    simp only [List.reverse_nil, List.map_nil, List.nil_append, sitesOf]
    exact ⟨List.mem_cons_self, fun site h => List.mem_cons_of_mem _ (List.mem_append_left _ h)⟩
  | trail, first :: before => by
    obtain ⟨hitem, hbelow⟩ := mem_sitesOf_append item after (.previous first :: trail) before
    have htrail : (first :: before).reverse.map Step.previous ++ trail =
        before.reverse.map .previous ++ .previous first :: trail := by simp
    rw [htrail, List.cons_append, sitesOf]
    exact ⟨List.mem_cons_of_mem _ (List.mem_append_right _ hitem),
      fun site h => List.mem_cons_of_mem _ (List.mem_append_right _ (hbelow site h))⟩

theorem HeldBy.mem_sitesBelow {holder : Block} {site : Site} (h : HeldBy holder trail site) :
    site ∈ sitesBelow trail holder := by
  cases h with
  | @value slot reference _ _ hchain =>
    refine (sitesOf_chain_sublist trail slot holder).subset ?_
    simp [hchain, sitesOf]
  | @item slot name before after item reference _ hchain _ _ hvalue =>
    refine (sitesOf_chain_sublist trail slot holder).subset ?_
    rw [hchain]
    refine (mem_sitesOf_append item after _ before).2 _ ?_
    refine (sitesOf_chain_sublist _ name item).subset ?_
    simp [hvalue, sitesOf]

end

/-! ## What is visible -/

/-- The names in the open scopes are the given ones and those that owners on the trail bind. -/
def Standing.Shows (place : Standing) (names : List String) (trail : List Step) : Prop :=
  ∀ name, (name ∈ place.scope.names ∨ ∃ frame ∈ place.outer, name ∈ frame.scope.names) ↔
    name ∈ names ∨ ∃ block ∈ Step.owners trail, name ∈ block.binds

/-- The visible names are the given ones and those that owners on the trail bind. -/
def Run.Sees (run : Run) (names : List String) (trail : List Step) : Prop :=
  ∀ name, run.scopes.isVisible name = true ↔
    name ∈ names ∨ ∃ block ∈ Step.owners trail, name ∈ block.binds

/-- What is true of a visit inside of a program or definition : it is at a term that is reached
or at a reference that such a term holds, and the names bound around the term are visible. -/
structure Visit.Lexical (names : List String) (root : List Block) (visit : Visit) : Prop where
  term : visit.site.block.kind.isTerm = true →
    Reached root visit.site.trail (visit.site.block :: visit.site.followers) ∧
      visit.run.Sees names visit.site.trail
  reference : visit.site.block.kind = .reference → ∃ holder rest trail,
    Reached root trail (holder :: rest) ∧ HeldBy holder trail visit.site ∧
      visit.run.Sees names trail

section

variable {names : List String} {root : List Block} {trail : List Step} {block : Block}
  {place : Standing} {run : Run}

theorem Block.selectsNothing_of_mem_binds {name : String} (h : name ∈ block.binds) :
    selectsNothing name = false := (Scope.mem_declarable.1 h).2

theorem Block.unresolved_not_mem_binds (block : Block) : unresolved ∉ block.binds := fun h =>
  Bool.false_ne_true (selectsNothing_of_mem_binds h).symm

theorem Standing.Shows.inside (h : place.Shows names trail) (kind : ScopeKind) :
    (place.inside block kind).Shows names (.owner block :: trail) := by
  intro name
  simp [Standing.inside, Step.owners, h name, or_left_comm]

theorem Standing.Shows.extend (h : place.Shows names trail) (inner : List (String × Scope)) :
    (place.extend [] inner).Shows names trail := by
  intro name
  simpa [Standing.extend] using h name

theorem Run.At.sees {coming : List String} (hat : run.At place coming)
    (hnames : unresolved ∉ names) (h : place.Shows names trail) : run.Sees names trail := by
  intro name
  rw [hat.scopes, Standing.scopes, Scopes.isVisible_opened hat.fresh, h name]
  refine and_iff_right_of_imp ?_
  rintro (hmem | ⟨block, -, hmem⟩) rfl
  · exact hnames hmem
  · exact block.unresolved_not_mem_binds hmem

theorem Visit.lexical_of_isName {visit : Visit} (h : visit.site.block.kind.isName = true) :
    visit.Lexical names root := by
  constructor <;> intro hkind <;> revert h <;> revert hkind <;>
    cases visit.site.block.kind <;>
    simp [Kind.isName, Kind.isTerm, Kind.isStatement, Kind.isBranch, Kind.opensGate]

namespace Block

/-- What the visits of a term are like if names are bound as the trail says. -/
def Found (names : List String) (root : List Block) (block : Block) : Prop :=
  ∀ (trail : List Step) (followers : List Block) {run : Run} {place : Standing}
    {more : List String}, block.wellPlaced = true → block.kind.isTerm = true →
    run.counts block.kind = true → run.At place (block.ownKeys ++ more) →
    Reached root trail (block :: followers) → place.Shows names trail →
    ∀ visit ∈ (traceBlock trail followers block run).visits, visit.Lexical names root

theorem found_chain : ∀ {chain : List Block} (trail : List Step) {run : Run} {place : Standing}
    {more : List String}, (∀ block ∈ chain, Found names root block) →
    (∀ block ∈ chain, block.IsInner) → run.emitting = true →
    run.At place (keysOf chain ++ more) → Reached root trail chain → place.Shows names trail →
    ∀ visit ∈ (traceChain trail chain run).visits, visit.Lexical names root
  | [], trail, run, place, more, _, _, _, _, _, _, visit, h => by simp [traceChain] at h
  | .mk id kind fields slots :: rest, trail, run, place, more, found, inner, hemitting, hat,
      reached, shows, visit, h => by
    rw [keysOf_cons, List.append_assoc] at hat
    obtain ⟨placed, hterm, hgate⟩ := inner _ List.mem_cons_self
    obtain ⟨hown, hstill⟩ := walked_step (walked (.mk id kind fields slots))
      ⟨placed, hterm, hgate⟩ trail rest hemitting hat
    simp only [traceChain, counts_of_emitting kind hstill, Bool.not_true, Bool.false_eq_true,
      if_false, List.mem_append] at h
    rcases h with h | h
    · exact found _ List.mem_cons_self trail rest placed hterm
        (counts_of_emitting _ hemitting) hat reached shows visit h
    · exact found_chain _ (fun block hb => found block (List.mem_cons_of_mem _ hb))
        (fun block hb => inner block (List.mem_cons_of_mem _ hb)) hstill hown reached.previous
        (shows.extend _) visit h

theorem found_of_body (hnames : unresolved ∉ names)
    (inside : ∀ inner ∈ block.body, Found names root inner) : Found names root block := by
  intro trail followers run place more placed hterm hcounts hat reached shows visit h
  have hsees := hat.sees hnames shows
  rcases mem_visits_traceBlock placed hterm hcounts h with ⟨hsite, hrun⟩ | ⟨hrun, hkind, held⟩ |
    hname | h
  · refine ⟨fun _ => hsite ▸ hrun ▸ ⟨reached, hsees⟩, fun hkind => ?_⟩
    rw [hsite] at hkind
    rw [hkind] at hterm
    cases hterm
  · refine ⟨fun hterm => ?_, fun _ => ⟨block, followers, trail, reached, held, hrun ▸ hsees⟩⟩
    rw [hkind] at hterm
    cases hterm
  · exact Visit.lexical_of_isName hname
  · cases hscope : block.scope? with
    | none => simp [walkInside, body_of_scope?_eq_none hscope, traceChain] at h
    | some kind =>
      have hopened : (block.start run).emitting = true := emitting_opened hterm hcounts
      exact found_chain _ inside (fun inner => isInner_of_mem_body placed) hopened
        (hat.start hscope) reached.owner (shows.inside kind) visit h

/-- In the walk over a term, names are visible as the trail says. -/
theorem found (hnames : unresolved ∉ names) (block : Block) : Found names root block :=
  body_induction (fun _ => found_of_body hnames) block

end Block

end

/-! ## The top level -/

namespace Root

variable {root : Root} {names : List String} {place : Standing} {run : Run} {more : List String}

theorem found (hnames : unresolved ∉ names) (placed : root.wellPlaced = true)
    (hlocal : root.isGlobal = false) (hemitting : run.emitting = false)
    (hat : run.At place (keysOf root.chain ++ more)) (shows : place.Shows names []) :
    ∀ visit ∈ (traceChain [] root.chain run).visits, visit.run.emitting = true →
      root.head.kind.opensGate = true ∧ visit.Lexical names root.chain := by
  intro visit h hopen
  by_cases hgate : root.head.kind.opensGate = true
  · have hterm := Kind.isTerm_of_opensGate hgate
    have hchain := chain_of_opensGate placed hgate
    rw [hchain, keysOf_cons, keysOf_nil, List.append_nil] at hat
    rw [hchain, traceChain_singleton] at h
    exact ⟨hgate, Block.found hnames root.head [] [] (of_wellPlaced placed _ List.mem_cons_self)
      hterm (counts_of_opensGate run hgate) hat (hchain ▸ .root) shows visit h⟩
  · rw [chain, traceChain_of_not_counts (not_counts_head hlocal (by simpa using hgate) hemitting),
      List.mem_singleton] at h
    rw [h, hemitting] at hopen
    cases hopen

theorem found_roots (hnames : unresolved ∉ names) : ∀ {roots : List Root} {run : Run}
    {place : Standing}, (∀ root ∈ roots, root.wellPlaced = true) →
    (∀ root ∈ roots, root.isGlobal = false) → run.emitting = false →
    run.At place ((roots.flatMap fun root => keysOf root.chain) ++ more) →
    place.Shows names [] → ∀ visit ∈ (traceRoots roots run).visits, visit.run.emitting = true →
      ∃ root ∈ roots, root.head.kind.opensGate = true ∧ visit.Lexical names root.chain
  | [], run, place, _, _, _, _, _, visit, h, _ => by simp [traceRoots] at h
  | root :: roots, run, place, placed, hlocal, hemitting, hat, shows, visit, h, hopen => by
    rw [List.flatMap_cons, List.append_assoc] at hat
    have hroot := placed root List.mem_cons_self
    have hfirst := hlocal root List.mem_cons_self
    obtain ⟨hown, hstill⟩ := walked hroot hemitting hat
    rcases List.mem_append.1 h with h | h
    · exact ⟨root, List.mem_cons_self,
        found hnames hroot hfirst hemitting hat shows visit h hopen⟩
    · have hpast : (root.pastChain place).Shows names [] := by
        rw [pastChain, globalNames, hfirst]
        exact shows.extend root.scopes
      obtain ⟨other, hother, hlexical⟩ := found_roots hnames
        (fun root hr => placed root (List.mem_cons_of_mem _ hr))
        (fun root hr => hlocal root (List.mem_cons_of_mem _ hr)) hstill hown hpast visit h hopen
      exact ⟨other, List.mem_cons_of_mem _ hother, hlexical⟩

/-- In chains of global names, nothing but names is visited. -/
theorem visits_globals : ∀ {roots : List Root} {run : Run},
    (∀ root ∈ roots, root.wellPlaced = true) → (∀ root ∈ roots, root.isGlobal = true) →
    ∀ visit ∈ (traceRoots roots run).visits, visit.site.block.kind.isName = true
  | [], run, _, _, visit, h => by simp [traceRoots] at h
  | root :: roots, run, placed, hglobal, visit, h => by
    rcases List.mem_append.1 h with h | h
    · have hkinds := kind_of_isGlobal (placed root List.mem_cons_self)
        (hglobal root List.mem_cons_self)
      exact visits_names [] root.chain run
        (fun block hb => by simp [hkinds block hb, Kind.isName]) visit h
    · exact visits_globals (fun root hr => placed root (List.mem_cons_of_mem _ hr))
        (fun root hr => hglobal root (List.mem_cons_of_mem _ hr)) visit h

end Root

namespace Tree

variable {tree : Tree}

theorem selectsNothing_of_mem_globalNames {name : String} (h : name ∈ tree.globalNames) :
    selectsNothing name = false := (Scope.mem_declarable.1 h).2

theorem unresolved_not_mem_globalNames : unresolved ∉ tree.globalNames := fun h =>
  Bool.false_ne_true (selectsNothing_of_mem_globalNames h).symm

/-- What a pass visits inside of programs and definitions, names apart, lies under a program or
definition, and names are visible there as the trail says. -/
theorem lexical_of_mem_visits (placed : tree.wellPlaced = true)
    (distinct : (tree.ids.map Scope.key).Nodup) {scopes : Scopes} {visit : Visit}
    (h : visit ∈ tree.visits scopes) (hopen : visit.run.emitting = true)
    (hkind : visit.site.block.kind.isName = false) :
    ∃ root ∈ tree.roots, root.head.kind.opensGate = true ∧
      visit.Lexical tree.globalNames root.chain := by
  have hroots : ∀ root ∈ tree.visitOrder, root.wellPlaced = true :=
    fun root => wellPlaced_of_mem placed
  have hat := tree.at_outset distinct scopes
  rw [visits, trace, visitOrder, Root.visits_traceRoots_append, List.mem_append] at h
  rw [visitOrder] at hroots hat
  rw [List.flatMap_append, List.append_assoc] at hat
  obtain ⟨hown, hstill⟩ := Root.walked_roots
    (fun root hr => hroots root (List.mem_append_left _ hr)) rfl hat
  have shows : (Root.pastChains (tree.ordered.filter Root.isGlobal)
      (outset scopes)).Shows tree.globalNames [] := by
    intro name
    rw [Root.pastChains_eq, flatMap_globalNames_of_isGlobal]
    simp [outset, Standing.extend, Scope.empty, Step.owners]
  rcases h with h | h
  · have hname := Root.visits_globals (fun root hr => hroots root (List.mem_append_left _ hr))
      (by simp) visit h
    rw [hkind] at hname
    cases hname
  · obtain ⟨root, hroot, hlexical⟩ := Root.found_roots unresolved_not_mem_globalNames
      (fun root hr => hroots root (List.mem_append_right _ hr)) (by simp) hstill hown shows
      visit h hopen
    exact ⟨root, tree.mem_visitOrder.1 (List.mem_append_right _ hroot), hlexical⟩

end Tree

/-! ## Binding -/

/-- The chain inside of the block at one site leads to the other site, through owners only. -/
def Site.Encloses (outer inner : Site) : Prop :=
  ∃ slot, outer.block.kind.bodySlot = some slot ∧
    inner ∈ sitesOf (.owner outer.block :: outer.trail) (outer.block.chain slot)

/-- A name is bound at a site : it is a valid name, and a global name or a block around the site
binds it. -/
def Tree.Binds (tree : Tree) (site : Site) (name : String) : Prop :=
  selectsNothing name = false ∧ (name ∈ tree.globalNames ∨
    ∃ outer ∈ tree.sites, outer.Encloses site ∧ name ∈ outer.block.binds)

section

variable {root chain rest : List Block} {trail : List Step} {holder block : Block} {site : Site}

/-- The owners on the trail of what is reached enclose it. -/
theorem Reached.encloses (h : Reached root trail chain) : ∀ block ∈ Step.owners trail,
    ∃ outer ∈ sitesOf [] root, outer.block = block ∧
      ∀ site ∈ sitesOf trail chain, outer.Encloses site := by
  induction h with
  | root => simp [Step.owners]
  | previous _ ih =>
    intro block hb
    obtain ⟨outer, houter, hblock, hencloses⟩ := ih block hb
    exact ⟨outer, houter, hblock, fun site h => hencloses site (mem_sitesOf_of_mem_rest h)⟩
  | @owner trail first rest reached ih =>
    intro block hb
    rcases List.mem_cons.1 hb with rfl | hb
    · refine ⟨⟨block, rest, trail⟩, reached.sites_subset _ ?_, rfl,
        fun site => mem_chain_of_mem_body⟩
      rw [sitesOf]
      exact List.mem_cons_self
    · obtain ⟨outer, houter, hblock, hencloses⟩ := ih block hb
      exact ⟨outer, houter, hblock, fun site h => hencloses site (mem_sitesOf_of_mem_body h)⟩

theorem mem_owners_of_suffix {outer : List Step} (h : (.owner block :: outer) <:+ trail) :
    block ∈ Step.owners trail := by
  induction trail with
  | nil => simp at h
  | cons step trail ih =>
    rcases List.suffix_cons_iff.1 h with heq | hrest
    · obtain ⟨rfl, -⟩ := List.cons.inj heq
      simp [Step.owners]
    · cases step with
      | previous _ => exact ih hrest
      | owner _ => exact List.mem_cons_of_mem _ (ih hrest)

theorem owners_previous_append (blocks : List Block) (trail : List Step) :
    Step.owners (blocks.map .previous ++ trail) = Step.owners trail := by
  induction blocks with
  | nil => rfl
  | cons _ _ ih => exact ih

theorem suffix_of_cons_suffix {step first : Step} {steps : List Step}
    (h : (step :: steps) <:+ first :: trail) : steps <:+ trail := by
  rcases List.suffix_cons_iff.1 h with heq | hrest
  · exact (List.cons.inj heq).2 ▸ List.suffix_refl _
  · exact (List.suffix_cons step steps).trans hrest

/-- A site in a chain is at its head or deeper. -/
theorem trail_of_mem_sitesOf (h : site ∈ sitesOf trail chain) :
    (site.trail = trail ∧ site.block ∈ chain) ∨ ∃ step, (step :: trail) <:+ site.trail := by
  cases chain with
  | nil => simp [sitesOf] at h
  | cons first rest =>
    rw [sitesOf, List.mem_cons, List.mem_append] at h
    rcases h with rfl | h | h
    · exact .inl ⟨rfl, List.mem_cons_self⟩
    · exact .inr ⟨_, suffix_of_mem_sitesBelow first trail h⟩
    · exact .inr ⟨_, suffix_of_mem_sitesOf rest _ h⟩

/-- What encloses a reference is an owner on the trail of its holder, or binds nothing. -/
theorem HeldBy.mem_owners (placed : holder.wellPlaced = true) (held : HeldBy holder trail site)
    {outer : Site} (h : outer.Encloses site) :
    outer.block ∈ Step.owners trail ∨ outer.block.binds = [] := by
  obtain ⟨slot, hslot, hsite⟩ := h
  cases held with
  | @value name reference _ hname hchain =>
    rcases trail_of_mem_sitesOf hsite with ⟨heq, hmem⟩ | ⟨step, hsuffix⟩
    · obtain ⟨howner, -⟩ := List.cons.inj heq
      obtain rfl : holder = outer.block := Step.owner.inj howner
      have hinner := isInner_of_mem_chain placed hslot hmem
      have hkind : reference.kind = .reference :=
        kind_of_mem_values placed hname (hchain ▸ List.mem_cons_self)
      rw [IsInner, hkind] at hinner
      cases hinner.2.1
    · exact .inl (mem_owners_of_suffix (suffix_of_cons_suffix hsuffix))
  | @item _ name before after item reference hholder hchain hitems hname hvalue =>
    rcases trail_of_mem_sitesOf hsite with ⟨heq, -⟩ | ⟨step, hsuffix⟩
    · obtain ⟨howner, -⟩ := List.cons.inj heq
      obtain rfl : item = outer.block := Step.owner.inj howner
      rw [Kind.bodySlot_eq_none (hitems _ (by simp))] at hslot
      cases hslot
    · have hmem := mem_owners_of_suffix (suffix_of_cons_suffix hsuffix)
      rw [owners_previous_append, Step.owners, List.mem_cons] at hmem
      refine hmem.symm.imp_right fun heq => ?_
      rw [heq, binds_eq_nil hholder]

end

namespace Block

/-- The text of a reference is its name if that is visible. -/
theorem value_reference {sites : List Site} {visits : List Visit} {visit : Visit}
    (h : Telling sites visits visit) (hopen : visit.run.emitting = true)
    (hkind : visit.site.block.kind = .reference) :
    visit.text = if visit.run.scopes.isVisible (visit.site.block.field FieldName.name) then
      visit.site.block.field FieldName.name else "" := by
  rw [h.text, value_of_reference _ _ hkind, printed, hopen, Bool.true_and]

end Block

namespace Tree

variable {tree : Tree}

/-- What binds a name at a reference is a global name or an owner on the trail of its holder. -/
theorem binds_iff {root : Root} (placed : tree.wellPlaced = true) (hroot : root ∈ tree.roots)
    {holder : Block} {rest : List Block} {trail : List Step} {site : Site}
    (reached : Reached root.chain trail (holder :: rest)) (held : HeldBy holder trail site)
    (name : String) : tree.Binds site name ↔
      name ∈ tree.globalNames ∨ ∃ block ∈ Step.owners trail, name ∈ block.binds := by
  have hplaced : holder.wellPlaced = true := reached.placed
    (Root.of_wellPlaced (List.all_eq_true.1 placed root hroot)) holder List.mem_cons_self
  have hvalid : (name ∈ tree.globalNames ∨
      ∃ outer ∈ tree.sites, outer.Encloses site ∧ name ∈ outer.block.binds) →
        selectsNothing name = false := by
    rintro (hname | ⟨outer, -, -, hname⟩)
    · exact selectsNothing_of_mem_globalNames hname
    · exact selectsNothing_of_mem_binds hname
  rw [Tree.Binds, and_iff_right_of_imp hvalid]
  refine or_congr_right ⟨?_, ?_⟩
  · rintro ⟨outer, -, hencloses, hname⟩
    rcases held.mem_owners hplaced hencloses with hmem | hnil
    · exact ⟨outer.block, hmem, hname⟩
    · rw [hnil] at hname
      cases hname
  · rintro ⟨block, hblock, hname⟩
    obtain ⟨outer, houter, rfl, hencloses⟩ := reached.encloses block hblock
    refine ⟨outer, List.mem_flatMap.2 ⟨root, hroot, houter⟩, hencloses _ ?_, hname⟩
    rw [sitesOf]
    exact List.mem_cons_of_mem _ (List.mem_append_left _ held.mem_sitesBelow)

/-- A reference that is visited inside of a program or definition is held by a block that the
walk has reached, and names are visible as the trail of that block says. -/
theorem reached_of_reference (placed : tree.wellPlaced = true)
    (distinct : (tree.ids.map Scope.key).Nodup) {scopes : Scopes} {visit : Visit}
    (h : visit ∈ tree.visits scopes) (hopen : visit.run.emitting = true)
    (hkind : visit.site.block.kind = .reference) :
    ∃ root ∈ tree.roots, root.head.kind.opensGate = true ∧ ∃ holder rest trail,
      Reached root.chain trail (holder :: rest) ∧ HeldBy holder trail visit.site ∧
        visit.run.Sees tree.globalNames trail := by
  obtain ⟨root, hroot, hgate, hlexical⟩ := lexical_of_mem_visits placed distinct h hopen
    (by simp [hkind, Kind.isName])
  exact ⟨root, hroot, hgate, hlexical.reference hkind⟩

/-- Where a reference is visited inside of a program or definition, the visible names are those
bound there. -/
theorem isVisible_iff_binds (placed : tree.wellPlaced = true)
    (distinct : (tree.ids.map Scope.key).Nodup) {scopes : Scopes} {visit : Visit}
    (h : visit ∈ tree.visits scopes) (hopen : visit.run.emitting = true)
    (hkind : visit.site.block.kind = .reference) (name : String) :
    visit.run.scopes.isVisible name = true ↔ tree.Binds visit.site name := by
  obtain ⟨root, hroot, -, holder, rest, trail, reached, held, hsees⟩ :=
    reached_of_reference placed distinct h hopen hkind
  rw [hsees name, binds_iff placed hroot reached held]

/-- In a well-placed tree with distinct keys, a reference that is visited inside of a program
or definition gives its name if the name is bound there, and nothing otherwise. -/
theorem text_of_reference (placed : tree.wellPlaced = true)
    (distinct : (tree.ids.map Scope.key).Nodup) {scopes : Scopes} {visit : Visit}
    (h : visit ∈ tree.visits scopes) (hopen : visit.run.emitting = true)
    (hkind : visit.site.block.kind = .reference) :
    (tree.Binds visit.site (visit.site.block.field FieldName.name) →
        visit.text = visit.site.block.field FieldName.name) ∧
      (¬tree.Binds visit.site (visit.site.block.field FieldName.name) → visit.text = "") := by
  rw [value_reference (telling_of_mem_visits h) hopen hkind,
    ← isVisible_iff_binds placed distinct h hopen hkind]
  exact ⟨fun hvisible => if_pos hvisible, fun hvisible => if_neg hvisible⟩

theorem text_of_reference_restricting : (restricting "x").wellPlaced = true ∧
    ((restricting "x").ids.map Scope.key).Nodup ∧
    ∃ visit ∈ (restricting "x").visits {}, visit.run.emitting = true ∧
      visit.site.block.kind = .reference ∧
      (((restricting "x").Binds visit.site (visit.site.block.field FieldName.name) →
          visit.text = visit.site.block.field FieldName.name) ∧
        (¬(restricting "x").Binds visit.site (visit.site.block.field FieldName.name) →
          visit.text = "")) := by
  have distinct := nodup_keys_restricting
  obtain ⟨visit, h, hopen, hkind⟩ : ∃ visit ∈ (restricting "x").visits {},
      visit.run.emitting = true ∧ visit.site.block.kind = .reference := by decide +kernel
  exact ⟨by decide, distinct, visit, h, hopen, hkind,
    text_of_reference (by decide) distinct h hopen hkind⟩

end Tree

end PiBlocks
