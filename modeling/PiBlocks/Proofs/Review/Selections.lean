import PiBlocks.Proofs.Walk.Operations
import Mathlib.Data.List.Nodup

/-!
# Selections and menus

What a user selects (the name of a reference, the comparison of a guard, the process of a call)
decides what is printed, but no scope is opened, no name declared and no block visited because of
it. The plan of a block asks of its selections no more than whether a call has a process
(`Plan.ofBlock_congr`), so trees that differ in selections do the same to the scopes
(`Root.operations_congr`), however their blocks are placed. The way back from a block is made of
ids and kinds. So menus stay as they are whatever is selected, and a name in the menu of a
reference is one that can be selected without leaving its scope (`Tree.menus_of_selections`).
-/

namespace PiBlocks

namespace Block

/-! ## Blocks that differ in fields -/

/-- How the fields of a block with an id may differ between two trees. -/
abbrev FieldRel : Type := String → OrderedMap String → OrderedMap String → Prop

mutual

/-- Blocks that differ in nothing but fields, in themselves and below. -/
inductive Alike (R : FieldRel) : Block → Block → Prop
  | mk {id : String} {kind : Kind} {fields others : OrderedMap String}
      {slots slots' : List (String × List Block)} (hfields : R id fields others)
      (hslots : SlotsAlike R slots slots') :
      Alike R (.mk id kind fields slots) (.mk id kind others slots')

/-- The same slots with chains that differ in nothing but fields. -/
inductive SlotsAlike (R : FieldRel) :
    List (String × List Block) → List (String × List Block) → Prop
  | nil : SlotsAlike R [] []
  | cons {slot : String} {chain chain' : List Block} {slots slots' : List (String × List Block)}
      (hchain : ChainAlike R chain chain') (hslots : SlotsAlike R slots slots') :
      SlotsAlike R ((slot, chain) :: slots) ((slot, chain') :: slots')

/-- Chains whose blocks differ in nothing but fields. -/
inductive ChainAlike (R : FieldRel) : List Block → List Block → Prop
  | nil : ChainAlike R [] []
  | cons {block other : Block} {rest rest' : List Block} (hblock : Alike R block other)
      (hrest : ChainAlike R rest rest') : ChainAlike R (block :: rest) (other :: rest')

end

section

variable {R : FieldRel}

theorem Alike.id_eq {block other : Block} (h : Alike R block other) : block.id = other.id := by
  cases h
  rfl

theorem Alike.kind_eq {block other : Block} (h : Alike R block other) :
    block.kind = other.kind := by
  cases h
  rfl

theorem Alike.fields {block other : Block} (h : Alike R block other) :
    R block.id block.fields other.fields := by
  cases h
  assumption

theorem SlotsAlike.get? (slot : String) {slots slots' : List (String × List Block)}
    (h : SlotsAlike R slots slots') : ChainAlike R ((OrderedMap.get? slot slots).getD [])
      ((OrderedMap.get? slot slots').getD []) := by
  cases h with
  | nil => exact .nil
  | @cons name chain chain' slots slots' hchain hslots =>
    by_cases h : name = slot
    · simpa [OrderedMap.get?, h] using hchain
    · simpa [OrderedMap.get?, h] using hslots.get? slot

/-- A field that is the same in both trees is the same along chains. -/
theorem ChainAlike.namesIn {field : String} (hR : ∀ id fields others, R id fields others →
    OrderedMap.get? field fields = OrderedMap.get? field others) {chain chain' : List Block}
    (h : ChainAlike R chain chain') : Block.namesIn field chain = Block.namesIn field chain' := by
  cases h with
  | nil => rfl
  | @cons block other rest rest' hblock hrest =>
    have hfield : block.field field = other.field field := by
      simp only [Block.field, field?, hR _ _ _ hblock.fields]
    have hnames := hrest.namesIn hR
    simp only [Block.namesIn] at hnames
    simp [Block.namesIn, hfield, List.filter_cons, hnames]

end

end Block

/-! ## Operations on scopes -/

/-- Fields that differ in selections : in the name of a reference and the comparison of a guard,
whatever these are, and in the process of a call, if one is selected in both. -/
structure SelectionsApart (fields others : OrderedMap String) : Prop where
  same : ∀ name, name ≠ FieldName.name → name ≠ FieldName.operation →
    name ≠ FieldName.processName → OrderedMap.get? name fields = OrderedMap.get? name others
  process : OrderedMap.get? FieldName.processName fields =
      OrderedMap.get? FieldName.processName others ∨
    Block.selectsNothing ((OrderedMap.get? FieldName.processName fields).getD "") = false ∧
      Block.selectsNothing ((OrderedMap.get? FieldName.processName others).getD "") = false

namespace SelectionsApart

variable {fields others : OrderedMap String} (h : SelectionsApart fields others)
include h

theorem new : OrderedMap.get? FieldName.new fields = OrderedMap.get? FieldName.new others :=
  h.same _ (by decide) (by decide) (by decide)

theorem definition :
    OrderedMap.get? FieldName.process fields = OrderedMap.get? FieldName.process others :=
  h.same _ (by decide) (by decide) (by decide)

theorem selectsNothing :
    Block.selectsNothing ((OrderedMap.get? FieldName.processName fields).getD "") =
      Block.selectsNothing ((OrderedMap.get? FieldName.processName others).getD "") := by
  rcases h.process with heq | ⟨hfields, hothers⟩
  · rw [heq]
  · rw [hfields, hothers]

end SelectionsApart

/-- Blocks of two trees may differ in selections. -/
abbrev Block.Selecting : Block.FieldRel := fun _ => SelectionsApart

/-- The plan of a block is the same whatever is selected. -/
theorem Plan.ofBlock_congr {fields others : OrderedMap String}
    {slots slots' : List (String × List Block)} (hfields : SelectionsApart fields others)
    (hslots : Block.SlotsAlike Block.Selecting slots slots') (kind : Kind) :
    ofBlock fields slots kind = ofBlock others slots' kind := by
  have hnames (slot : String) : namesOf slots slot = namesOf slots' slot :=
    (hslots.get? slot).namesIn fun _ _ _ h => h.new
  simp only [ofBlock, hnames, hfields.new, hfields.definition, hfields.selectsNothing]

namespace Block

mutual

theorem operations_congr : ∀ (block : Block) {other : Block}, Alike Selecting block other →
    ∀ emitting, operations block emitting = operations other emitting
  | .mk id kind fields slots, _, .mk hfields hslots, emitting => by
    rw [operations, operations, Plan.ofBlock_congr hfields hslots]
    simp only [operationsIn_congr _ slots hslots, operationsOfItemsIn_congr _ slots hslots]
termination_by structural block => block

theorem operationsOf_congr : ∀ (chain : List Block) {chain' : List Block},
    ChainAlike Selecting chain chain' →
      ∀ emitting, operationsOf chain emitting = operationsOf chain' emitting
  | [], _, .nil, _ => rfl
  | .mk id kind fields slots :: rest, .mk _ _ _ _ :: _, .cons hblock hrest, emitting => by
    obtain rfl : kind = _ := hblock.kind_eq
    rw [operationsOf, operationsOf, operations_congr _ hblock]
    simp only [operationsOf_congr rest hrest]
termination_by structural chain => chain

theorem operationsIn_congr (slot : Option String) : ∀ (slots : List (String × List Block))
    {slots' : List (String × List Block)}, SlotsAlike Selecting slots slots' →
      ∀ emitting, operationsIn slot slots emitting = operationsIn slot slots' emitting
  | [], _, .nil, _ => rfl
  | (name, chain) :: slots, _, .cons hchain hslots, emitting => by
    rw [operationsIn, operationsIn, operationsOf_congr chain hchain,
      operationsIn_congr slot slots hslots]
termination_by structural slots => slots

theorem operationsOfItems_congr (item : String) : ∀ (chain : List Block) {chain' : List Block},
    ChainAlike Selecting chain chain' →
      ∀ emitting, operationsOfItems item chain emitting = operationsOfItems item chain' emitting
  | [], _, .nil, _ => rfl
  | .mk _ _ _ slots :: rest, _, .cons (.mk _ hslots) hrest, emitting => by
    rw [operationsOfItems, operationsOfItems, operationsIn_congr _ slots hslots]
    simp only [operationsOfItems_congr item rest hrest]
termination_by structural chain => chain

theorem operationsOfItemsIn_congr (items : Option (String × String)) :
    ∀ (slots : List (String × List Block)) {slots' : List (String × List Block)},
      SlotsAlike Selecting slots slots' → ∀ emitting, operationsOfItemsIn items slots emitting =
        operationsOfItemsIn items slots' emitting
  | [], _, .nil, _ => rfl
  | (name, chain) :: slots, _, .cons hchain hslots, emitting => by
    rw [operationsOfItemsIn, operationsOfItemsIn, operationsOfItems_congr _ chain hchain,
      operationsOfItemsIn_congr items slots hslots]
termination_by structural slots => slots

end

end Block

/-! ## The top level -/

/-- Chains of the top level at one place that differ in nothing but fields. -/
structure Root.Alike (R : Block.FieldRel) (root other : Root) : Prop where
  chain : Block.ChainAlike R root.chain other.chain
  place : root.place = other.place

/-- Trees that differ in nothing but fields. -/
def Tree.Alike (R : Block.FieldRel) (tree other : Tree) : Prop :=
  List.Forall₂ (Root.Alike R) tree.roots other.roots

namespace Root

variable {R : Block.FieldRel}

theorem Alike.head {root other : Root} (h : root.Alike R other) :
    root.head.Alike R other.head := by
  obtain ⟨head, rest, place⟩ := root
  obtain ⟨head', rest', place'⟩ := other
  cases h.chain
  assumption

theorem operations_congr : ∀ {roots others : List Root},
    List.Forall₂ (Alike Block.Selecting) roots others →
      ∀ emitting, operations roots emitting = operations others emitting
  | _, _, .nil, _ => rfl
  | root :: _, _, .cons hroot hrest, emitting => by
    rw [operations, operations, Block.operationsOf_congr root.chain hroot.chain]
    simp only [operations_congr hrest]

end Root

namespace Tree

variable {R : Block.FieldRel} {tree other : Tree}

theorem Alike.visitOrder (h : tree.Alike R other) :
    List.Forall₂ (Root.Alike R) tree.visitOrder other.visitOrder :=
  forall₂_visitOrder (fun _ _ hroot => hroot.place)
    (fun _ _ hroot => by simp only [Root.isGlobal, hroot.head.kind_eq]) h

/-- Trees that differ in selections do the same to the scopes. -/
theorem Alike.operations (h : tree.Alike Block.Selecting other) :
    tree.operations = other.operations := by
  rw [Tree.operations, Tree.operations, Root.operations_congr h.visitOrder]

/-- A pass commits what its operations lead to from fresh scopes. -/
theorem committed_pass_eq (tree : Tree) (scopes : Scopes) (canonical : Bool) :
    (tree.pass scopes canonical).2.committed = (Operation.applyAll tree.operations {}).active := by
  have hwalk := (tree.agree_trace scopes {}).run.active
  have hops := tree.scopes_generate {}
  simp only [generate_eq] at hops
  simp only [pass, generate_eq, Scopes.commit, hwalk, hops]
  rfl

end Tree

/-! ## Sites and menus -/

/-- What the way back from a block asks of the blocks on it. -/
def Block.mark (block : Block) : String × Kind := (block.id, block.kind)

/-- The marks of the blocks on the way back. -/
def Step.marks (trail : List Step) : List (String × Kind) := trail.map fun step => step.block.mark

theorem Ancestry.alongTrail_congr : ∀ {blocks others : List Block},
    blocks.map Block.mark = others.map Block.mark → ∀ last,
      alongTrail last blocks = alongTrail last others
  | [], [], _, _ => rfl
  | block :: blocks, other :: others, h, last => by
    obtain ⟨hfirst, hrest⟩ := List.cons.inj h
    obtain ⟨hid, hkind⟩ := Prod.mk.inj hfirst
    simp only [alongTrail, hid, hkind, alongTrail_congr hrest]

theorem Ancestry.ofBlock_congr {block other : Block} {wayBack wayBack' : List Block}
    (hblock : block.mark = other.mark) (h : wayBack.map Block.mark = wayBack'.map Block.mark) :
    ofBlock block wayBack = ofBlock other wayBack' := by
  have hkind : block.kind = other.kind := congrArg Prod.snd hblock
  have hboth : (block :: wayBack).map Block.mark = (other :: wayBack').map Block.mark := by
    simp [hblock, h]
  simp only [ofBlock, hkind]
  split_ifs
  · rw [alongTrail_congr h]
  · rw [alongTrail_congr hboth]

/-- Sites of blocks that differ in fields, with the same way back. -/
structure Site.Alike (R : Block.FieldRel) (site other : Site) : Prop where
  block : site.block.Alike R other.block
  marks : Step.marks site.trail = Step.marks other.trail

namespace Site.Alike

variable {R : Block.FieldRel} {site other : Site} (h : site.Alike R other)
include h

theorem referenceAncestry : site.referenceAncestry = other.referenceAncestry := by
  have hmarks : (site.trail.map Step.block).map Block.mark =
      (other.trail.map Step.block).map Block.mark := by
    simpa [Step.marks, Function.comp_def] using h.marks
  rw [Site.referenceAncestry, Site.referenceAncestry]
  generalize site.trail.map Step.block = wayBack at hmarks ⊢
  generalize other.trail.map Step.block = wayBack' at hmarks ⊢
  match wayBack, wayBack', hmarks with
  | [], [], _ => rfl
  | holder :: wayBack, holder' :: wayBack', hmarks =>
    obtain ⟨hholder, hrest⟩ := List.cons.inj hmarks
    exact Ancestry.ofBlock_congr hholder hrest

theorem visibleNames (snapshot : Snapshot) :
    site.visibleNames snapshot = other.visibleNames snapshot := by
  rw [Site.visibleNames, Site.visibleNames, h.referenceAncestry]

theorem nameChoices (snapshot : Snapshot) :
    site.nameChoices snapshot = other.nameChoices snapshot := by
  rw [Site.nameChoices, Site.nameChoices, h.visibleNames]

end Site.Alike

namespace Block

variable {R : FieldRel}

theorem Alike.marks_cons {block other : Block} (h : Alike R block other) {trail trail' : List Step}
    (hmarks : Step.marks trail = Step.marks trail') :
    Step.marks (.owner block :: trail) = Step.marks (.owner other :: trail') ∧
      Step.marks (.previous block :: trail) = Step.marks (.previous other :: trail') := by
  have hmark : block.mark = other.mark := Prod.ext h.id_eq h.kind_eq
  exact ⟨congrArg₂ List.cons hmark hmarks, congrArg₂ List.cons hmark hmarks⟩

mutual

theorem sitesBelow_alike : ∀ (block : Block) {other : Block} {trail trail' : List Step},
    Alike R block other → Step.marks trail = Step.marks trail' →
      List.Forall₂ (Site.Alike R) (sitesBelow trail block) (sitesBelow trail' other)
  | .mk id kind fields slots, _, trail, trail', .mk hfields hslots, hmarks => by
    rw [sitesBelow, sitesBelow]
    exact sitesInSlots_alike slots hslots ((Alike.mk hfields hslots).marks_cons hmarks).1
termination_by structural block => block

theorem sitesInSlots_alike : ∀ (slots : List (String × List Block))
    {slots' : List (String × List Block)} {trail trail' : List Step}, SlotsAlike R slots slots' →
      Step.marks trail = Step.marks trail' →
        List.Forall₂ (Site.Alike R) (sitesInSlots trail slots) (sitesInSlots trail' slots')
  | [], _, _, _, .nil, _ => by simp [sitesInSlots]
  | (_, chain) :: slots, _, _, _, .cons hchain hslots, hmarks => by
    rw [sitesInSlots, sitesInSlots]
    exact List.rel_append (sitesOf_alike chain hchain hmarks)
      (sitesInSlots_alike slots hslots hmarks)
termination_by structural slots => slots

/-- Blocks that differ in fields stand at the same sites. -/
theorem sitesOf_alike : ∀ (chain : List Block) {chain' : List Block} {trail trail' : List Step},
    ChainAlike R chain chain' → Step.marks trail = Step.marks trail' →
      List.Forall₂ (Site.Alike R) (sitesOf trail chain) (sitesOf trail' chain')
  | [], _, _, _, .nil, _ => by simp [sitesOf]
  | block :: rest, _, _, _, .cons hblock hrest, hmarks => by
    rw [sitesOf, sitesOf]
    exact .cons ⟨hblock, hmarks⟩ (List.rel_append (sitesBelow_alike block hblock hmarks)
      (sitesOf_alike rest hrest (hblock.marks_cons hmarks).2))
termination_by structural chain => chain

end

end Block

theorem Tree.Alike.sites {R : Block.FieldRel} {tree other : Tree} (h : tree.Alike R other) :
    List.Forall₂ (Site.Alike R) tree.sites other.sites :=
  List.rel_flatMap h fun root _ hroot => Block.sitesOf_alike root.chain hroot.chain rfl

theorem Tree.Alike.ids {R : Block.FieldRel} {tree other : Tree} (h : tree.Alike R other) :
    tree.ids = other.ids := by
  have hids : List.Forall₂ (· = ·) tree.ids other.ids :=
    List.rel_map (fun _ _ hsite => hsite.block.id_eq) h.sites
  rwa [List.forall₂_eq_eq_eq] at hids

/-! ## Selecting a name -/

namespace Block

variable (id name : String)

/-- The fields of a block once the reference with an id selects a name. -/
def selected (own : String) (fields : OrderedMap String) : OrderedMap String :=
  if own = id then OrderedMap.insert FieldName.name name fields else fields

mutual

/-- The block once the reference with an id selects a name. -/
def select : Block → Block
  | .mk own kind fields slots => .mk own kind (selected id name own fields) (selectInSlots slots)

/-- The slots once the reference with an id selects a name. -/
def selectInSlots : List (String × List Block) → List (String × List Block)
  | [] => []
  | (slot, chain) :: slots => (slot, selectIn chain) :: selectInSlots slots

/-- The chain once the reference with an id selects a name. -/
def selectIn : List Block → List Block
  | [] => []
  | block :: rest => select block :: selectIn rest

end

variable {id name} {R : FieldRel}

mutual

theorem alike_select (hR : ∀ own fields, R own fields (selected id name own fields)) :
    ∀ block : Block, Alike R block (select id name block)
  | .mk own kind fields slots => by
    rw [select]
    exact .mk (hR own fields) (alike_selectInSlots hR slots)

theorem alike_selectInSlots (hR : ∀ own fields, R own fields (selected id name own fields)) :
    ∀ slots : List (String × List Block), SlotsAlike R slots (selectInSlots id name slots)
  | [] => by
    rw [selectInSlots]
    exact .nil
  | (slot, chain) :: slots => by
    rw [selectInSlots]
    exact .cons (alike_selectIn hR chain) (alike_selectInSlots hR slots)

/-- Selecting a name changes nothing but fields. -/
theorem alike_selectIn (hR : ∀ own fields, R own fields (selected id name own fields)) :
    ∀ chain : List Block, ChainAlike R chain (selectIn id name chain)
  | [] => by
    rw [selectIn]
    exact .nil
  | block :: rest => by
    rw [selectIn]
    exact .cons (alike_select hR block) (alike_selectIn hR rest)

end

end Block

/-- The tree once the reference with an id selects a name. -/
def Tree.select (id name : String) (tree : Tree) : Tree := { tree with
  roots := tree.roots.map fun root => { root with
    head := root.head.select id name
    rest := Block.selectIn id name root.rest } }

theorem Tree.alike_select {R : Block.FieldRel} {id name : String}
    (hR : ∀ own fields, R own fields (Block.selected id name own fields)) (tree : Tree) :
    tree.Alike R (tree.select id name) := by
  rw [Tree.Alike, select, List.forall₂_map_right_iff, List.forall₂_same]
  exact fun root _ => ⟨.cons (Block.alike_select hR root.head) (Block.alike_selectIn hR root.rest),
    rfl⟩

/-- Selecting a name is a difference in selections. -/
theorem SelectionsApart.selected (id name own : String) (fields : OrderedMap String) :
    SelectionsApart fields (Block.selected id name own fields) := by
  rw [Block.selected]
  split_ifs
  · exact ⟨fun other hname _ _ => (OrderedMap.get?_insert_of_ne hname _ _).symm,
      .inl (OrderedMap.get?_insert_of_ne (by decide) _ _).symm⟩
  · exact ⟨fun _ _ _ _ => rfl, .inl rfl⟩

/-- There is a warning that the name of the block with an id is not in scope. -/
def Generation.WarnsOfScope (generation : Generation) (id : String) : Prop :=
  ∃ name, ⟨.nameNotInScope name, id⟩ ∈ generation.warnings

namespace Tree

variable {tree : Tree}

/-- A valid name that a reference selects is warned about if and only if it is not visible. -/
theorem warnsOfScope_iff (distinct : tree.ids.Nodup) {site : Site} (hsite : site ∈ tree.sites)
    (hkind : site.block.kind = .reference)
    (hvalid : Block.selectsNothing (site.block.field FieldName.name) = false) (scopes : Scopes)
    (canonical : Bool) :
    (tree.pass scopes canonical).1.WarnsOfScope site.block.id ↔
      site.block.field FieldName.name ∉
        site.visibleNames (tree.pass scopes canonical).2.committed := by
  generalize hsnapshot : (tree.pass scopes canonical).2.committed = snapshot
  have hwarnings : (tree.pass scopes canonical).1.warnings = tree.warnings snapshot := by
    rw [← hsnapshot]
    rfl
  have hproblem : site.problem snapshot =
      if (site.visibleNames snapshot).contains (site.block.field FieldName.name) then none
      else some (.nameNotInScope (site.block.field FieldName.name)) := by
    simp only [Block.selectsNothing, Bool.or_eq_false_iff] at hvalid
    simp [Site.problem, hkind, Site.referenceProblem, hvalid]
  rw [Generation.WarnsOfScope, hwarnings]
  constructor
  · rintro ⟨name, hmem⟩ hvisible
    obtain ⟨other, hother, hsome⟩ := List.mem_filterMap.1 hmem
    obtain ⟨problem, hfound, hwarning⟩ := Option.map_eq_some_iff.1 hsome
    obtain rfl : other = site := List.inj_on_of_nodup_map distinct hother hsite
      (congrArg Warning.block hwarning)
    rw [hproblem, if_pos (List.contains_iff_mem.2 hvisible)] at hfound
    cases hfound
  · intro hnot
    refine ⟨site.block.field FieldName.name, List.mem_filterMap.2 ⟨site, hsite, ?_⟩⟩
    rw [hproblem, if_neg (by simpa using hnot)]
    rfl

/-- Where a reference stands, it stands once it selects a name. -/
theorem exists_site_select {site : Site} (hsite : site ∈ tree.sites) (name : String) :
    ∃ other ∈ (tree.select site.block.id name).sites, other.block.id = site.block.id ∧
      other.block.kind = site.block.kind ∧ other.block.field FieldName.name = name ∧
      ∀ snapshot, other.visibleNames snapshot = site.visibleNames snapshot := by
  have hsites := (tree.alike_select (R := fun own fields others =>
    others = Block.selected site.block.id name own fields) fun _ _ => rfl).sites
  obtain ⟨index, hindex, rfl⟩ := List.mem_iff_getElem.1 hsite
  have hother := hsites.length_eq ▸ hindex
  have halike := hsites.get hindex hother
  refine ⟨_, List.getElem_mem hother, halike.block.id_eq.symm, halike.block.kind_eq.symm, ?_,
    fun snapshot => (halike.visibleNames snapshot).symm⟩
  have hfields := halike.block.fields
  simp only [List.get_eq_getElem, Block.selected, if_true] at hfields
  rw [Block.field, Block.field?, hfields, OrderedMap.get?_insert_self, Option.getD_some]

/-- Trees that differ in selections commit the same snapshot, and the menus of their blocks are the
same. So a valid name is in the menu of a reference if and only if, once it is selected, there is no
warning that it is not in scope. -/
theorem menus_of_selections (tree : Tree) :
    (∀ other, tree.Alike Block.Selecting other → ∀ scopes scopes' canonical canonical',
      (other.pass scopes' canonical').2.committed = (tree.pass scopes canonical).2.committed ∧
      List.Forall₂ (fun site site' => site.block.id = site'.block.id ∧
          site.visibleNames (tree.pass scopes canonical).2.committed =
            site'.visibleNames (other.pass scopes' canonical').2.committed ∧
          site.nameChoices (tree.pass scopes canonical).2.committed =
            site'.nameChoices (other.pass scopes' canonical').2.committed)
        tree.sites other.sites) ∧
    (tree.ids.Nodup → ∀ site ∈ tree.sites, site.block.kind = .reference →
      ∀ name, Block.selectsNothing name = false → ∀ scopes scopes' canonical canonical',
        (name ∈ (site.nameChoices (tree.pass scopes canonical).2.committed).map Choice.value ↔
          ¬((tree.select site.block.id name).pass scopes' canonical').1.WarnsOfScope
            site.block.id)) := by
  have hcommitted {other : Tree} (h : tree.Alike Block.Selecting other)
      (scopes scopes' : Scopes) (canonical canonical' : Bool) :
      (other.pass scopes' canonical').2.committed = (tree.pass scopes canonical).2.committed := by
    rw [committed_pass_eq, committed_pass_eq, h.operations]
  refine ⟨fun other h scopes scopes' canonical canonical' =>
    ⟨hcommitted h .., h.sites.imp fun site site' hsite => ?_⟩, ?_⟩
  · rw [hcommitted h scopes scopes' canonical canonical']
    exact ⟨hsite.block.id_eq, hsite.visibleNames _, hsite.nameChoices _⟩
  · intro distinct site hsite hkind name hvalid scopes scopes' canonical canonical'
    have halike : tree.Alike Block.Selecting (tree.select site.block.id name) :=
      tree.alike_select fun own fields => .selected _ _ own fields
    obtain ⟨other, hother, hid, hkind', hfield, hvisible⟩ := exists_site_select hsite name
    have hwarns := warnsOfScope_iff (halike.ids ▸ distinct) hother (hkind'.trans hkind)
      (hfield.symm ▸ hvalid) scopes' canonical'
    rw [hid, hfield, hvisible, hcommitted halike scopes scopes' canonical canonical'] at hwarns
    have hname : name ≠ unresolved := by
      rintro rfl
      cases hvalid
    rw [hwarns, not_not]
    simp [Site.nameChoices, Function.comp_def, hname]

/-- Below the restriction of `x`, the channel of a send may select `x`, not `y`. -/
theorem menus_of_selections_restricting :
    (restricting "x").Alike Block.Selecting ((restricting "x").select "channel" "y") ∧
    (restricting "x").ids.Nodup ∧
    (((restricting "x").select "channel" "y").pass {} true).2.committed =
      ((restricting "x").pass {} true).2.committed ∧
    ∃ site ∈ (restricting "x").sites, site.block.kind = .reference ∧
      site.block.id = "channel" ∧ ∀ name, Block.selectsNothing name = false →
        (name ∈ (site.nameChoices ((restricting "x").pass {} true).2.committed).map Choice.value ↔
          ¬(((restricting "x").select site.block.id name).pass {} true).1.WarnsOfScope
            site.block.id) := by
  have halike : (restricting "x").Alike Block.Selecting ((restricting "x").select "channel" "y") :=
    alike_select (fun own fields => .selected _ _ own fields) _
  have distinct : (restricting "x").ids.Nodup := by decide
  obtain ⟨site, hsite, hkind, hid⟩ : ∃ site ∈ (restricting "x").sites,
      site.block.kind = .reference ∧ site.block.id = "channel" := by decide
  have hmenus := menus_of_selections (restricting "x")
  exact ⟨halike, distinct, (hmenus.1 _ halike {} {} true true).1, site, hsite, hkind, hid,
    fun name hvalid => hmenus.2 distinct site hsite hkind name hvalid {} {} true true⟩

end Tree

end PiBlocks
