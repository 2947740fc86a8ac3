import PiBlocks.Proofs.Walk.Scopes

/-!
# Where the walk goes

The walk over a chain of the top level goes along the chain and down into the chains inside
(`Reached`) ; at each block it reads the references that are values of the block or of its
items (`HeldBy`). `mem_visits_traceBlock` says so for one visit of a term : what is visited is
the block, a reference it holds, a name it declares, or something in the chain inside. The
walk stands still while values are read.

Whatever is visited stands in the tree, its text is what the walk over it gives where it stands,
and what that walk visits is visited (`Tree.telling_of_mem_visits`).
-/

namespace PiBlocks

/-- The owners on a trail, the nearest first. -/
def Step.owners : List Step → List Block
  | [] => []
  | .previous _ :: trail => owners trail
  | .owner block :: trail => block :: owners trail

/-- The chains that the walk over a chain goes through, with the trails that lead back. -/
inductive Reached (root : List Block) : List Step → List Block → Prop
  | root : Reached root [] root
  | previous {trail : List Step} {block : Block} {rest : List Block} :
      Reached root trail (block :: rest) → Reached root (.previous block :: trail) rest
  | owner {trail : List Step} {block : Block} {rest : List Block} :
      Reached root trail (block :: rest) → Reached root (.owner block :: trail) block.body

/-- The reference at a site is a value of a block that is no branch, or of an item of a block
without scope. -/
inductive HeldBy (holder : Block) (trail : List Step) : Site → Prop
  | value {slot : String} {reference : Block} (hholder : holder.kind.isBranch = false)
      (hslot : slot ∈ SlotName.values) (hchain : holder.chain slot = [reference]) :
      HeldBy holder trail ⟨reference, [], .owner holder :: trail⟩
  | item {slot name : String} {before after : List Block} {item reference : Block}
      (hholder : holder.kind.opensScope = false)
      (hchain : holder.chain slot = before ++ item :: after)
      (hitems : ∀ block ∈ before ++ item :: after, block.kind.opensScope = false)
      (hname : name ∈ SlotName.values) (hvalue : item.chain name = [reference]) :
      HeldBy holder trail
        ⟨reference, [], .owner item :: (before.reverse.map .previous ++ .owner holder :: trail)⟩

namespace Block

/-! ## Visits among others -/

/-- A visit stands at one of the sites, its text is what the walk over its block gives where it
stands, and what that walk visits is among the visits. -/
structure Telling (sites : List Site) (visits : List Visit) (visit : Visit) : Prop where
  site : visit.site ∈ sites
  text : visit.text =
    (traceBlock visit.site.trail visit.site.followers visit.site.block visit.run).value
  below : (traceBlock visit.site.trail visit.site.followers visit.site.block
    visit.run).visits ⊆ visits

theorem Telling.mono {sites sites' : List Site} {visits visits' : List Visit} {visit : Visit}
    (h : Telling sites visits visit) (hsites : sites ⊆ sites') (hvisits : visits ⊆ visits') :
    Telling sites' visits' visit :=
  ⟨hsites h.site, h.text, fun _ hbelow => hvisits (h.below hbelow)⟩

mutual

theorem telling_traceBlock (trail followers) : ∀ (block : Block) (run : Run),
    ∀ visit ∈ (traceBlock trail followers block run).visits,
      Telling (⟨block, followers, trail⟩ :: sitesBelow trail block)
        (traceBlock trail followers block run).visits visit
  | .mk id kind fields slots, run, visit, h => by
    have hhead : Telling (⟨.mk id kind fields slots, followers, trail⟩ ::
        sitesBelow trail (.mk id kind fields slots))
        (traceBlock trail followers (.mk id kind fields slots) run).visits
        ⟨⟨.mk id kind fields slots, followers, trail⟩, run,
          (traceBlock trail followers (.mk id kind fields slots) run).value⟩ :=
      ⟨List.mem_cons_self, rfl, fun _ hbelow => hbelow⟩
    by_cases hc : run.counts kind = true
    · -- every part of the walk is below the block
      have hbelow : sitesInSlots (.owner (.mk id kind fields slots) :: trail) slots ⊆
          ⟨.mk id kind fields slots, followers, trail⟩ ::
            sitesBelow trail (.mk id kind fields slots) := fun site hsite => by
        rw [sitesBelow]
        exact List.mem_cons_of_mem _ hsite
      simp only [traceBlock, hc, Bool.not_true, Bool.false_eq_true, if_false, List.mem_cons,
        List.mem_append] at h hhead ⊢
      rcases h with rfl | (((h | h) | h) | h) | h
      · exact hhead
      all_goals
        first
        | exact (telling_traceSlot _ _ slots _ visit h).mono hbelow fun _ h => by simp [h]
        | exact (telling_traceItemsIn _ _ slots _ visit h).mono hbelow fun _ h => by simp [h]
    · simp only [traceBlock, hc, Bool.not_false, if_true, List.mem_singleton] at h hhead ⊢
      exact h ▸ hhead

theorem telling_traceChain (trail) : ∀ (chain : List Block) (run : Run),
    ∀ visit ∈ (traceChain trail chain run).visits,
      Telling (sitesOf trail chain) (traceChain trail chain run).visits visit
  | [], run, visit, h => by simp [traceChain] at h
  | .mk id kind fields slots :: rest, run, visit, h => by
    have hown := telling_traceBlock trail rest (.mk id kind fields slots) run visit
    have hsites : (⟨.mk id kind fields slots, rest, trail⟩ ::
        sitesBelow trail (.mk id kind fields slots)) ⊆
          sitesOf trail (.mk id kind fields slots :: rest) := by
      rw [sitesOf]
      exact List.cons_subset_cons _ (List.subset_append_left _ _)
    rw [traceChain] at h ⊢
    split_ifs at h ⊢
    · exact (hown h).mono hsites (List.Subset.refl _)
    · rcases List.mem_append.1 h with h | h
      · exact (hown h).mono hsites (List.subset_append_left _ _)
      · refine (telling_traceChain _ rest _ visit h).mono ?_ (List.subset_append_right _ _)
        rw [sitesOf]
        exact fun site hsite => List.mem_cons_of_mem _ (List.mem_append_right _ hsite)

theorem telling_traceSlot (trail slot) : ∀ (slots : List (String × List Block)) (run : Run),
    ∀ visit ∈ (traceSlot trail slot slots run).visits,
      Telling (sitesInSlots trail slots) (traceSlot trail slot slots run).visits visit
  | [], run, visit, h => by simp [traceSlot] at h
  | (name, chain) :: slots, run, visit, h => by
    rw [traceSlot] at h ⊢
    rw [sitesInSlots]
    split_ifs at h ⊢
    · exact (telling_traceChain trail chain run visit h).mono (List.subset_append_left _ _)
        (List.Subset.refl _)
    · exact (telling_traceSlot trail slot slots run visit h).mono (List.subset_append_right _ _)
        (List.Subset.refl _)

theorem telling_traceItems (trail item) : ∀ (chain : List Block) (run : Run),
    ∀ visit ∈ (traceItems trail item chain run).visits,
      Telling (sitesOf trail chain) (traceItems trail item chain run).visits visit
  | [], run, visit, h => by simp [traceItems] at h
  | .mk id kind fields slots :: rest, run, visit, h => by
    rw [traceItems] at h ⊢
    rw [sitesOf, sitesBelow]
    rcases List.mem_append.1 h with h | h
    · exact (telling_traceSlot _ _ slots _ visit h).mono
        (fun site hsite => List.mem_cons_of_mem _ (List.mem_append_left _ hsite))
        (List.subset_append_left _ _)
    · exact (telling_traceItems _ _ rest _ visit h).mono
        (fun site hsite => List.mem_cons_of_mem _ (List.mem_append_right _ hsite))
        (List.subset_append_right _ _)

theorem telling_traceItemsIn (trail items) : ∀ (slots : List (String × List Block)) (run : Run),
    ∀ visit ∈ (traceItemsIn trail items slots run).visits,
      Telling (sitesInSlots trail slots) (traceItemsIn trail items slots run).visits visit
  | [], run, visit, h => by simp [traceItemsIn] at h
  | (name, chain) :: slots, run, visit, h => by
    rw [traceItemsIn] at h ⊢
    rw [sitesInSlots]
    split_ifs at h ⊢
    · exact (telling_traceItems trail _ chain run visit h).mono (List.subset_append_left _ _)
        (List.Subset.refl _)
    · exact (telling_traceItemsIn trail items slots run visit h).mono
        (List.subset_append_right _ _) (List.Subset.refl _)

end

/-! ## Visits of one block -/

variable {block : Block} {trail : List Step} {run : Run} {visit : Visit}

theorem visits_references : ∀ (trail) {chain : List Block}, chain.length ≤ 1 →
    (∀ block ∈ chain, block.kind = .reference) → ∀ visit ∈ (traceChain trail chain run).visits,
      visit.run = run ∧ ∃ reference, chain = [reference] ∧ reference.kind = .reference ∧
        visit.site = ⟨reference, [], trail⟩
  | trail, [], _, _, visit, h => by simp [traceChain] at h
  | trail, [.mk id kind fields slots], _, hkind, visit, h => by
    obtain rfl : kind = .reference := hkind _ List.mem_cons_self
    rw [traceChain_singleton] at h
    by_cases hc : run.counts .reference = true <;>
      simp only [traceBlock, hc, Plan.ofBlock, traceSlot_none, traceItemsIn_none, List.append_nil,
        List.mem_singleton, Bool.not_true, Bool.not_false, Bool.false_eq_true, if_true,
        if_false] at h <;>
      exact ⟨by rw [h], _, rfl, rfl, by rw [h]⟩
  | trail, _ :: _ :: _, hlength, _, _, _ => by simp at hlength

theorem length_chain_of_mem_values (placed : block.wellPlaced = true) {slot : String}
    (hslot : slot ∈ SlotName.values) : (block.chain slot).length ≤ 1 := by
  rcases chain_of_mem_values hslot (wellPlaced_chain placed slot) with h | ⟨_, h⟩ <;> simp [h]

theorem visits_value (placed : block.wellPlaced = true) {slot : Option String}
    (hslot : ∀ name ∈ slot, name ∈ SlotName.values)
    (h : visit ∈ (traceSlot trail slot block.slots run).visits) :
    visit.run = run ∧ ∃ name ∈ slot, ∃ reference, block.chain name = [reference] ∧
      reference.kind = .reference ∧ visit.site = ⟨reference, [], trail⟩ := by
  cases slot with
  | none => simp at h
  | some slot =>
    rw [traceSlot_some] at h
    obtain ⟨hrun, reference, hreference⟩ := visits_references trail
      (length_chain_of_mem_values placed (hslot slot rfl))
      (fun inner => kind_of_mem_values placed (hslot slot rfl)) visit h
    exact ⟨hrun, slot, rfl, reference, hreference⟩

theorem visits_items {name : String} (hname : name ∈ SlotName.values) :
    ∀ (trail) {chain : List Block}, (∀ block ∈ chain, block.wellPlaced = true) →
      ∀ visit ∈ (traceItems trail name chain run).visits, visit.run = run ∧
        ∃ before item after reference, chain = before ++ item :: after ∧
          item.chain name = [reference] ∧ reference.kind = .reference ∧
          visit.site = ⟨reference, [], .owner item :: (before.reverse.map .previous ++ trail)⟩
  | trail, [], _, visit, h => by simp [traceItems] at h
  | trail, .mk id kind fields slots :: rest, placed, visit, h => by
    have hplaced := placed _ List.mem_cons_self
    have hvalue : ∀ slot ∈ some name, slot ∈ SlotName.values := by simpa using hname
    have hown : (traceSlot (.owner (.mk id kind fields slots) :: trail) (some name) slots run).run =
        run := run_value _ run hplaced hvalue
    rw [traceItems, hown, List.mem_append] at h
    rcases h with h | h
    · obtain ⟨hrun, _, hslot, reference, hchain, hreference⟩ := visits_value hplaced hvalue h
      cases hslot
      exact ⟨hrun, [], _, rest, reference, rfl, hchain, hreference⟩
    · obtain ⟨hrun, before, item, after, reference, rfl, hchain, hkind, hsite⟩ :=
        visits_items hname _ (fun block hb => placed block (List.mem_cons_of_mem _ hb)) visit h
      exact ⟨hrun, .mk id kind fields slots :: before, item, after, reference, rfl, hchain, hkind,
        by simp [hsite]⟩

theorem visits_names : ∀ (trail) (chain : List Block) (run : Run),
    (∀ block ∈ chain, block.kind.isName = true) → ∀ visit ∈ (traceChain trail chain run).visits,
      visit.site.block.kind.isName = true
  | trail, [], run, _, visit, h => by simp [traceChain] at h
  | trail, .mk id kind fields slots :: rest, run, hname, visit, h => by
    have hkind : kind.isName = true := hname _ List.mem_cons_self
    have hown : ∀ visit ∈ (traceBlock trail rest (.mk id kind fields slots) run).visits,
        visit.site.block.kind.isName = true := by
      intro visit h
      by_cases hc : run.counts kind = true
      · revert hkind
        cases kind <;> simp_all [Kind.isName, traceBlock, Plan.ofBlock]
      · simp_all [traceBlock]
    have hrest := visits_names (.previous (.mk id kind fields slots) :: trail) rest
    rw [traceChain] at h
    split_ifs at h
    · exact hown visit h
    · rcases List.mem_append.1 h with h | h
      · exact hown visit h
      · exact hrest _ (fun block hb => hname block (List.mem_cons_of_mem _ hb)) visit h

theorem plan_items (block : Block) : ∀ pair ∈ block.plan.items, block.kind.opensScope = false ∧
    pair.2 ∈ SlotName.values ∧ (pair.1 = SlotName.args ∨ pair.1 = SlotName.messages) := by
  obtain ⟨id, kind, fields, slots⟩ := block
  cases kind <;> simp only [plan, Plan.ofBlock, kind_mk, fields_mk, slots_mk] <;>
    (try split_ifs) <;> simp_all [SlotName.values, Kind.opensScope, Kind.scope?]

/-- Items of a block have no scope. -/
theorem opensScope_of_item (placed : block.wellPlaced = true) {slot : String}
    (hslot : slot = SlotName.args ∨ slot = SlotName.messages) {item : Block}
    (hitem : item ∈ block.chain slot) : item.kind.opensScope = false := by
  have hadmits := admits_of_mem placed hitem
  rcases hslot with rfl | rfl
  · rw [SlotName.admits_args, decide_eq_true_eq] at hadmits
    simp [hadmits, Kind.opensScope, Kind.scope?]
  · rw [SlotName.admits_messages, decide_eq_true_eq] at hadmits
    simp [hadmits, Kind.opensScope, Kind.scope?]

theorem visits_itemsIn (placed : block.wellPlaced = true)
    (h : visit ∈ (traceItemsIn (.owner block :: trail) block.plan.items block.slots run).visits) :
    visit.run = run ∧ visit.site.block.kind = .reference ∧ HeldBy block trail visit.site := by
  have hplan := block.plan_items
  cases hitems : block.plan.items with
  | none => simp [hitems] at h
  | some pair =>
    obtain ⟨slot, name⟩ := pair
    obtain ⟨hscope, hname, hslot⟩ := hplan _ hitems
    rw [hitems, traceItemsIn_some] at h
    obtain ⟨hrun, before, item, after, reference, hchain, hvalue, hkind, hsite⟩ :=
      visits_items hname _ (fun inner => wellPlaced_of_mem placed) visit h
    refine ⟨hrun, hsite ▸ hkind, hsite ▸ .item hscope hchain (fun inner hinner => ?_) hname hvalue⟩
    exact opensScope_of_item placed hslot (hchain ▸ hinner)

/-- Branches have no values. -/
theorem plan_of_isBranch (h : block.kind.isBranch = true) :
    block.plan.first = none ∧ block.plan.second = none := by
  obtain ⟨id, kind, fields, slots⟩ := block
  cases kind <;> first | exact ⟨rfl, rfl⟩ | cases h

theorem heldBy_of_value (placed : block.wellPlaced = true) {slot : Option String}
    (hslot : ∀ name ∈ slot, name ∈ SlotName.values)
    (hbranch : block.kind.isBranch = true → slot = none)
    (h : visit ∈ (traceSlot (.owner block :: trail) slot block.slots run).visits) :
    visit.run = run ∧ visit.site.block.kind = .reference ∧ HeldBy block trail visit.site := by
  obtain ⟨hrun, name, hname, reference, hchain, hkind, hsite⟩ := visits_value placed hslot h
  have hholder : block.kind.isBranch = false := by
    rw [Bool.eq_false_iff]
    rintro hkind
    rw [hbranch hkind] at hname
    cases hname
  exact ⟨hrun, hsite ▸ hkind, hsite ▸ .value hholder (hslot name hname) hchain⟩

/-- A block the walk comes to is visited. -/
theorem head_mem_visits (trail followers block run) :
    ⟨⟨block, followers, trail⟩, run, (traceBlock trail followers block run).value⟩ ∈
      (traceBlock trail followers block run).visits := by
  obtain ⟨id, kind, fields, slots⟩ := block
  by_cases hc : run.counts kind = true <;> simp [traceBlock, hc]

/-- A visit of a term is at the term itself, at a reference it holds, at a name it declares, or
in the chain inside. -/
theorem mem_visits_traceBlock {followers : List Block} (placed : block.wellPlaced = true)
    (hterm : block.kind.isTerm = true) (hcounts : run.counts block.kind = true)
    (h : visit ∈ (traceBlock trail followers block run).visits) :
    (visit.site = ⟨block, followers, trail⟩ ∧ visit.run = run) ∨
      (visit.run = run ∧ visit.site.block.kind = .reference ∧ HeldBy block trail visit.site) ∨
      visit.site.block.kind.isName = true ∨ visit ∈ (block.walkInside trail run).visits := by
  obtain ⟨hfirst, hsecond, -, hnames⟩ := Plan.head_slots block.fields block.slots block.kind
  simp only [traceBlock_eq trail followers placed hterm hcounts, List.mem_cons,
    List.mem_append] at h
  rcases h with rfl | (((h | h) | h) | h) | h
  · exact .inl ⟨rfl, rfl⟩
  · exact .inr (.inl (heldBy_of_value placed hfirst (fun hkind => (plan_of_isBranch hkind).1) h))
  · exact .inr (.inl (heldBy_of_value placed hsecond (fun hkind => (plan_of_isBranch hkind).2) h))
  · exact .inr (.inl (visits_itemsIn placed h))
  · refine .inr (.inr (.inl ?_))
    have hplan : ∀ slot ∈ block.plan.names, slot = SlotName.names := hnames
    cases hslot : block.plan.names with
    | none => simp [hslot] at h
    | some slot =>
      rw [hslot, traceSlot_some] at h
      refine visits_names _ _ _ (fun inner hinner => ?_) visit h
      have hadmits := admits_of_mem placed hinner
      rw [hplan slot hslot, SlotName.admits_names, Bool.or_eq_true, decide_eq_true_eq,
        decide_eq_true_eq] at hadmits
      rcases hadmits with hkind | hkind <;> simp [Kind.isName, hkind]
  · exact .inr (.inr (.inr h))

end Block

namespace Root

theorem telling_traceRoots : ∀ (roots : List Root) (run : Run),
    ∀ visit ∈ (traceRoots roots run).visits,
      Block.Telling (roots.flatMap fun root => Block.sitesOf [] root.chain)
        (traceRoots roots run).visits visit
  | [], run, visit, h => by simp [traceRoots] at h
  | root :: roots, run, visit, h => by
    rw [List.flatMap_cons]
    rcases List.mem_append.1 h with h | h
    · exact (Block.telling_traceChain [] root.chain run visit h).mono
        (List.subset_append_left _ _) (List.subset_append_left _ _)
    · exact (telling_traceRoots roots _ visit h).mono
        (List.subset_append_right _ _) (List.subset_append_right _ _)

end Root

/-- Whatever a pass visits stands in the tree, and its text is what the walk over it gives where
it stands. The visits of that walk are visits of the pass. -/
theorem Tree.telling_of_mem_visits {tree : Tree} {scopes : Scopes} {visit : Visit}
    (h : visit ∈ tree.visits scopes) :
    Block.Telling tree.sites (tree.visits scopes) visit :=
  (Root.telling_traceRoots tree.visitOrder _ visit h).mono
    (fun _ hsite => (tree.visitOrder_perm.flatMap_right _).mem_iff.1 hsite) (List.Subset.refl _)

end PiBlocks
