import PiBlocks.Proofs.Walk.Texts

/-!
# Visits inside of blocks

The walk over a chain visits its blocks in order (`Block.visitsAlong`), and the texts of these
visits are the own texts of the blocks. So what a block is given by the chain inside can be told
from the visits inside (`Visit.inside`), which are visits of the pass (`Tree.inside_subset`).

A term that counts is visited on a way that leads from a program or definition along chains and
into the chains inside (`Block.Comes`). What such a way keeps up holds of the visit : the innermost
scope is the body of a program or definition if and only if the chain of the term is
(`Tree.around_of_mem_visits`), whatever keys the blocks have, and if the keys of the tree are
distinct, those of the term are new where the walk stands (`Tree.at_of_mem_visits`).
-/

namespace PiBlocks

open Block

/-! ## Along a chain -/

namespace Block

/-- The sites of the blocks of a chain, without those of what hangs off them. -/
def sitesAlong (trail : List Step) : List Block → List Site
  | [] => []
  | block :: rest => ⟨block, rest, trail⟩ :: sitesAlong (.previous block :: trail) rest

/-- The visits of the blocks of a chain, without those of what hangs off them. -/
def visitsAlong (trail : List Step) : List Block → Run → List Visit
  | [], _ => []
  | block :: rest, run =>
    ⟨⟨block, rest, trail⟩, run, (traceBlock trail rest block run).value⟩ ::
      visitsAlong (.previous block :: trail) rest (traceBlock trail rest block run).run

theorem map_block_sitesAlong : ∀ (trail : List Step) (chain : List Block),
    (sitesAlong trail chain).map Site.block = chain
  | _, [] => rfl
  | _, block :: rest => congrArg (block :: ·) (map_block_sitesAlong _ rest)

theorem map_site_visitsAlong : ∀ (trail : List Step) (chain : List Block) (run : Run),
    (visitsAlong trail chain run).map Visit.site = sitesAlong trail chain
  | _, [], _ => rfl
  | _, _ :: rest, _ => congrArg (List.cons _) (map_site_visitsAlong _ rest _)

theorem map_text_visitsAlong : ∀ (trail : List Step) (chain : List Block) (run : Run),
    (visitsAlong trail chain run).map Visit.text = ownTexts trail chain run
  | _, [], _ => rfl
  | _, _ :: rest, _ => congrArg (List.cons _) (map_text_visitsAlong _ rest _)

theorem text_of_mem_visitsAlong : ∀ (trail : List Step) (chain : List Block) (run : Run),
    ∀ visit ∈ visitsAlong trail chain run, visit.text =
      (traceBlock visit.site.trail visit.site.followers visit.site.block visit.run).value
  | _, [], _, _, h => by cases h
  | trail, block :: rest, run, visit, h => by
    rcases List.mem_cons.1 h with rfl | h
    · rfl
    · exact text_of_mem_visitsAlong _ rest _ visit h

theorem visitsAlong_subset : ∀ {chain : List Block} (trail : List Step) {run : Run},
    (∀ block ∈ chain, block.IsInner) → run.emitting = true →
      visitsAlong trail chain run ⊆ (traceChain trail chain run).visits
  | [], _, _, _, _ => List.nil_subset _
  | .mk id kind fields slots :: rest, trail, run, inner, hemitting => by
    obtain ⟨-, hstill⟩ := passed_inner (inner _ List.mem_cons_self) trail rest hemitting
    have hrest := visitsAlong_subset (.previous (.mk id kind fields slots) :: trail)
      (fun block hb => inner block (List.mem_cons_of_mem _ hb)) hstill
    simp only [traceChain, counts_of_emitting kind hstill, Bool.not_true, Bool.false_eq_true,
      if_false]
    exact List.cons_subset.2 ⟨List.mem_append_left _ (head_mem_visits _ _ _ _),
      fun visit h => List.mem_append_right _ (hrest h)⟩

theorem emitting_of_mem_visitsAlong : ∀ {chain : List Block} (trail : List Step) {run : Run},
    (∀ block ∈ chain, block.IsInner) → run.emitting = true →
      ∀ visit ∈ visitsAlong trail chain run, visit.run.emitting = true
  | [], _, _, _, _, _, h => by cases h
  | block :: rest, trail, run, inner, hemitting, visit, h => by
    obtain ⟨-, hstill⟩ := passed_inner (inner _ List.mem_cons_self) trail rest hemitting
    rcases List.mem_cons.1 h with rfl | h
    · exact hemitting
    · exact emitting_of_mem_visitsAlong _
        (fun other ho => inner other (List.mem_cons_of_mem _ ho)) hstill visit h

theorem owner_of_mem_sitesAlong : ∀ (trail : List Step) (chain : List Block),
    ∀ site ∈ sitesAlong trail chain, site.owner = Site.firstOwner trail
  | _, [], _, h => by cases h
  | trail, block :: rest, site, h => by
    rcases List.mem_cons.1 h with rfl | h
    · rfl
    · exact owner_of_mem_sitesAlong (.previous block :: trail) rest site h

end Block

/-! ## Inside of a block -/

/-- The visits of the blocks of the chain inside. -/
def Visit.inside (visit : Visit) : List Visit :=
  visitsAlong (.owner visit.site.block :: visit.site.trail) visit.site.block.body
    (visit.site.block.start visit.run)

/-- The sites of the blocks of the chain inside. -/
def Site.inside (site : Site) : List Site :=
  sitesAlong (.owner site.block :: site.trail) site.block.body

namespace Visit

variable {visit : Visit}

theorem map_site_inside (visit : Visit) : visit.inside.map site = visit.site.inside :=
  map_site_visitsAlong ..

theorem map_text_inside (visit : Visit) :
    visit.inside.map text = visit.site.block.bodyTexts visit.site.trail visit.run :=
  map_text_visitsAlong ..

theorem map_block_inside (visit : Visit) :
    visit.inside.map (fun inner => inner.site.block) = visit.site.block.body :=
  calc visit.inside.map (fun inner => inner.site.block)
    _ = (visit.inside.map site).map Site.block := (List.map_map ..).symm
    _ = visit.site.inside.map Site.block := by rw [map_site_inside]
    _ = visit.site.block.body := map_block_sitesAlong _ _

theorem block_mem_body {inner : Visit} (h : inner ∈ visit.inside) :
    inner.site.block ∈ visit.site.block.body :=
  visit.map_block_inside ▸ List.mem_map_of_mem h

/-- The chain inside of a visited term is walked while the walk is inside of a program or
definition, so what is visited in it counts. -/
theorem inside_subset (visit : Visit) (placed : visit.site.block.wellPlaced = true)
    (hterm : visit.site.block.kind.isTerm = true)
    (hcounts : visit.run.counts visit.site.block.kind = true) :
    visit.inside ⊆ (traceBlock visit.site.trail visit.site.followers visit.site.block
      visit.run).visits := by
  have hemitting : (visit.site.block.start visit.run).emitting = true :=
    emitting_opened hterm hcounts
  rw [traceBlock_eq _ _ placed hterm hcounts]
  exact fun inner h => List.mem_cons_of_mem _ (List.mem_append_right _
    (visitsAlong_subset _ (fun inner => isInner_of_mem_body placed) hemitting h))

theorem emitting_of_mem_inside (placed : visit.site.block.wellPlaced = true)
    (hterm : visit.site.block.kind.isTerm = true)
    (hcounts : visit.run.counts visit.site.block.kind = true) :
    ∀ inner ∈ visit.inside, inner.run.emitting = true := by
  have hemitting : (visit.site.block.start visit.run).emitting = true :=
    emitting_opened hterm hcounts
  exact emitting_of_mem_visitsAlong _ (fun inner => isInner_of_mem_body placed) hemitting

/-- The chain of a block inside is the one of the block around. -/
theorem owner_of_mem_inside {inner : Visit} (h : inner ∈ visit.inside) :
    inner.site.owner = some visit.site.block := by
  have hsite : inner.site ∈ visit.site.inside := visit.map_site_inside ▸ List.mem_map_of_mem h
  exact owner_of_mem_sitesAlong _ _ _ hsite

end Visit

/-- Whether the chain of a block is the one of a program or definition. -/
def Site.inBody (site : Site) : Bool := site.owner.any fun owner => owner.kind.opensGate

/-! ## Ways of the walk -/

namespace Block

/-- The chains that the walk over a program or definition comes to, with the trails that lead back
and where the walk stands. -/
inductive Comes (head : Block) (begin : Run) : List Step → List Block → Run → Prop
  | head : Comes head begin [] [head] begin
  | previous {trail : List Step} {block : Block} {rest : List Block} {run : Run} :
      Comes head begin trail (block :: rest) run →
        Comes head begin (.previous block :: trail) rest (traceBlock trail rest block run).run
  | owner {trail : List Step} {block : Block} {rest : List Block} {run : Run} :
      Comes head begin trail (block :: rest) run →
        Comes head begin (.owner block :: trail) block.body (block.start run)

variable {head block : Block} {begin run : Run} {trail : List Step} {rest chain : List Block}

section

variable (placed : head.wellPlaced = true) (hgate : head.kind.opensGate = true)
include placed hgate

/-- On a way, there is nothing but the program or definition itself and what chains inside hold. -/
theorem Comes.eq_or_isInner (h : Comes head begin trail chain run) :
    chain = [head] ∨ (∀ block ∈ chain, block.IsInner) ∧ (chain ≠ [] → run.emitting = true) := by
  induction h with
  | head => exact .inl rfl
  | @previous trail block rest run h ih =>
    refine .inr ?_
    rcases ih with heq | ⟨hinner, hemitting⟩
    · obtain rfl := (List.cons.inj heq).2
      exact ⟨by simp, by simp⟩
    · obtain ⟨-, hstill⟩ := passed_inner (hinner block List.mem_cons_self) trail rest
        (hemitting (List.cons_ne_nil _ _))
      exact ⟨fun other ho => hinner other (List.mem_cons_of_mem _ ho), fun _ => hstill⟩
  | @owner trail block rest run h ih =>
    have hblock : block.wellPlaced = true ∧ block.kind.isTerm = true ∧
        run.counts block.kind = true := by
      rcases ih with heq | ⟨hinner, hemitting⟩
      · obtain ⟨rfl, -⟩ := List.cons.inj heq
        exact ⟨placed, Kind.isTerm_of_opensGate hgate, counts_of_opensGate _ hgate⟩
      · obtain ⟨hplaced, hterm, -⟩ := hinner block List.mem_cons_self
        exact ⟨hplaced, hterm, counts_of_emitting _ (hemitting (List.cons_ne_nil _ _))⟩
    exact .inr ⟨fun inner => isInner_of_mem_body hblock.1,
      fun _ => emitting_opened hblock.2.1 hblock.2.2⟩

theorem Comes.isTerm (h : Comes head begin trail (block :: rest) run) :
    block.wellPlaced = true ∧ block.kind.isTerm = true ∧ run.counts block.kind = true := by
  rcases h.eq_or_isInner placed hgate with heq | ⟨hinner, hemitting⟩
  · obtain ⟨rfl, -⟩ := List.cons.inj heq
    exact ⟨placed, Kind.isTerm_of_opensGate hgate, counts_of_opensGate _ hgate⟩
  · obtain ⟨hplaced, hterm, -⟩ := hinner block List.mem_cons_self
    exact ⟨hplaced, hterm, counts_of_emitting _ (hemitting (List.cons_ne_nil _ _))⟩

/-- Where there is something to visit, the innermost scope is the body of a program or definition
if and only if the chain belongs to one. -/
theorem Comes.around {kinds : List ScopeKind} {outer : ScopeKind}
    (hbegin : begin.scopes.Around (kinds ++ [outer])) (hbody : outer.isBody = false)
    (h : Comes head begin trail chain run) (hchain : chain ≠ []) :
    ∃ kinds around, run.scopes.Around (kinds ++ [around]) ∧
      around.isBody = (Site.firstOwner trail).any fun owner => owner.kind.opensGate := by
  induction h with
  | head => exact ⟨kinds, outer, hbegin, hbody⟩
  | @previous trail block rest run h ih =>
    obtain ⟨kinds, around, haround, howner⟩ := ih (List.cons_ne_nil _ _)
    obtain ⟨hplaced, hterm, hcounts⟩ := h.isTerm placed hgate
    obtain ⟨hpassed, -⟩ := passed block trail rest hplaced hterm hcounts
    exact ⟨kinds, around, hpassed.around _ haround, howner⟩
  | @owner trail block rest run h ih =>
    obtain ⟨kinds, around, haround, -⟩ := ih (List.cons_ne_nil _ _)
    obtain ⟨-, hterm, -⟩ := h.isTerm placed hgate
    have hstart := block.around_start hterm haround
    cases hscope : block.scope? with
    | none => exact absurd (body_of_scope?_eq_none hscope) hchain
    | some kind =>
      rw [hscope] at hstart
      exact ⟨_, kind, hstart, isBody_of_scope? hscope⟩

/-- Where there is something to visit, the keys to come are new. -/
theorem Comes.at {place : Standing} {more : List String}
    (hbegin : begin.At place (head.ownKeys ++ more)) (h : Comes head begin trail chain run)
    (hchain : chain ≠ []) : ∃ place more, run.At place (keysOf chain ++ more) := by
  induction h with
  | head => exact ⟨place, more, by simpa [keysOf_cons] using hbegin⟩
  | @previous trail block rest run h ih =>
    obtain ⟨place, more, hat⟩ := ih (List.cons_ne_nil _ _)
    obtain ⟨hplaced, hterm, hcounts⟩ := h.isTerm placed hgate
    rw [keysOf_cons, List.append_assoc] at hat
    exact ⟨_, _, (walked block trail rest hplaced hterm hcounts hat).1⟩
  | @owner trail block rest run h ih =>
    obtain ⟨place, more, hat⟩ := ih (List.cons_ne_nil _ _)
    rw [keysOf_cons, List.append_assoc] at hat
    cases hscope : block.scope? with
    | none => exact absurd (body_of_scope?_eq_none hscope) hchain
    | some kind => exact ⟨_, _, hat.start hscope⟩

end

/-- In a walk over a term on the way, every term is visited on the way. -/
def IsMet (head : Block) (begin : Run) (block : Block) : Prop :=
  ∀ (trail : List Step) (followers : List Block) {run : Run}, block.wellPlaced = true →
    block.kind.isTerm = true → run.counts block.kind = true →
    Comes head begin trail (block :: followers) run →
    ∀ visit ∈ (traceBlock trail followers block run).visits,
      visit.site.block.kind.isTerm = true →
      Comes head begin visit.site.trail (visit.site.block :: visit.site.followers) visit.run

theorem met_chain : ∀ {chain : List Block} (trail : List Step) {run : Run},
    (∀ block ∈ chain, IsMet head begin block) → (∀ block ∈ chain, block.IsInner) →
      run.emitting = true → Comes head begin trail chain run →
      ∀ visit ∈ (traceChain trail chain run).visits, visit.site.block.kind.isTerm = true →
        Comes head begin visit.site.trail (visit.site.block :: visit.site.followers) visit.run
  | [], _, _, _, _, _, _, visit, h, _ => by simp [traceChain] at h
  | .mk id kind fields slots :: rest, trail, run, met, inner, hemitting, comes, visit, h,
      hterm => by
    have hinner := inner _ List.mem_cons_self
    obtain ⟨-, hstill⟩ := passed_inner hinner trail rest hemitting
    simp only [traceChain, counts_of_emitting kind hstill, Bool.not_true, Bool.false_eq_true,
      if_false, List.mem_append] at h
    rcases h with h | h
    · exact met _ List.mem_cons_self trail rest hinner.1 hinner.2.1
        (counts_of_emitting _ hemitting) comes visit h hterm
    · exact met_chain _ (fun block hb => met block (List.mem_cons_of_mem _ hb))
        (fun block hb => inner block (List.mem_cons_of_mem _ hb)) hstill comes.previous visit h
        hterm

theorem met_of_body (inside : ∀ inner ∈ block.body, IsMet head begin inner) :
    IsMet head begin block := by
  intro trail followers run placed hterm hcounts comes visit h hvisit
  rcases mem_visits_traceBlock placed hterm hcounts h with ⟨hsite, hrun⟩ | ⟨-, hkind, -⟩ |
    hname | h
  · rw [hsite, hrun]
    exact comes
  · rw [hkind] at hvisit
    cases hvisit
  · rw [Kind.not_isTerm_of_isName hname] at hvisit
    cases hvisit
  · have hemitting : (block.start run).emitting = true := emitting_opened hterm hcounts
    exact met_chain _ inside (fun inner => isInner_of_mem_body placed) hemitting comes.owner visit h
      hvisit

theorem met (head : Block) (begin : Run) (block : Block) : IsMet head begin block :=
  body_induction (fun _ => met_of_body) block

end Block

/-! ## The top level -/

namespace Root

variable {root : Root} {run : Run} {visit : Visit}

/-- Outside of programs and definitions, no term counts. -/
theorem comes_chain (placed : root.wellPlaced = true) (hemitting : run.emitting = false)
    (h : visit ∈ (traceChain [] root.chain run).visits)
    (hterm : visit.site.block.kind.isTerm = true)
    (hcounts : visit.run.counts visit.site.block.kind = true) :
    root.head.kind.opensGate = true ∧ Comes root.head run visit.site.trail
      (visit.site.block :: visit.site.followers) visit.run := by
  by_cases hgate : root.head.kind.opensGate = true
  · rw [chain_of_opensGate placed hgate, traceChain_singleton] at h
    exact ⟨hgate, met root.head run root.head [] [] (of_wellPlaced placed _ List.mem_cons_self)
      (Kind.isTerm_of_opensGate hgate) (counts_of_opensGate run hgate) .head visit h hterm⟩
  by_cases hglobal : root.isGlobal = true
  · have hkinds := kind_of_isGlobal placed hglobal
    have hname := visits_names [] root.chain run
      (fun block hb => by simp [hkinds block hb, Kind.isName]) visit h
    rw [Kind.not_isTerm_of_isName hname] at hterm
    cases hterm
  · have hnot := not_counts_head (by simpa using hglobal) (by simpa using hgate) hemitting
    rw [chain, traceChain_of_not_counts hnot, List.mem_singleton] at h
    rw [h, hnot] at hcounts
    cases hcounts

/-- A term that counts is visited on a way from the head of one of the chains, once the walk has
been over those before it. -/
theorem comes_roots {kinds : List ScopeKind} : ∀ {roots : List Root} {run : Run},
    (∀ root ∈ roots, root.wellPlaced = true) → run.emitting = false → run.scopes.Around kinds →
    visit ∈ (traceRoots roots run).visits → visit.site.block.kind.isTerm = true →
    visit.run.counts visit.site.block.kind = true →
    ∃ before root after, roots = before ++ root :: after ∧ root.head.kind.opensGate = true ∧
      (traceRoots before run).run.scopes.Around kinds ∧
      Comes root.head (traceRoots before run).run visit.site.trail
        (visit.site.block :: visit.site.followers) visit.run
  | [], _, _, _, _, h, _, _ => by cases h
  | root :: roots, run, placed, hemitting, haround, h, hterm, hcounts => by
    have hroot := placed root List.mem_cons_self
    rcases List.mem_append.1 h with h | h
    · obtain ⟨hgate, comes⟩ := comes_chain hroot hemitting h hterm hcounts
      exact ⟨[], root, roots, rfl, hgate, haround, comes⟩
    · obtain ⟨hpast, hstill⟩ := around_chain hroot hemitting haround
      obtain ⟨before, other, after, rfl, hother⟩ := comes_roots
        (fun root hr => placed root (List.mem_cons_of_mem _ hr)) hstill hpast h hterm hcounts
      exact ⟨root :: before, other, after, rfl, hother⟩

end Root

namespace Tree

variable {tree : Tree} {scopes : Scopes} {visit : Visit}

section

variable (placed : tree.wellPlaced = true) (h : visit ∈ tree.visits scopes)
  (hterm : visit.site.block.kind.isTerm = true)
  (hcounts : visit.run.counts visit.site.block.kind = true)
include placed h hterm hcounts

/-- At a term that counts, the innermost scope is the body of a program or definition if and only
if the chain of the term is the one of a program or definition. -/
theorem around_of_mem_visits : ∃ kinds around, visit.run.scopes.Around (kinds ++ [around]) ∧
    around.isBody = visit.site.inBody := by
  have hroots : ∀ root ∈ tree.visitOrder, root.wellPlaced = true :=
    fun root => wellPlaced_of_mem placed
  obtain ⟨before, root, after, horder, hgate, haround, comes⟩ := Root.comes_roots hroots rfl
    (Scopes.Around.begin scopes) h hterm hcounts
  have hhead := Root.of_wellPlaced (hroots root (by simp [horder])) root.head List.mem_cons_self
  have hglobal : (Root.traceRoots before { scopes := scopes.begin }).run.scopes.Around
      ([] ++ [.global]) := haround
  exact comes.around hhead hgate hglobal rfl (List.cons_ne_nil _ _)

/-- At a term that counts, its keys are new in the innermost scope. -/
theorem at_of_mem_visits (distinct : (tree.ids.map Scope.key).Nodup) :
    ∃ place more, visit.run.At place (visit.site.block.ownKeys ++ more) := by
  have hroots : ∀ root ∈ tree.visitOrder, root.wellPlaced = true :=
    fun root => wellPlaced_of_mem placed
  obtain ⟨before, root, after, horder, hgate, -, comes⟩ := Root.comes_roots hroots rfl
    (Scopes.Around.begin scopes) h hterm hcounts
  have hroot := hroots root (by simp [horder])
  have hhead := Root.of_wellPlaced hroot root.head List.mem_cons_self
  have hat := tree.at_outset distinct scopes
  rw [horder, List.flatMap_append, List.append_assoc, List.flatMap_cons,
    Root.chain_of_opensGate hroot hgate, keysOf_cons, List.append_assoc, List.append_assoc] at hat
  obtain ⟨hbegin, -⟩ :=
    Root.walked_roots (fun root hr => hroots root (by simp [horder, hr])) rfl hat
  obtain ⟨place, more, hat⟩ := comes.at hhead hgate hbegin (List.cons_ne_nil _ _)
  rw [keysOf_cons, List.append_assoc] at hat
  exact ⟨place, _, hat⟩

/-- What is visited in the chain inside of a visited term is visited in the pass. -/
theorem inside_subset : visit.inside ⊆ tree.visits scopes := by
  have htelling := telling_of_mem_visits h
  exact fun inner hinner => htelling.below
    (visit.inside_subset (tree.wellPlaced_of_mem_sites placed htelling.site) hterm hcounts hinner)

end

end Tree

end PiBlocks
