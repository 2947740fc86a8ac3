import PiBlocks.Proofs.Walk.Texts

/-!
# Texts of programs and definitions by themselves

What the walk writes for a term hangs on the names that are visible where it stands and on the kind
of the scope around it, and on nothing else (`Block.reads`) : two walks over a term that stand where
the same names are visible, in scopes of one kind, give the same text, whatever was walked before.
At a program or definition the visible names are the global ones, so its line is the one it has by
itself among them (`Tree.rootLines_eq`).
-/

namespace PiBlocks

open Block

/-! ## Places that look the same -/

/-- At two places the innermost scopes are of one kind and the same names are visible. -/
structure Standing.Alike (place other : Standing) : Prop where
  kind : place.scope.kind = other.scope.kind
  names : ∀ name, (name ∈ place.scope.names ∨ ∃ frame ∈ place.outer, name ∈ frame.scope.names) ↔
    name ∈ other.scope.names ∨ ∃ frame ∈ other.outer, name ∈ frame.scope.names

namespace Standing.Alike

variable {place other : Standing}

theorem inside (h : place.Alike other) (block : Block) (kind : ScopeKind) :
    (place.inside block kind).Alike (other.inside block kind) := by
  refine ⟨rfl, fun name => ?_⟩
  simp [Standing.inside, h.names name]

theorem extend (h : place.Alike other) (inner inner' : List (String × Scope)) :
    (place.extend [] inner).Alike (other.extend [] inner') := by
  refine ⟨by simpa [Standing.extend] using h.kind, fun name => ?_⟩
  simpa [Standing.extend] using h.names name

end Standing.Alike

namespace Run.At

variable {run other : Run} {place place' : Standing} {coming coming' : List String}

theorem currentKind (h : run.At place coming) : run.scopes.currentKind = place.scope.kind := by
  rw [h.scopes, Scopes.currentKind, Standing.scopes, Snapshot.current?_opened h.fresh]
  rfl

theorem isVisible_congr (h : run.At place coming) (h' : other.At place' coming')
    (alike : place.Alike place') (name : String) :
    run.scopes.isVisible name = other.scopes.isVisible name := by
  rw [Bool.eq_iff_iff, h.scopes, h'.scopes, Standing.scopes, Standing.scopes,
    Scopes.isVisible_opened h.fresh, Scopes.isVisible_opened h'.fresh, alike.names name]

end Run.At

namespace Block

/-! ## Values -/

section Values

variable {run other : Run} (hemitting : run.emitting = other.emitting)
  (hvisible : ∀ name, run.scopes.isVisible name = other.scopes.isVisible name)
include hemitting hvisible

theorem printed_congr : printed run = printed other := by
  funext block
  simp only [printed, hemitting, hvisible]

theorem printedIn_congr : printedIn run = printedIn other := by
  funext slot block
  rw [printedIn, printedIn, printed_congr hemitting hvisible]

theorem printedItems_congr : printedItems run = printedItems other := by
  funext items block
  rw [printedItems, printedItems, printedIn_congr hemitting hvisible]

end Values

/-! ## Terms -/

/-- The own text of a term hangs on the texts of its parts and on whether the scope around is the
body of a program or definition. -/
theorem ownText_congr {parts parts' : Parts} {scopes scopes' : Scopes} {block : Block}
    (hterm : block.kind.isTerm = true) (hfirst : parts.first = parts'.first)
    (hsecond : parts.second = parts'.second) (hitems : parts.items = parts'.items)
    (hbody : parts.body = parts'.body)
    (hcount : block.kind.isFork = true → parts.count = parts'.count)
    (hkind : scopes.currentKind.isBody = scopes'.currentKind.isBody) :
    parts.ownText scopes block.kind block.fields block.slots =
      parts'.ownText scopes' block.kind block.fields block.slots := by
  obtain ⟨first, second, items, body, count⟩ := parts
  obtain rfl := hfirst
  obtain rfl := hsecond
  obtain rfl := hitems
  obtain rfl := hbody
  have hfork (h : count = parts'.count) : forkText count scopes.currentKind parts'.body =
      forkText parts'.count scopes'.currentKind parts'.body := by
    rw [forkText, forkText, h, hkind]
  revert hterm hcount
  cases block.kind <;> intro hterm hcount <;>
    first
    | (cases hterm; done)
    | rfl
    | exact hfork (hcount rfl)

/-- What hangs on the names that are visible and on the kind of the scope around : two walks over
the term give the same text if they stand at places that are alike. -/
def Reads (block : Block) : Prop :=
  ∀ (trail : List Step) (followers : List Block) {run other : Run} {place place' : Standing}
    {more more' : List String}, block.wellPlaced = true → block.kind.isTerm = true →
    run.counts block.kind = true → run.emitting = other.emitting →
    run.At place (block.ownKeys ++ more) → other.At place' (block.ownKeys ++ more') →
    place.Alike place' → (traceBlock trail followers block run).value =
      (traceBlock trail followers block other).value

theorem ownTexts_congr : ∀ {chain : List Block} (trail : List Step) {run other : Run}
    {place place' : Standing} {more more' : List String}, (∀ block ∈ chain, Reads block) →
    (∀ block ∈ chain, block.IsInner) → run.emitting = true → other.emitting = true →
    run.At place (keysOf chain ++ more) → other.At place' (keysOf chain ++ more') →
    place.Alike place' → ownTexts trail chain run = ownTexts trail chain other
  | [], trail, run, other, place, place', more, more', _, _, _, _, _, _, _ => rfl
  | block :: rest, trail, run, other, place, place', more, more', reads, inner, hemitting,
      hemitting', hat, hat', alike => by
    rw [keysOf_cons, List.append_assoc] at hat hat'
    have hinner := inner block List.mem_cons_self
    have hown := reads block List.mem_cons_self trail rest hinner.1 hinner.2.1
      (counts_of_emitting _ hemitting) (hemitting.trans hemitting'.symm) hat hat' alike
    obtain ⟨hnext, hstill⟩ := walked_step (walked block) hinner trail rest hemitting hat
    obtain ⟨hnext', hstill'⟩ := walked_step (walked block) hinner trail rest hemitting' hat'
    have hrest := ownTexts_congr (.previous block :: trail)
      (fun inner hb => reads inner (List.mem_cons_of_mem _ hb))
      (fun other hb => inner other (List.mem_cons_of_mem _ hb)) hstill hstill' hnext hnext'
      (alike.extend _ _)
    rw [ownTexts, ownTexts, hown, hrest]

section

variable {block : Block} {run other : Run} {place place' : Standing} {more more' : List String}

theorem currentKind_finish (trail) (placed : block.wellPlaced = true)
    (hterm : block.kind.isTerm = true) (hcounts : run.counts block.kind = true)
    (hat : run.At place (block.ownKeys ++ more)) :
    (block.finish trail run).scopes.currentKind = place.scope.kind := by
  have hpast := (walked block trail [] placed hterm hcounts hat).1
  rw [run_traceBlock trail [] placed hterm hcounts] at hpast
  exact hpast.currentKind.trans (Scope.kind_extend _ _ _)

/-- The texts inside of a term hang on the names that are visible inside. -/
theorem bodyTexts_congr (trail) (inside : ∀ inner ∈ block.body, Reads inner)
    (placed : block.wellPlaced = true) (hterm : block.kind.isTerm = true)
    (hcounts : run.counts block.kind = true) (hcounts' : other.counts block.kind = true)
    (hat : run.At place (block.ownKeys ++ more)) (hat' : other.At place' (block.ownKeys ++ more'))
    (alike : place.Alike place') :
    block.bodyTexts trail run = block.bodyTexts trail other := by
  cases hscope : block.scope? with
  | none => rw [bodyTexts, bodyTexts, body_of_scope?_eq_none hscope, ownTexts, ownTexts]
  | some kind =>
    exact ownTexts_congr _ inside (fun inner => isInner_of_mem_body placed)
      (emitting_opened hterm hcounts) (emitting_opened hterm hcounts') (hat.start hscope)
      (hat'.start hscope) (alike.inside block kind)

theorem reads_of_body (inside : ∀ inner ∈ block.body, Reads inner) : Reads block := by
  intro trail followers run other place place' more more' placed hterm hcounts hemitting hat hat'
    alike
  have hcounts' : other.counts block.kind = true := by
    rw [← hcounts, Run.counts, Run.counts, hemitting]
  have hvisible := hat.isVisible_congr hat' alike
  obtain ⟨hfirst, hsecond, hitems⟩ := parts_values trail placed run
  obtain ⟨hfirst', hsecond', hitems'⟩ := parts_values trail placed other
  obtain ⟨hbody, hcount⟩ := parts_body trail placed hterm hcounts
  obtain ⟨hbody', hcount'⟩ := parts_body trail placed hterm hcounts'
  have htexts := bodyTexts_congr trail inside placed hterm hcounts hcounts' hat hat' alike
  -- values hang on visible names, what is inside on the induction, and a fork on the kind around
  rw [traceBlock_eq trail followers placed hterm hcounts,
    traceBlock_eq trail followers placed hterm hcounts']
  refine ownText_congr hterm ?_ ?_ ?_ ?_ ?_ ?_
  · rw [hfirst, hfirst', printedIn_congr hemitting hvisible]
  · rw [hsecond, hsecond', printedIn_congr hemitting hvisible]
  · rw [hitems, hitems', printedItems_congr hemitting hvisible]
  · rw [hbody, hbody', htexts]
  · exact fun hfork => by rw [hcount hfork, hcount' hfork, htexts]
  · rw [currentKind_finish trail placed hterm hcounts hat,
      currentKind_finish trail placed hterm hcounts' hat', alike.kind]

/-- The text of a term hangs on the names that are visible where it stands and on the kind of the
scope around it. -/
theorem reads (block : Block) : Reads block :=
  body_induction (fun _ => reads_of_body) block

end

end Block

/-! ## The top level -/

/-- The place of a walk that has come to nothing but global names. -/
def Standing.among (names : List String) : Standing where
  base := {}
  committed := {}
  key := Scope.globalKey
  scope := .mk .global names []
  outer := []

/-- A run at that place. -/
def Run.among (names : List String) : Run where
  scopes := (Standing.among names).scopes

/-- The line of a program or definition by itself among global names, if it has text. -/
def Block.lineAmong (names : List String) (block : Block) : List Line :=
  if block.kind.opensGate then
    Root.lineOf ⟨block, [], none⟩ (traceBlock [] [] block (.among names)).value
  else []

/-- The lines of chains of the top level, each with its chain. -/
def Root.linesFrom : List Root → Run → List (Root × List Line)
  | [], _ => []
  | root :: roots, run =>
    (root, (root.renderLine.run run).1) :: linesFrom roots (root.renderLine.run run).2

/-- The lines of a pass, each with the chain of the top level it comes from. -/
def Tree.rootLines (tree : Tree) (scopes : Scopes) : List (Root × List Line) :=
  Root.linesFrom tree.visitOrder { scopes := scopes.begin }

theorem Run.At.among {block : Block} (names : List String) (distinct : block.ownKeys.Nodup) :
    (Run.among names).At (.among names) (block.ownKeys ++ []) :=
  ⟨rfl, trivial, by simpa [Standing.among, Scope.children, OrderedMap.keys] using distinct⟩

/-- The line by itself hangs on which names are among the global ones, not on their order. -/
theorem Block.lineAmong_congr {block : Block} {names names' : List String}
    (placed : block.wellPlaced = true) (distinct : block.ownKeys.Nodup)
    (hnames : ∀ name, name ∈ names ↔ name ∈ names') :
    block.lineAmong names = block.lineAmong names' := by
  have alike : (Standing.among names).Alike (.among names') :=
    ⟨rfl, fun name => by simpa [Standing.among] using hnames name⟩
  rw [lineAmong, lineAmong]
  split_ifs with hgate
  · have hterm := Kind.isTerm_of_opensGate hgate
    have hemitting : (Run.among names).emitting = (Run.among names').emitting := rfl
    rw [reads block [] [] placed hterm (counts_of_opensGate _ hgate) hemitting
      (.among names distinct) (.among names' distinct) alike]
  · rfl

namespace Root

variable {root : Root} {run : Run} {place : Standing} {more names : List String}

theorem run_renderLine (root : Root) (run : Run) : root.renderLine.run run =
    (root.lineOf (traceChain [] root.chain run).value, (traceChain [] root.chain run).run) := by
  have hown : (renderChain root.chain).run run = pure _ := run_renderChain root.chain [] run
  change _ = pure (root.lineOf (traceChain [] root.chain run).value,
    (traceChain [] root.chain run).run)
  by_cases h : (traceChain [] root.chain run).value = "" <;> simp [renderLine, lineOf, hown, h]

theorem value_traceRoots : ∀ (roots : List Root) (run : Run),
    (traceRoots roots run).value = (linesFrom roots run).flatMap Prod.snd
  | [], run => rfl
  | root :: roots, run => by
    rw [traceRoots, linesFrom, run_renderLine, List.flatMap_cons, value_traceRoots roots]

theorem linesFrom_append : ∀ (roots more : List Root) (run : Run),
    linesFrom (roots ++ more) run = linesFrom roots run ++ linesFrom more (traceRoots roots run).run
  | [], more, run => rfl
  | root :: roots, more, run => by
    simp only [List.cons_append, linesFrom, run_renderLine, linesFrom_append roots, traceRoots]

/-- At a place where the names are visible, a chain of the top level gives the line its head has
by itself. -/
theorem lineOf_value (placed : root.wellPlaced = true) (hemitting : run.emitting = false)
    (hat : run.At place (keysOf root.chain ++ more)) (alike : place.Alike (.among names)) :
    root.lineOf (traceChain [] root.chain run).value = root.head.lineAmong names := by
  rw [lineAmong]
  split_ifs with hgate
  · have hchain := chain_of_opensGate placed hgate
    rw [hchain, keysOf_cons, keysOf_nil, List.append_nil] at hat
    have distinct := ((List.nodup_append.1 hat.nodup).2.1).sublist (List.sublist_append_left _ _)
    have hterm := Kind.isTerm_of_opensGate hgate
    rw [value_of_opensGate placed hgate,
      reads root.head [] [] (of_wellPlaced placed _ List.mem_cons_self) hterm
        (counts_of_opensGate run hgate) hemitting hat (.among names distinct) alike]
    rfl
  · rw [value_of_not_opensGate placed (by simpa using hgate) hemitting]
    rfl

theorem linesFrom_eq : ∀ {roots : List Root} {run : Run} {place : Standing},
    (∀ root ∈ roots, root.wellPlaced = true) → (∀ root ∈ roots, root.isGlobal = false) →
    run.emitting = false → run.At place ((roots.flatMap fun root => keysOf root.chain) ++ more) →
    place.Alike (.among names) →
      linesFrom roots run = roots.map fun root => (root, root.head.lineAmong names)
  | [], run, place, _, _, _, _, _ => rfl
  | root :: roots, run, place, placed, hlocal, hemitting, hat, alike => by
    rw [List.flatMap_cons, List.append_assoc] at hat
    have hroot := placed root List.mem_cons_self
    obtain ⟨hown, hstill⟩ := walked hroot hemitting hat
    -- a chain that declares no global name leaves the place as it was
    have hpast : (root.pastChain place).Alike (.among names) := by
      have hnames : root.globalNames = [] := by
        simp [globalNames, hlocal root List.mem_cons_self]
      refine ⟨?_, fun name => ?_⟩
      · simpa [pastChain, Standing.extend] using alike.kind
      · simpa [pastChain, Standing.extend, hnames] using alike.names name
    rw [linesFrom, run_renderLine, lineOf_value hroot hemitting hat alike,
      linesFrom_eq (fun root hr => placed root (List.mem_cons_of_mem _ hr))
        (fun root hr => hlocal root (List.mem_cons_of_mem _ hr)) hstill hown hpast, List.map_cons]

/-- Global names have no line. -/
theorem linesFrom_of_isGlobal : ∀ {roots : List Root} {run : Run},
    (∀ root ∈ roots, root.wellPlaced = true) → (∀ root ∈ roots, root.isGlobal = true) →
      linesFrom roots run = roots.map fun root => (root, root.head.lineAmong names)
  | [], run, _, _ => rfl
  | root :: roots, run, placed, hglobal => by
    have hkinds := kind_of_isGlobal (placed root List.mem_cons_self)
      (hglobal root List.mem_cons_self)
    have hvalue := value_names [] root.chain run
      fun block hb => by simp [hkinds block hb, Kind.isName]
    have hgate : root.head.kind.opensGate = false := by
      simp [hkinds root.head List.mem_cons_self, Kind.opensGate]
    rw [linesFrom, run_renderLine, hvalue,
      linesFrom_of_isGlobal (fun root hr => placed root (List.mem_cons_of_mem _ hr))
        (fun root hr => hglobal root (List.mem_cons_of_mem _ hr)), List.map_cons, lineAmong, hgate]
    rfl

end Root

namespace Tree

variable {tree : Tree}

/-- The lines of a pass are those of its chains. -/
theorem generate_lines (tree : Tree) (scopes : Scopes) :
    (tree.generate scopes).1 = (tree.rootLines scopes).flatMap Prod.snd := by
  rw [generate_eq, trace, Root.value_traceRoots, rootLines]

/-- Each chain of the top level gives the line it has by itself among the global names. -/
theorem rootLines_eq (placed : tree.wellPlaced = true)
    (distinct : (tree.ids.map Scope.key).Nodup) (scopes : Scopes) :
    tree.rootLines scopes =
      tree.visitOrder.map fun root => (root, root.head.lineAmong tree.globalNames) := by
  have hroots : ∀ root ∈ tree.visitOrder, root.wellPlaced = true :=
    fun root => wellPlaced_of_mem placed
  have hat := tree.at_outset distinct scopes
  rw [visitOrder] at hroots hat
  rw [List.flatMap_append, List.append_assoc] at hat
  -- all the global names are in place before the first program or definition
  obtain ⟨hown, hstill⟩ := Root.walked_roots
    (fun root hr => hroots root (List.mem_append_left _ hr)) rfl hat
  have alike : (Root.pastChains (tree.ordered.filter Root.isGlobal)
      (outset scopes)).Alike (.among tree.globalNames) := by
    rw [Root.pastChains_eq, flatMap_globalNames_of_isGlobal]
    exact ⟨rfl, fun name => by simp [outset, Standing.extend, Scope.empty, Standing.among]⟩
  rw [rootLines, visitOrder, Root.linesFrom_append, List.map_append,
    Root.linesFrom_of_isGlobal (fun root hr => hroots root (List.mem_append_left _ hr)) (by simp),
    Root.linesFrom_eq (fun root hr => hroots root (List.mem_append_right _ hr)) (by simp) hstill
      hown alike]

end Tree

end PiBlocks
