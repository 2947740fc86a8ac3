import PiBlocks.Proofs.Review.WayBack

/-!
# Where the check and the text agree on references

The check looks for the name of a reference in the scopes of the blocks it consults on the way
back (`Tree.Offers`), the walk in the scopes of the owners alone (`Tree.Binds`). The two agree on
a reference if and only if they agree on its name (`Tree.agrees_iff`), and they do if no block in
front opens a scope (`Tree.agrees_of_straight`). A restriction with a reference behind it is
enough to part them (`Tree.not_agrees_behind_scopes`).
-/

namespace PiBlocks

open Block

/-! ## Warnings about names -/

/-- Whether a problem is one of the name a reference selects. -/
def Problem.isAboutName : Problem → Bool
  | .nameNotInScope _ | .noNameSelected => true
  | _ => false

/-- The blocks in whose scopes the check looks for the name of a reference. -/
def Site.consulted (site : Site) : List Block := Step.consulted site.trail.tail

/-- The check finds a name for a reference : it is a global name, or a consulted block binds
it. -/
def Tree.Offers (tree : Tree) (site : Site) (name : String) : Prop :=
  name ∈ tree.globalNames ∨ ∃ block ∈ site.consulted, name ∈ block.binds

theorem Site.referenceProblem_eq_none_iff (site : Site) (snapshot : Snapshot) :
    site.referenceProblem snapshot = none ↔
      selectsNothing (site.block.field FieldName.name) = false ∧
        site.block.field FieldName.name ∈ site.visibleNames snapshot := by
  change (if selectsNothing (site.block.field FieldName.name) = true then _ else _) = none ↔ _
  split_ifs with hnothing hvisible <;> simp_all

theorem Site.isAboutName_of_referenceProblem {site : Site} {snapshot : Snapshot}
    {problem : Problem} (h : site.referenceProblem snapshot = some problem) :
    problem.isAboutName = true := by
  simp only [Site.referenceProblem] at h
  split_ifs at h <;> cases h <;> rfl

/-- There is a warning about the name of the block with an id. -/
def Generation.WarnsOfName (generation : Generation) (id : String) : Prop :=
  ∃ warning ∈ generation.warnings, warning.block = id ∧ warning.problem.isAboutName = true

namespace Tree

variable {tree : Tree} {scopes : Scopes} {visit : Visit}

theorem eq_of_id_eq (distinct : (tree.ids.map Scope.key).Nodup) {site other : Site}
    (hsite : site ∈ tree.sites) (hother : other ∈ tree.sites)
    (h : site.block.id = other.block.id) : site = other :=
  List.inj_on_of_nodup_map (List.Nodup.of_map _ distinct) hsite hother h

/-- Under the key of a program or definition is its scope. -/
theorem child?_snapshot (distinct : (tree.ids.map Scope.key).Nodup) {root : Root}
    (hroot : root ∈ tree.roots) (hgate : root.head.kind.opensGate = true) :
    tree.snapshot.global.child? (Scope.key root.head.id) = root.head.ownScope? := by
  exact Root.get?_flatMap_scopes (tree.nodup_ordered distinct) root (tree.mem_ordered.2 hroot)
    hgate

/-- The check finds the names that it offers. -/
theorem mem_visibleNames_iff (placed : tree.wellPlaced = true)
    (distinct : (tree.ids.map Scope.key).Nodup) (h : visit ∈ tree.visits scopes)
    (hopen : visit.run.emitting = true) (hkind : visit.site.block.kind = .reference)
    {name : String} (hname : name ≠ unresolved) :
    name ∈ visit.site.visibleNames tree.snapshot ↔ tree.Offers visit.site name := by
  obtain ⟨root, hroot, hgate, holder, rest, trail, reached, held, -⟩ :=
    reached_of_reference placed distinct h hopen hkind
  have hplaced : root.wellPlaced = true := List.all_eq_true.1 placed root hroot
  have hchain := Root.chain_of_opensGate hplaced hgate
  have hheads : ∀ block ∈ root.chain, block.wellPlaced = true ∧ block.kind.opensGate = true :=
    fun block hb => ⟨Root.of_wellPlaced hplaced block hb, by
      obtain rfl : block = root.head := by simpa [hchain] using hb
      exact hgate⟩
  have hnodup : (keysOf root.chain).Nodup :=
    (List.nodup_flatMap.1 (tree.nodup_visitOrder distinct)).1 root (tree.mem_visitOrder.2 hroot)
  have hleads := reached.leadsTo hnodup (fun block hb => by
    obtain rfl : block = root.head := by simpa [hchain] using hb
    exact child?_snapshot distinct hroot hgate) (List.cons_ne_nil _ _)
  have hpath := map_key_referenceAncestry hheads reached held
  rw [Site.visibleNames, Snapshot.visibleNames, hpath, List.mem_filter, decide_eq_true_eq,
    and_iff_left hname, Scope.mem_namesAlong hname, Offers, Site.consulted, held.consulted]
  exact hleads.finds name

/-- A pass checks the tree against the snapshot that the tree gives. -/
theorem warnings_pass (tree : Tree) (placed : tree.wellPlaced = true)
    (distinct : (tree.ids.map Scope.key).Nodup) (scopes : Scopes) (canonical : Bool) :
    (tree.pass scopes canonical).1.warnings = tree.warnings tree.snapshot := by
  rw [← tree.active_trace placed distinct scopes]
  simp only [pass, generate_eq]
  rfl

/-- A reference has a warning about its name if and only if the name is not valid or not
offered. -/
theorem warnsOfName_iff (placed : tree.wellPlaced = true)
    (distinct : (tree.ids.map Scope.key).Nodup) (h : visit ∈ tree.visits scopes)
    (hopen : visit.run.emitting = true) (hkind : visit.site.block.kind = .reference)
    (canonical : Bool) :
    (tree.pass scopes canonical).1.WarnsOfName visit.site.block.id ↔
      ¬(selectsNothing (visit.site.block.field FieldName.name) = false ∧
        tree.Offers visit.site (visit.site.block.field FieldName.name)) := by
  have hsite := (telling_of_mem_visits h).site
  have hwarnings : (tree.pass scopes canonical).1.warnings = tree.warnings tree.snapshot :=
    tree.warnings_pass placed distinct scopes canonical
  have hproblem : visit.site.problem tree.snapshot =
      visit.site.referenceProblem tree.snapshot := by simp [Site.problem, hkind]
  have hoffers : (selectsNothing (visit.site.block.field FieldName.name) = false ∧
      tree.Offers visit.site (visit.site.block.field FieldName.name)) ↔
        visit.site.referenceProblem tree.snapshot = none := by
    rw [Site.referenceProblem_eq_none_iff]
    refine and_congr_right fun hvalid =>
      (mem_visibleNames_iff placed distinct h hopen hkind ?_).symm
    rintro heq
    rw [heq] at hvalid
    cases hvalid
  rw [hoffers, Generation.WarnsOfName, hwarnings, Tree.warnings, ← ne_eq,
    ← Option.isSome_iff_ne_none, Option.isSome_iff_exists]
  constructor
  · rintro ⟨warning, hmem, hid, -⟩
    obtain ⟨other, hother, hwarning⟩ := List.mem_filterMap.1 hmem
    obtain ⟨problem, hother', rfl⟩ := Option.map_eq_some_iff.1 hwarning
    obtain rfl := eq_of_id_eq distinct hother hsite hid
    exact ⟨problem, hproblem ▸ hother'⟩
  · rintro ⟨problem, hsome⟩
    refine ⟨⟨problem, visit.site.block.id⟩, List.mem_filterMap.2 ⟨visit.site, hsite, ?_⟩, rfl,
      Site.isAboutName_of_referenceProblem hsome⟩
    rw [hproblem, hsome]
    rfl

theorem text_ne_empty_iff (placed : tree.wellPlaced = true)
    (distinct : (tree.ids.map Scope.key).Nodup) (h : visit ∈ tree.visits scopes)
    (hopen : visit.run.emitting = true) (hkind : visit.site.block.kind = .reference) :
    visit.text ≠ "" ↔ tree.Binds visit.site (visit.site.block.field FieldName.name) := by
  rw [value_reference (telling_of_mem_visits h) hopen hkind,
    ← isVisible_iff_binds placed distinct h hopen hkind]
  split_ifs with hvisible
  · have hvalid := ((isVisible_iff_binds placed distinct h hopen hkind _).1 hvisible).1
    refine iff_of_true (fun hempty => ?_) hvisible
    rw [hempty] at hvalid
    cases hvalid
  · simpa using hvisible

/-- The text has a reference exactly if no warning is about its name, exactly if the check
offers the name where it is bound and only there. -/
theorem agrees_iff (placed : tree.wellPlaced = true)
    (distinct : (tree.ids.map Scope.key).Nodup) (h : visit ∈ tree.visits scopes)
    (hopen : visit.run.emitting = true) (hkind : visit.site.block.kind = .reference)
    (canonical : Bool) :
    (visit.text ≠ "" ↔ ¬(tree.pass scopes canonical).1.WarnsOfName visit.site.block.id) ↔
      (selectsNothing (visit.site.block.field FieldName.name) = false →
        (tree.Binds visit.site (visit.site.block.field FieldName.name) ↔
          tree.Offers visit.site (visit.site.block.field FieldName.name))) := by
  rw [text_ne_empty_iff placed distinct h hopen hkind,
    warnsOfName_iff placed distinct h hopen hkind, not_not]
  cases hvalid : selectsNothing (visit.site.block.field FieldName.name) with
  | true => simp [Tree.Binds, hvalid]
  | false => simp

theorem agrees_iff_restricting : (restricting "x").wellPlaced = true ∧
    ((restricting "x").ids.map Scope.key).Nodup ∧
    ∃ visit ∈ (restricting "x").visits {}, visit.run.emitting = true ∧
      visit.site.block.kind = .reference ∧
      ((visit.text ≠ "" ↔
          ¬((restricting "x").pass {} true).1.WarnsOfName visit.site.block.id) ↔
        (selectsNothing (visit.site.block.field FieldName.name) = false →
          ((restricting "x").Binds visit.site (visit.site.block.field FieldName.name) ↔
            (restricting "x").Offers visit.site (visit.site.block.field FieldName.name)))) := by
  have distinct := nodup_keys_restricting
  obtain ⟨visit, h, hopen, hkind⟩ : ∃ visit ∈ (restricting "x").visits {},
      visit.run.emitting = true ∧ visit.site.block.kind = .reference := by decide +kernel
  exact ⟨by decide, distinct, visit, h, hopen, hkind,
    agrees_iff (by decide) distinct h hopen hkind true⟩

/-- Behind a restriction that has no chain inside, references to its name are dropped from the
text without a warning. Behind a guard, references to a name restricted around them are printed
and warned about. -/
theorem not_agrees_behind_scopes :
    (∃ tree, tree = program [.mk "restrict" .restrict [(FieldName.new, "x")] [], sending "x"] ∧
      tree.wellPlaced = true ∧ (tree.ids.map Scope.key).Nodup ∧
      (tree.pass {} true).1.warnings = [] ∧
      ∃ visit ∈ tree.visits {}, visit.run.emitting = true ∧
        visit.site.block.kind = .reference ∧ visit.text = "") ∧
    ∃ tree, tree = program [.mk "guard" .guarded [] [],
        .mk "restrict" .restrict [(FieldName.new, "x")] [(SlotName.scope, [sending "x"])]] ∧
      tree.wellPlaced = true ∧ (tree.ids.map Scope.key).Nodup ∧
      ∃ visit ∈ tree.visits {}, visit.run.emitting = true ∧ visit.site.block.kind = .reference ∧
        visit.text = "x" ∧
        ⟨.nameNotInScope "x", visit.site.block.id⟩ ∈ (tree.pass {} true).1.warnings := by
  exact ⟨⟨_, rfl, by decide +kernel⟩, ⟨_, rfl, by decide +kernel⟩⟩

end Tree

section

variable {trail : List Step} {holder : Block} {site : Site}

theorem Step.straight_of_append : ∀ (blocks : List Block) {trail : List Step},
    straight (blocks.map .previous ++ trail) = true → straight trail = true
  | [], _, h => h
  | _ :: blocks, _, h => by
    rw [List.map_cons, List.cons_append, straight, Bool.and_eq_true] at h
    exact straight_of_append blocks h.2

theorem HeldBy.straight (held : HeldBy holder trail site)
    (h : Step.straight site.trail.tail = true) : Step.straight trail = true := by
  cases held with
  | value _ _ _ => exact h
  | @item _ _ before _ _ _ _ _ _ _ _ =>
    have hrest : Step.straight (.owner holder :: trail) = true :=
      Step.straight_of_append before.reverse h
    exact hrest

/-- If no block in front opens a scope, the blocks consulted bind what the owners bind. -/
theorem Step.exists_consulted_iff (name : String) : ∀ {trail : List Step}, straight trail = true →
    ((∃ block ∈ consulted trail, name ∈ block.binds) ↔
      ∃ block ∈ owners trail, name ∈ block.binds)
  | [], _ => by simp [consulted, owners]
  | .previous block :: trail, h => by
    rw [straight, Bool.and_eq_true, Bool.not_eq_true'] at h
    rw [consulted, h.1, owners, ← exists_consulted_iff name h.2]
    rfl
  | .owner block :: trail, h => by
    have hrest := exists_consulted_iff name (show straight trail = true from h)
    cases hpasses : passes (.owner block) with
    | true =>
      rw [consulted, hpasses, show straight trail = true from h, owners]
      simp [Step.block, hrest]
    | false =>
      rw [consulted, hpasses, owners]
      simp [binds_eq_nil hpasses, hrest]

end

namespace Tree

variable {tree : Tree} {scopes : Scopes} {visit : Visit}

/-- If no block in front of a reference, its holder or a block around it opens a scope, the
text and the check agree on it. -/
theorem agrees_of_straight (placed : tree.wellPlaced = true)
    (distinct : (tree.ids.map Scope.key).Nodup) (h : visit ∈ tree.visits scopes)
    (hopen : visit.run.emitting = true) (hkind : visit.site.block.kind = .reference)
    (hstraight : Step.straight visit.site.trail.tail = true) (canonical : Bool) :
    visit.text ≠ "" ↔ ¬(tree.pass scopes canonical).1.WarnsOfName visit.site.block.id := by
  obtain ⟨root, hroot, -, holder, rest, trail, reached, held, -⟩ :=
    reached_of_reference placed distinct h hopen hkind
  have hbinds := binds_iff placed hroot reached held (visit.site.block.field FieldName.name)
  rw [← Step.exists_consulted_iff _ (held.straight hstraight), ← held.consulted] at hbinds
  rw [text_ne_empty_iff placed distinct h hopen hkind,
    warnsOfName_iff placed distinct h hopen hkind, not_not]
  exact ⟨fun h => ⟨h.1, hbinds.1 h⟩, fun h => hbinds.2 h.2⟩

end Tree

end PiBlocks
