import PiBlocks.Proofs.Walk.Branches

/-!
# Sequences

The text of a chain of statements is made of their own texts in order (`Block.strung`). Between two
of them stands a full stop, if the first is of a kind that needs one ; calls and forks are of no
such kind, so what follows them stands right behind (`Tree.juxtaposed_behind_calls`). If nothing but
the last statement with text is a call or a fork, the texts are those of the statements that have
some, joined by stops (`Block.strung_eq_join`).

A fork with more than one branch with text stands in brackets, whatever else its chain gives, unless
the chain is the one of a program or definition (`Tree.text_of_statements`).
-/

namespace PiBlocks

open Block

namespace Block

/-- Texts of statements of these kinds, one behind the other. -/
def strung : List (Kind × String) → String
  | [] => ""
  | (kind, own) :: rest =>
    let stops := kind.needsStop && !own.isEmpty && rest.any fun other => !Text.isBlank other.2
    own ++ (if stops then ". " else "") ++ strung rest

theorem isBlank_strung : ∀ items : List (Kind × String),
    Text.isBlank (strung items) = items.all fun item => Text.isBlank item.2
  | [] => rfl
  | (kind, own) :: rest => by
    have hrest := isBlank_strung rest
    rw [strung, Text.isBlank_append, Text.isBlank_append, hrest, List.all_cons]
    split_ifs with hstop
    · -- a stop is there only if something behind it is not blank
      obtain ⟨-, hany⟩ := Bool.and_eq_true_iff.1 hstop
      have hall : (rest.all fun item => Text.isBlank item.2) = false := by
        rw [List.all_eq_not_any_not, hany]
        rfl
      simp [hall]
    · simp [Text.isBlank_empty]

/-- The text of a statement with what follows it. -/
def followed (stops : Bool) (own rest : String) : String :=
  own ++ (if stops && !own.isEmpty && !Text.isBlank rest then ". " else "") ++ rest

theorem sequence_statement {kind : Kind} (hkind : kind.isStatement = true) (next : Option Kind)
    (own rest : String) :
    sequence kind next own rest = followed (kind.needsStop && next.isSome) own rest := by
  have hplain : kind ≠ .choiceBranch ∧ kind ≠ .parallelBranch := by
    constructor <;> rintro rfl <;> cases hkind
  cases hown : own.isEmpty <;> cases hrest : Text.isBlank rest <;> cases hstop : kind.needsStop <;>
    cases next <;> simp [sequence, followed, hown, hrest, hstop, hplain]

theorem strung_cons (kind : Kind) (own : String) (rest : List (Kind × String)) :
    strung ((kind, own) :: rest) = followed kind.needsStop own (strung rest) := by
  have hany : (!Text.isBlank (strung rest)) = rest.any fun other => !Text.isBlank other.2 := by
    rw [isBlank_strung, List.any_eq_not_all_not]
    simp
  rw [strung, followed, hany]

/-- Statements are strung together. -/
theorem joined_statements {items : List (Kind × String)}
    (hkinds : ∀ item ∈ items, item.1.isStatement = true) :
    joined (items.map Prod.fst) (items.map Prod.snd) = strung items := by
  induction items with
  | nil => rfl
  | cons item rest ih =>
    have hrest := ih fun other ho => hkinds other (List.mem_cons_of_mem _ ho)
    rw [List.map_cons, List.map_cons, joined, hrest, strung_cons,
      sequence_statement (hkinds item List.mem_cons_self)]
    cases rest with
    | nil => simp [followed, strung, Text.isBlank_empty]
    | cons next more => rw [List.map_cons, List.head?_cons, Option.isSome_some, Bool.and_true]

/-- Statements with text, of which all but the last need a stop, are joined by stops. -/
theorem strung_eq_join : ∀ {items : List (Kind × String)},
    (∀ item ∈ items, item.2 = "" ∨ Text.isBlank item.2 = false) →
    (∀ item ∈ (items.filter fun item => !Text.isBlank item.2).dropLast, item.1.needsStop = true) →
      strung items = Text.join ". " ((items.filter fun item => !Text.isBlank item.2).map Prod.snd)
  | [], _, _ => rfl
  | (kind, own) :: rest, htexts, hstops => by
    have htail : ∀ item ∈ rest, item.2 = "" ∨ Text.isBlank item.2 = false := fun item hitem =>
      htexts item (List.mem_cons_of_mem _ hitem)
    rcases htexts (kind, own) List.mem_cons_self with hown | hown
    · obtain rfl : own = "" := hown
      have hrest := strung_eq_join htail (by simpa [Text.isBlank_empty] using hstops)
      simpa [strung, Text.isBlank_empty] using hrest
    · obtain hown : Text.isBlank own = false := hown
      have hne := Text.ne_empty_of_not_blank hown
      have hkept : ((kind, own) :: rest).filter (fun item => !Text.isBlank item.2) =
          (kind, own) :: rest.filter fun item => !Text.isBlank item.2 := by simp [hown]
      rw [hkept] at hstops ⊢
      cases hfilter : rest.filter fun item => !Text.isBlank item.2 with
      | nil =>
        have hany : (rest.any fun item => !Text.isBlank item.2) = false := by
          simpa [List.filter_eq_nil_iff] using hfilter
        have hrest := strung_eq_join htail (by simp [hfilter])
        rw [hfilter] at hrest
        simp [strung, hrest, hany]
      | cons first more =>
        rw [hfilter] at hstops
        have hneeds : kind.needsStop = true := hstops (kind, own) (by simp)
        have hany : (rest.any fun item => !Text.isBlank item.2) = true := by
          obtain ⟨hmem, hfirst⟩ := List.mem_filter.1 (hfilter ▸ List.mem_cons_self)
          exact List.any_eq_true.2 ⟨first, hmem, hfirst⟩
        have hrest := strung_eq_join htail fun item hitem => hstops item (by
          rw [hfilter] at hitem
          exact List.mem_cons_of_mem _ hitem)
        rw [hfilter] at hrest
        simp [strung, hrest, hany, hneeds, hne, Text.join_cons_cons, String.append_assoc]

end Block

/-! ## Chains of statements -/

namespace Visit

variable {visit : Visit}

/-- The kind of the block and its own text. -/
def own (visit : Visit) : Kind × String := (visit.site.block.kind, visit.text)

/-- The chain inside of a program, definition, prefix or branch is strung together. -/
theorem bodyText_eq_strung (placed : visit.site.block.wellPlaced = true)
    (hterm : visit.site.block.kind.isTerm = true)
    (hcounts : visit.run.counts visit.site.block.kind = true)
    (hfork : visit.site.block.kind.isFork = false) :
    visit.bodyText = strung (visit.inside.map own) := by
  have hkinds : (visit.inside.map own).map Prod.fst = visit.site.block.body.map kind := by
    rw [← visit.map_block_inside, List.map_map, List.map_map]
    rfl
  have htexts : (visit.inside.map own).map Prod.snd =
      visit.site.block.bodyTexts visit.site.trail visit.run := by
    rw [← visit.map_text_inside, List.map_map]
    rfl
  have hstatements : ∀ item ∈ visit.inside.map own, item.1.isStatement = true :=
    List.forall_mem_map.2 fun inner h => isStatement_of_mem_body placed hfork (block_mem_body h)
  rw [← joined_statements hstatements, hkinds, htexts]
  exact (parts_body visit.site.trail placed hterm hcounts).1

end Visit

namespace Tree

/-- The texts of the statements in the chain of a program, definition, prefix or branch stand in
order, with a stop behind each that needs one and has something behind it. So they are joined by
stops if no call or fork with text has text behind it. A fork with several branches that have text
is in brackets if and only if the chain is not that of a program or definition. -/
theorem text_of_statements {tree : Tree} (placed : tree.wellPlaced = true) {scopes : Scopes}
    {visit : Visit} (h : visit ∈ tree.visits scopes)
    (hterm : visit.site.block.kind.isTerm = true) (hfork : visit.site.block.kind.isFork = false)
    (hcounts : visit.run.counts visit.site.block.kind = true) :
    visit.inside.map Visit.site = visit.site.inside ∧ visit.inside ⊆ tree.visits scopes ∧
      visit.bodyText = strung (visit.inside.map Visit.own) ∧
      ((∀ inner ∈ visit.inside, inner.text = "" ∨ Text.isBlank inner.text = false) →
        (∀ inner ∈ (visit.inside.filter fun inner => !Text.isBlank inner.text).dropLast,
          inner.site.block.kind.needsStop = true) →
        visit.bodyText = Text.join ". " ((visit.inside.filter fun inner =>
          !Text.isBlank inner.text).map Visit.text)) ∧
      ∀ inner ∈ visit.inside, inner.site.block.kind.isFork = true →
        inner.text = collapse inner.site.block.kind.operator visit.site.block.kind.opensGate
          ((inner.inside.map Visit.bodyText).filter fun text => !Text.isBlank text) := by
  have hsite := (telling_of_mem_visits h).site
  have hplaced := wellPlaced_of_mem_sites placed hsite
  have hsubset := inside_subset placed h hterm hcounts
  have hbody := visit.bodyText_eq_strung hplaced hterm hcounts hfork
  refine ⟨visit.map_site_inside, hsubset, hbody, fun htexts hstops => ?_,
    fun inner hinner hkind => ?_⟩
  · have hfilter : (visit.inside.map Visit.own).filter (fun item => !Text.isBlank item.2) =
        (visit.inside.filter fun inner => !Text.isBlank inner.text).map Visit.own :=
      List.filter_map
    rw [hbody, strung_eq_join, hfilter, List.map_map]
    · rfl
    · exact List.forall_mem_map.2 htexts
    · rw [hfilter, ← List.map_dropLast]
      exact List.forall_mem_map.2 hstops
  · have hvisit := hsubset hinner
    have hopen := Visit.emitting_of_mem_inside hplaced hterm hcounts inner hinner
    have htelling := telling_of_mem_visits hvisit
    obtain ⟨kinds, around, haround, hinBody⟩ := around_of_mem_visits placed hvisit
      (Kind.isTerm_of_isFork hkind) (counts_of_emitting _ hopen)
    rw [htelling.text, Visit.value_of_isFork (wellPlaced_of_mem_sites placed htelling.site) hkind
      hopen haround, hinBody, Site.inBody, Visit.owner_of_mem_inside hinner]
    rfl

/-- A program that sends a name under its restriction and forks. -/
def restrictingFork : Tree :=
  program [.mk "restrict" .restrict [(FieldName.new, "x")]
    [(SlotName.scope, [sending "x", forking])]]

theorem text_of_statements_restrictingFork : restrictingFork.wellPlaced = true ∧
    ∃ visit ∈ restrictingFork.visits {}, visit.site.block.kind = .restrict ∧
      visit.run.counts .restrict = true ∧ visit.inside.map Visit.text = ["x'<x>", "(0 | 0)"] ∧
      visit.bodyText = "x'<x>. (0 | 0)" := by
  have placed : restrictingFork.wellPlaced = true := by decide
  obtain ⟨visit, h, hkind, hcounts, htexts, hblank, hstops, hkept⟩ :
      ∃ visit ∈ restrictingFork.visits {}, visit.site.block.kind = .restrict ∧
        visit.run.counts .restrict = true ∧ visit.inside.map Visit.text = ["x'<x>", "(0 | 0)"] ∧
        (∀ inner ∈ visit.inside, inner.text = "" ∨ Text.isBlank inner.text = false) ∧
        (∀ inner ∈ (visit.inside.filter fun inner => !Text.isBlank inner.text).dropLast,
          inner.site.block.kind.needsStop = true) ∧
        (visit.inside.filter fun inner => !Text.isBlank inner.text).map Visit.text =
          ["x'<x>", "(0 | 0)"] := by
    decide +kernel
  obtain ⟨-, -, -, hjoin, -⟩ := text_of_statements placed h (by rw [hkind]; rfl)
    (by rw [hkind]; rfl) (by rw [hkind]; exact hcounts)
  exact ⟨placed, visit, h, hkind, hcounts, htexts, (hjoin hblank hstops).trans (by rw [hkept]; rfl)⟩

/-- Nothing stands between a call and what follows it, and a fork in the chain of a program has no
brackets, whatever stands before it. -/
theorem juxtaposed_behind_calls :
    (∃ tree, tree = program [.mk "call" .call [(FieldName.processName, "P")] [], ending "end"] ∧
      tree.wellPlaced = true ∧ ∃ visit ∈ tree.visits {}, visit.site.block.kind = .main ∧
        visit.inside.map Visit.text = ["P", "0"] ∧ visit.bodyText = "P0") ∧
    ∃ tree, tree = program [ending "end", forking] ∧
      tree.wellPlaced = true ∧ ∃ visit ∈ tree.visits {}, visit.site.block.kind = .main ∧
        visit.inside.map Visit.text = ["0", "0 | 0"] ∧ visit.bodyText = "0. 0 | 0" := by
  exact ⟨⟨_, rfl, by decide +kernel⟩, ⟨_, rfl, by decide +kernel⟩⟩

end Tree

end PiBlocks
