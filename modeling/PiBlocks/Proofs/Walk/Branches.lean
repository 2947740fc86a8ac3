import PiBlocks.Proofs.Walk.Inside

/-!
# Branches

What a fork gives hangs on the texts of its branches alone. Branches without text are passed over,
each with the separator next to it, and are not counted (`Block.joined_branches`), whether they come
first or last or one behind the other. One that is left stands by itself, and more are joined and
put in brackets (`Block.collapse`), but not in the body of a program or definition
(`Block.value_of_isFork`).
-/

namespace PiBlocks

open Block

/-- What stands between the branches of a fork. -/
def Kind.operator (fork : Kind) : String := if fork = .choiceFork then " + " else " | "

namespace Block

/-! ## Joined branches -/

theorem sequence_branches (fork : Kind) {own rest : String} (hown : own ≠ "")
    (hrest : Text.isBlank rest = false) :
    sequence fork.branch (some fork.branch) own rest = own ++ fork.operator ++ rest := by
  rw [Kind.branch, Kind.operator]
  split_ifs <;> simp [sequence, hown, hrest]

theorem not_blank_join (separator : String) {first : String} (h : Text.isBlank first = false)
    (more : List String) : Text.isBlank (Text.join separator (first :: more)) = false := by
  cases more with
  | nil => exact h
  | cons second more => simp [Text.join_cons_cons, Text.isBlank_append, h]

/-- Branches are joined that have text, and so many are counted. -/
theorem joined_branches {fork : Kind} : ∀ {chain : List Block} {texts : List String},
    (∀ inner ∈ chain, inner.kind = fork.branch) → chain.length = texts.length →
    (∀ text ∈ texts, text = "" ∨ Text.isBlank text = false) →
      joined (chain.map kind) texts =
          Text.join fork.operator (texts.filter fun text => !text.isEmpty) ∧
        branchCounts chain texts = (texts.filter fun text => !text.isEmpty).length
  | [], [], _, _, _ => ⟨rfl, rfl⟩
  | inner :: rest, own :: texts, hkinds, hlength, htexts => by
    have htail : ∀ text ∈ texts, text = "" ∨ Text.isBlank text = false := fun text ht =>
      htexts text (List.mem_cons_of_mem _ ht)
    obtain ⟨hrest, hcounts⟩ := joined_branches
      (fun other ho => hkinds other (List.mem_cons_of_mem _ ho)) (Nat.succ.inj hlength) htail
    have hkind := hkinds inner List.mem_cons_self
    rw [List.map_cons, joined, branchCounts, branchCount, hrest, hcounts, hkind,
      Kind.isBranch_branch]
    -- a branch without text is passed over, and so is its separator
    rcases htexts own List.mem_cons_self with rfl | hown
    · simp [sequence]
    have hne := Text.ne_empty_of_not_blank hown
    have hkept : (own :: texts).filter (fun text => !text.isEmpty) =
        own :: texts.filter fun text => !text.isEmpty := by simp [hne]
    rw [hkept]
    refine ⟨?_, by simp [hne, Nat.add_comm]⟩
    cases hfilter : texts.filter fun text => !text.isEmpty with
    | nil => simp [sequence, Text.isBlank_empty]
    | cons first more =>
      -- the separator goes by the kind of the next block, whether that one has text or not
      obtain ⟨hmem, hfirst⟩ := List.mem_filter.1 (hfilter ▸ List.mem_cons_self)
      have hblank : Text.isBlank first = false :=
        (htail first hmem).resolve_left (by simpa using hfirst)
      obtain ⟨next, others, rfl⟩ : ∃ next others, rest = next :: others :=
        List.exists_cons_of_length_pos (Nat.succ.inj hlength ▸ List.length_pos_of_mem hmem)
      rw [List.map_cons, List.head?_cons, hkinds next (by simp), sequence_branches fork hne
        (not_blank_join _ hblank more), Text.join_cons_cons, String.append_assoc]

/-! ## Forks -/

/-- What a fork gives for the texts of its branches. Where it is `bare`, it needs no brackets. -/
def collapse (operator : String) (bare : Bool) : List String → String
  | [] => ""
  | [text] => text
  | texts => if bare then Text.join operator texts else "(" ++ Text.join operator texts ++ ")"

theorem forkText_join (operator : String) (around : ScopeKind) (texts : List String) :
    forkText texts.length around (Text.join operator texts) =
      collapse operator around.isBody texts := by
  match texts with
  | [] => rfl
  | [text] => rfl
  | first :: second :: more => simp [forkText, collapse]

theorem ownText_of_isFork {block : Block} {parts : Parts} {scopes : Scopes}
    (hfork : block.kind.isFork = true) :
    parts.ownText scopes block.kind block.fields block.slots =
      forkText parts.count scopes.currentKind parts.body := by
  revert hfork
  cases block.kind <;> intro hfork <;> first | rfl | cases hfork

/-- A fork gives the texts of its branches that have some. -/
theorem ownText_of_branches {block : Block} {parts : Parts} {scopes : Scopes} {texts : List String}
    (placed : block.wellPlaced = true) (hfork : block.kind.isFork = true)
    (hlength : block.body.length = texts.length)
    (htexts : ∀ text ∈ texts, text = "" ∨ Text.isBlank text = false)
    (hbody : parts.body = joined (block.body.map kind) texts)
    (hcount : parts.count = branchCounts block.body texts) :
    parts.ownText scopes block.kind block.fields block.slots =
      collapse block.kind.operator scopes.currentKind.isBody
        (texts.filter fun text => !text.isEmpty) := by
  obtain ⟨hjoined, hcounted⟩ := joined_branches (fun inner => kind_of_mem_fork placed hfork)
    hlength htexts
  rw [ownText_of_isFork hfork, hcount, hbody, hjoined, hcounted, forkText_join]

/-- What a branch gives for the text of its chain. -/
def branchText (body : String) : String := if Text.isBlank body then "" else body

theorem branchText_eq_empty_or (body : String) :
    branchText body = "" ∨ Text.isBlank (branchText body) = false := by
  cases h : Text.isBlank body <;> simp [branchText, h]

theorem branchText_eq_empty_iff {body : String} :
    branchText body = "" ↔ Text.isBlank body = true := by
  cases h : Text.isBlank body with
  | true => simp [branchText, h]
  | false => simp [branchText, h, Text.ne_empty_of_not_blank h]

/-- Branches have text whose chains have more than blanks. -/
theorem filter_map_branchText (bodies : List String) :
    (bodies.map branchText).filter (fun text => !text.isEmpty) =
      bodies.filter fun body => !Text.isBlank body := by
  induction bodies with
  | nil => rfl
  | cons body rest ih =>
    have hkept : (!(branchText body).isEmpty) = !Text.isBlank body := by
      rw [Bool.not_inj_iff, Bool.eq_iff_iff, String.isEmpty_iff, branchText_eq_empty_iff]
    rw [List.map_cons, List.filter_cons, List.filter_cons, hkept, ih]
    split_ifs with hblank
    · rw [branchText, if_neg (by simpa using hblank)]
    · rfl

end Block

namespace Visit

variable {visit : Visit}

section

variable (placed : visit.site.block.wellPlaced = true)
  (hfork : visit.site.block.kind.isFork = true) (hemitting : visit.run.emitting = true)
include placed hfork hemitting

/-- The text of a branch is that of the chain inside, or nothing if that is blank. -/
theorem text_of_branch {inner : Visit} (h : inner ∈ visit.inside) :
    inner.text = branchText inner.bodyText := by
  have hbranch : inner.site.block.kind.isBranch = true := by
    rw [kind_of_mem_fork placed hfork (block_mem_body h)]
    exact Kind.isBranch_branch _
  have hinner := isInner_of_mem_body placed (block_mem_body h)
  have hopen := emitting_of_mem_inside placed (Kind.isTerm_of_isFork hfork)
    (counts_of_emitting _ hemitting) inner h
  rw [text_of_mem_visitsAlong _ _ _ inner h]
  exact value_of_isBranch _ _ hinner.1 hbranch (counts_of_emitting _ hopen)

theorem bodyTexts_of_fork : visit.site.block.bodyTexts visit.site.trail visit.run =
    (visit.inside.map bodyText).map branchText := by
  rw [← map_text_inside, List.map_map]
  exact List.map_congr_left fun inner => text_of_branch placed hfork hemitting

/-- A fork gives the texts of its branches that have more than blanks. -/
theorem value_of_isFork {kinds : List ScopeKind} {around : ScopeKind}
    (haround : visit.run.scopes.Around (kinds ++ [around])) :
    (traceBlock visit.site.trail visit.site.followers visit.site.block visit.run).value =
      collapse visit.site.block.kind.operator around.isBody
        ((visit.inside.map bodyText).filter fun text => !Text.isBlank text) := by
  have hterm := Kind.isTerm_of_isFork hfork
  have hcounts := counts_of_emitting visit.site.block.kind hemitting
  have hbodies := bodyTexts_of_fork placed hfork hemitting
  obtain ⟨hbody, hcount⟩ := parts_body visit.site.trail placed hterm hcounts
  have hlength : visit.site.block.body.length =
      (visit.site.block.bodyTexts visit.site.trail visit.run).length := (length_ownTexts _ _ _).symm
  have htexts : ∀ text ∈ visit.site.block.bodyTexts visit.site.trail visit.run,
      text = "" ∨ Text.isBlank text = false := by
    rw [hbodies]
    exact List.forall_mem_map.2 fun body _ => branchText_eq_empty_or body
  -- the fork looks at the innermost scope when its branches are closed, which is the one around it
  have hkind :
      (visit.site.block.finish visit.site.trail visit.run).scopes.currentKind = around := by
    have hpassed := (passed visit.site.block visit.site.trail visit.site.followers placed hterm
      hcounts).1.around _ haround
    rw [run_traceBlock _ _ placed hterm hcounts] at hpassed
    exact hpassed.currentKind_eq
  rw [value_traceBlock _ _ placed hterm hcounts,
    ownText_of_branches placed hfork hlength htexts hbody (hcount hfork), hkind, hbodies,
    filter_map_branchText]

end

end Visit

namespace Tree

/-- A block that ends a process. -/
def ending (id : String) : Block := .mk id .termination [] []

/-- A fork of two branches, each of which ends. -/
def forking : Block :=
  .mk "fork" .parallelFork [] [(SlotName.parallel, [
    .mk "left" .parallelBranch [] [(SlotName.scope, [ending "left end"])],
    .mk "right" .parallelBranch [] [(SlotName.scope, [ending "right end"])]])]

end Tree

end PiBlocks
