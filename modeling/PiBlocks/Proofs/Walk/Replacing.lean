import PiBlocks.Proofs.Walk.Sequences
import PiBlocks.Proofs.Walk.Written

/-!
# Replacing blocks

Blocks stand for another one if they give together what that one gives, whatever comes behind them
in the chain (`Block.Stands`). A chain whose blocks are replaced by such blocks has the same text
(`Block.writtenChain_flatten`).

Replacing goes on inside of the blocks that are kept (`Block.Kept`). What is in the head of a block,
its values and the names it declares, is kept as well ; so what the block gives hangs on what is put
into the chain inside, and it is the same if that stands for what has been there
(`Block.Kept.written_eq`).
-/

namespace PiBlocks

open Block

namespace Block

/-! ## Chains -/

/-- The texts of statements where names are visible, with what follows them. -/
def chained (visible : String → Bool) (bare : Bool) (chain : List Block) (rest : String) : String :=
  chain.foldr (fun block => followed block.kind.needsStop (written visible bare block)) rest

/-- A chain of statements has the text of its first one, followed by that of the others. -/
theorem writtenChain_eq_chained {chain : List Block}
    (hkinds : ∀ block ∈ chain, block.kind.isStatement = true) (visible : String → Bool)
    (bare : Bool) : writtenChain visible bare chain = chained visible bare chain "" := by
  have hstrung : strung (chain.map fun block => (block.kind, written visible bare block)) =
      chained visible bare chain "" := by
    clear hkinds
    induction chain with
    | nil => rfl
    | cons block rest ih =>
      rw [List.map_cons, strung_cons, ih]
      rfl
  rw [← hstrung, ← joined_statements (List.forall_mem_map.2 hkinds), List.map_map, List.map_map]
  rfl

/-- The blocks give together what a block gives : one of its kind the same, and statements the same
with whatever follows. -/
def Stands (block : Block) (others : List Block) : Prop :=
  (∃ other, others = [other] ∧ other.kind = block.kind ∧
      ∀ visible bare, written visible bare other = written visible bare block) ∨
    (∀ other ∈ others, other.kind.isStatement = true) ∧ block.kind.isBranch = false ∧
      ∀ visible bare rest, chained visible bare others rest =
        followed block.kind.needsStop (written visible bare block) rest

theorem Stands.chained_eq {block : Block} {others : List Block} (h : Stands block others)
    (hkind : block.kind.isStatement = true) :
    (∀ other ∈ others, other.kind.isStatement = true) ∧ ∀ visible bare rest,
      chained visible bare others rest =
        followed block.kind.needsStop (written visible bare block) rest := by
  rcases h with ⟨other, rfl, hother, hwritten⟩ | ⟨hkinds, -, hchained⟩
  · exact ⟨by simpa [hother] using hkind, fun visible bare rest => by
      simp [chained, hother, hwritten]⟩
  · exact ⟨hkinds, hchained⟩

section

variable {chain : List Block} {parts : List (List Block)}

theorem stands_statements (h : List.Forall₂ Stands chain parts)
    (hkinds : ∀ block ∈ chain, block.kind.isStatement = true) :
    (∀ other ∈ parts.flatten, other.kind.isStatement = true) ∧ ∀ visible bare rest,
      chained visible bare parts.flatten rest = chained visible bare chain rest := by
  induction h with
  | nil => exact ⟨by simp, fun _ _ _ => rfl⟩
  | @cons block others chain parts hblock _ ih =>
    obtain ⟨hothers, hown⟩ := hblock.chained_eq (hkinds block List.mem_cons_self)
    obtain ⟨hrest, hfollowing⟩ := ih fun other ho => hkinds other (List.mem_cons_of_mem _ ho)
    refine ⟨fun other ho => ?_, fun visible bare rest => ?_⟩
    · rcases List.mem_append.1 ho with ho | ho
      · exact hothers other ho
      · exact hrest other ho
    · have happend : chained visible bare (others ++ parts.flatten) rest =
          chained visible bare others (chained visible bare parts.flatten rest) :=
        List.foldr_append
      rw [List.flatten_cons, happend, hfollowing, hown]
      rfl

/-- Statements may be replaced by what stands for them. -/
theorem writtenChain_flatten (h : List.Forall₂ Stands chain parts)
    (hkinds : ∀ block ∈ chain, block.kind.isStatement = true) (visible : String → Bool)
    (bare : Bool) : writtenChain visible bare parts.flatten = writtenChain visible bare chain := by
  obtain ⟨hothers, hchained⟩ := stands_statements h hkinds
  rw [writtenChain_eq_chained hothers, writtenChain_eq_chained hkinds, hchained]

/-- A branch is replaced by one branch. -/
theorem stands_branches (h : List.Forall₂ Stands chain parts)
    (hkinds : ∀ block ∈ chain, block.kind.isBranch = true) :
    parts.flatten.map kind = chain.map kind ∧ ∀ visible bare,
      parts.flatten.map (written visible bare) = chain.map (written visible bare) := by
  induction h with
  | nil => exact ⟨rfl, fun _ _ => rfl⟩
  | @cons block others chain parts hblock _ ih =>
    obtain ⟨hrest, hfollowing⟩ := ih fun other ho => hkinds other (List.mem_cons_of_mem _ ho)
    have hbranch := hkinds block List.mem_cons_self
    rcases hblock with ⟨other, rfl, hother, hwritten⟩ | ⟨-, hnot, -⟩
    · exact ⟨by simp [hother, hrest], fun visible bare => by simp [hwritten, hfollowing]⟩
    · rw [hbranch] at hnot
      cases hnot

theorem branchCounts_congr : ∀ {chain others : List Block} (texts : List String),
    others.map kind = chain.map kind → branchCounts others texts = branchCounts chain texts
  | [], [], _, _ => rfl
  | _ :: _, _ :: _, [], _ => rfl
  | block :: _, other :: _, _ :: texts, h => by
    obtain ⟨hkind, hrest⟩ := List.cons.inj h
    rw [branchCounts, branchCounts, branchCount, branchCount, hkind, branchCounts_congr texts hrest]

end

/-! ## Copies -/

/-- The blocks are the same but for their ids and what hangs off them. -/
def Copied (chain copies : List Block) : Prop :=
  List.Forall₂ (fun block copy => copy.kind = block.kind ∧ copy.fields = block.fields) chain copies

theorem field_eq {block other : Block} (h : other.fields = block.fields) (name : String) :
    other.field name = block.field name := by
  rw [field, field, field?, field?, h]

theorem Copied.map_field {chain copies : List Block} (h : Copied chain copies) (name : String) :
    copies.map (fun block => block.field name) = chain.map fun block => block.field name := by
  induction h with
  | nil => rfl
  | cons hblock _ ih => rw [List.map_cons, List.map_cons, ih, field_eq hblock.2]

/-- A copy of a reference gives the same. -/
theorem Copied.head?_shown {chain copies : List Block} (h : Copied chain copies)
    (visible : String → Bool) :
    copies.head?.map (shown visible) = chain.head?.map (shown visible) := by
  cases h with
  | nil => rfl
  | cons hblock _ =>
    rw [List.head?_cons, List.head?_cons, Option.map_some, Option.map_some, shown, shown,
      field_eq hblock.2]

theorem Copied.shownIn {slot : String} {block other : Block}
    (h : Copied (block.chain slot) (other.chain slot)) (visible : String → Bool) :
    shownIn visible (some slot) other = shownIn visible (some slot) block := by
  rw [Block.shownIn, Block.shownIn, Option.bind_some, Option.bind_some, h.head?_shown]

/-! ## What is kept -/

/-- A block is kept, and what hangs off it may be replaced. -/
structure Kept (R : Block → List Block → Prop) (block other : Block) : Prop where
  kind : other.kind = block.kind
  fields : other.fields = block.fields
  chain : ∀ slot, ∃ parts, List.Forall₂ R (block.chain slot) parts ∧
    other.chain slot = parts.flatten

/-- What is no term is not replaced. -/
def Keeps (R : Block → List Block → Prop) : Prop :=
  ∀ block others, R block others → block.kind.isTerm = false →
    ∃ other, others = [other] ∧ Kept R block other

theorem forall₂_kept {R : Block → List Block → Prop} {chain : List Block}
    {parts : List (List Block)} (h : List.Forall₂ R chain parts)
    (kept : ∀ block ∈ chain, ∀ others, R block others →
      ∃ other, others = [other] ∧ Kept R block other) :
    List.Forall₂ (Kept R) chain parts.flatten := by
  induction h with
  | nil => exact .nil
  | cons hblock _ ih =>
    obtain ⟨other, rfl, hkept⟩ := kept _ List.mem_cons_self _ hblock
    exact .cons hkept (ih fun other ho => kept other (List.mem_cons_of_mem _ ho))

theorem copied_of_kept {R : Block → List Block → Prop} {chain others : List Block}
    (h : List.Forall₂ (Kept R) chain others) : Copied chain others :=
  h.imp fun _ _ hkept => ⟨hkept.kind, hkept.fields⟩

section

variable {R : Block → List Block → Prop} (keeps : Keeps R) {block other : Block}
include keeps

theorem Kept.forall₂ (h : Kept R block other) {slot : String}
    (hkinds : ∀ inner ∈ block.chain slot, inner.kind.isTerm = false) :
    List.Forall₂ (Kept R) (block.chain slot) (other.chain slot) := by
  obtain ⟨parts, hparts, hchain⟩ := h.chain slot
  exact hchain ▸ forall₂_kept hparts fun inner hinner others h =>
    keeps inner others h (hkinds inner hinner)

theorem Kept.copied (h : Kept R block other) (placed : block.wellPlaced = true) {slot : String}
    (hslot : ∀ kind, SlotName.admits slot kind = true → kind.isTerm = false) :
    Copied (block.chain slot) (other.chain slot) :=
  copied_of_kept (h.forall₂ keeps fun _ hinner => hslot _ (admits_of_mem placed hinner))

theorem Kept.copied_value (h : Kept R block other) (placed : block.wellPlaced = true)
    {slot : String} (hslot : slot ∈ SlotName.values) :
    Copied (block.chain slot) (other.chain slot) := by
  refine h.copied keeps placed fun kind hadmits => ?_
  obtain rfl : kind = .reference := by simpa [SlotName.admits_of_mem_values hslot] using hadmits
  rfl

theorem map_shownIn_of_kept {visible : String → Bool} {item : String}
    (hitem : item ∈ SlotName.values) {chain others : List Block}
    (h : List.Forall₂ (Kept R) chain others) (placed : ∀ block ∈ chain, block.wellPlaced = true) :
    others.map (shownIn visible (some item)) = chain.map (shownIn visible (some item)) := by
  induction h with
  | nil => rfl
  | cons hblock _ ih =>
    have hown := (hblock.copied_value keeps (placed _ List.mem_cons_self) hitem).shownIn visible
    rw [List.map_cons, List.map_cons, hown,
      ih fun other ho => placed other (List.mem_cons_of_mem _ ho)]

variable (placed : block.wellPlaced = true) (h : Kept R block other)
include placed h

/-- The names that a block declares are kept. -/
theorem Kept.names {slot : String} (hslot : slot = SlotName.names ∨ slot = SlotName.params) :
    namesIn FieldName.new (other.chain slot) = namesIn FieldName.new (block.chain slot) := by
  have hcopied : Copied (block.chain slot) (other.chain slot) := by
    refine h.copied keeps placed fun kind hadmits => ?_
    rcases hslot with rfl | rfl <;> revert hadmits <;> cases kind <;> decide
  rw [namesIn, namesIn, hcopied.map_field]

theorem Kept.shown_value (visible : String → Bool) {slot : Option String}
    (hslot : ∀ name ∈ slot, name ∈ SlotName.values) :
    shownIn visible slot other = shownIn visible slot block := by
  cases slot with
  | none => rfl
  | some slot => exact (h.copied_value keeps placed (hslot slot rfl)).shownIn visible

theorem Kept.shown_items (visible : String → Bool) {slot item : String}
    (hslot : slot = SlotName.args ∨ slot = SlotName.messages) (hitem : item ∈ SlotName.values) :
    shownItems visible (some (slot, item)) other =
      shownItems visible (some (slot, item)) block := by
  have hkept : List.Forall₂ (Kept R) (block.chain slot) (other.chain slot) := by
    refine h.forall₂ keeps fun inner hinner => ?_
    have hadmits := admits_of_mem placed hinner
    rcases hslot with rfl | rfl <;> revert hadmits <;> cases inner.kind <;> decide
  exact map_shownIn_of_kept keeps hitem hkept fun inner => wellPlaced_of_mem placed

/-- The values that a block reads are kept. -/
theorem Kept.values (visible : String → Bool) :
    shownIn visible other.plan.first other = shownIn visible block.plan.first block ∧
      shownIn visible other.plan.second other = shownIn visible block.plan.second block ∧
      shownItems visible other.plan.items other = shownItems visible block.plan.items block := by
  obtain ⟨hfirst, hsecond, hitems, -⟩ := Plan.head_slots block.fields block.slots block.kind
  have hplan : other.plan.first = block.plan.first ∧ other.plan.second = block.plan.second ∧
      other.plan.items = block.plan.items ∧ ∀ pair ∈ block.plan.items,
        pair.1 = SlotName.args ∨ pair.1 = SlotName.messages := by
    rw [plan, plan, h.kind, h.fields]
    cases block.kind <;> simp only [Plan.ofBlock] <;> (try split_ifs) <;> simp
  obtain ⟨hfirst', hsecond', hitems', hslots⟩ := hplan
  rw [hfirst', hsecond', hitems']
  refine ⟨h.shown_value keeps placed visible hfirst, h.shown_value keeps placed visible hsecond, ?_⟩
  cases heq : block.plan.items with
  | none => rfl
  | some pair => exact h.shown_items keeps placed visible (hslots pair heq) (hitems pair heq)

theorem Kept.within_eq (visible : String → Bool) : other.within visible = block.within visible := by
  have hbinds : other.binds = block.binds := by
    rw [binds, binds, h.kind, field_eq h.fields, h.names keeps placed (.inl rfl),
      h.names keeps placed (.inr rfl)]
  funext name
  rw [within, within, hbinds]

/-- The chain inside is replaced. -/
theorem Kept.body : ∃ parts, List.Forall₂ R block.body parts ∧ other.body = parts.flatten := by
  have hskips : other.skipsBody = block.skipsBody := by
    rw [skipsBody, skipsBody, h.kind, field_eq h.fields, h.names keeps placed (.inl rfl)]
  rw [Block.body, Block.body, hskips, h.kind]
  split_ifs
  · exact ⟨[], .nil, rfl⟩
  · cases block.kind.bodySlot with
    | none => exact ⟨[], .nil, rfl⟩
    | some slot => exact h.chain slot

/-- What is put into the chain inside stands for what has been there. -/
theorem Kept.stands_body
    (inside : ∀ inner ∈ block.body, ∀ others, R inner others → Stands inner others) :
    ∃ parts, List.Forall₂ Stands block.body parts ∧ other.body = parts.flatten := by
  obtain ⟨parts, hparts, hbody⟩ := h.body keeps placed
  have hboth := (List.forall₂_and_left _ _).2 ⟨inside, hparts⟩
  exact ⟨parts, hboth.imp fun inner others hinner => hinner.1 others hinner.2, hbody⟩

/-- A term that is kept gives the same. -/
theorem Kept.written_eq (hterm : block.kind.isTerm = true)
    (inside : ∀ inner ∈ block.body, ∀ others, R inner others → Stands inner others)
    (visible : String → Bool) (bare : Bool) :
    written visible bare other = written visible bare block := by
  obtain ⟨hfirst, hsecond, hitems⟩ := h.values keeps placed visible
  obtain ⟨parts, hparts, hbody⟩ := h.stands_body keeps placed inside
  have hslots {parts : Parts} {scopes : Scopes} :
      parts.ownText scopes block.kind block.fields other.slots =
        parts.ownText scopes block.kind block.fields block.slots := by
    have hnames : Plan.namesOf other.slots SlotName.names =
        Plan.namesOf block.slots SlotName.names := h.names keeps placed (.inl rfl)
    have hparams : Plan.namesOf other.slots SlotName.params =
        Plan.namesOf block.slots SlotName.params := h.names keeps placed (.inr rfl)
    cases block.kind <;> simp only [Parts.ownText, hnames, hparams]
  rw [Block.written_eq, Block.written_eq, h.kind, h.fields, hslots, h.within_eq keeps placed]
  -- a fork has branches inside, each of which is replaced by one, and nothing else has
  cases hfork : block.kind.isFork with
  | true =>
    obtain ⟨hkinds, htexts⟩ := stands_branches hparts fun inner hinner => by
      rw [kind_of_mem_fork placed hfork hinner]
      exact Kind.isBranch_branch _
    rw [← hbody] at hkinds htexts
    rw [htexts]
    refine ownText_congr hterm hfirst hsecond hitems ?_ (fun _ => branchCounts_congr _ hkinds) rfl
    rw [partsAmong, partsAmong, hkinds]
  | false =>
    have hchain := writtenChain_flatten hparts fun inner => isStatement_of_mem_body placed hfork
    rw [← hbody] at hchain
    exact ownText_congr hterm hfirst hsecond hitems (hchain _ _) (by simp [hfork]) rfl

end

end Block

end PiBlocks
