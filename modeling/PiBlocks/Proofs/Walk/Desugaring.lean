import PiBlocks.Proofs.Walk.Replacing

/-!
# Blocks with several names

A block that restricts, receives or sends several names stands for blocks with one name each
(`Block.Desugars`) : restrictions one inside of the other, receptions one inside of the other on
copies of the reference to the channel, and one message after the other in the chain. A tree gives
the same text if any of its blocks with several names are replaced by those they stand for
(`Tree.text_of_desugars`).

The channel is read again inside of each reception, where names have been bound in between. If it
is visible around it is visible inside, and the name that is printed is the same. If it is not, the
outermost of the receptions gives nothing, and with it all of them, whatever is bound inside
(`Block.prefixes_nested`). In a chain, messages that give nothing are passed over
(`Block.foldr_followed`).
-/

namespace PiBlocks

open Block

namespace Block

/-! ## Blocks with one name each -/

/-- The block restricts a name around a chain. -/
structure Restricts (name : String) (scope : List Block) (block : Block) : Prop where
  kind : block.kind = .restrict
  name : block.field FieldName.new = name
  scope : block.chain SlotName.scope = scope

/-- The block receives a name around a chain, on a copy of a reference. -/
structure Receives (channel : List Block) (name : String) (scope : List Block) (block : Block) :
    Prop where
  kind : block.kind = .receive
  channel : Copied channel (block.chain SlotName.on)
  name : block.field FieldName.new = name
  scope : block.chain SlotName.scope = scope

/-- The block sends the message of an item, on a copy of a reference. -/
structure Sends (channel : List Block) (item block : Block) : Prop where
  kind : block.kind = .send
  channel : Copied channel (block.chain SlotName.on)
  message : Copied (item.chain SlotName.message) (block.chain SlotName.message)

/-- A chain of one block inside of the other, with one name each, around a chain. -/
def Nested (One : String → List Block → Block → Prop) (scope : List Block) :
    List String → List Block → Prop
  | [], chain => chain = scope
  | name :: names, chain => ∃ block inner, chain = [block] ∧ One name inner block ∧
      Nested One scope names inner

/-- The names in the slot of a block that declares several. -/
def severalNames (block : Block) : List String :=
  namesIn FieldName.new (block.chain SlotName.names)

/-- What a block may be replaced by, if what hangs off it is replaced as well : by itself, or by
blocks with one name each. -/
inductive Desugars : Block → List Block → Prop
  | keep {block other : Block} {parts : String → List (List Block)} (hid : other.id = block.id)
      (hkind : other.kind = block.kind) (hfields : other.fields = block.fields)
      (hparts : ∀ slot, List.Forall₂ Desugars (block.chain slot) (parts slot))
      (hchain : ∀ slot, other.chain slot = (parts slot).flatten) : Desugars block [other]
  | restricts {block : Block} {parts : List (List Block)} {others : List Block}
      (hkind : block.kind = .multiRestrict) (hne : block.severalNames ≠ [])
      (hnames : unresolved ∉ block.severalNames)
      (hparts : List.Forall₂ Desugars (block.chain SlotName.scope) parts)
      (hnested : Nested Restricts parts.flatten block.severalNames others) : Desugars block others
  | receives {block : Block} {parts : List (List Block)} {others : List Block}
      (hkind : block.kind = .multiReceive) (hne : block.severalNames ≠ [])
      (hparts : List.Forall₂ Desugars (block.chain SlotName.scope) parts)
      (hnested : Nested (Receives (block.chain SlotName.on)) parts.flatten block.severalNames
        others) : Desugars block others
  | sends {block : Block} {others : List Block} (hkind : block.kind = .multiSend)
      (hsends : List.Forall₂ (Sends (block.chain SlotName.on)) (block.chain SlotName.messages)
        others) : Desugars block others

theorem Nested.exists_one {One : String → List Block → Block → Prop} {scope : List Block}
    {names : List String} {chain : List Block} (h : Nested One scope names chain)
    (hne : names ≠ []) : ∃ name inner block, chain = [block] ∧ One name inner block := by
  cases names with
  | nil => exact absurd rfl hne
  | cons name names =>
    obtain ⟨block, inner, hchain, hone, -⟩ := h
    exact ⟨name, inner, block, hchain, hone⟩

/-- A block may be kept with all that hangs off it. -/
theorem Desugars.refl (block : Block) : Desugars block [block] := by
  induction block using Block.induction with
  | mk id kind fields slots ih =>
    have hparts (slot : String) : List.Forall₂ Desugars ((Block.mk id kind fields slots).chain slot)
        (((Block.mk id kind fields slots).chain slot).map ([·])) := by
      rw [List.forall₂_map_right_iff, List.forall₂_same]
      exact forall_mem_slot ih slot
    exact .keep rfl rfl rfl hparts fun slot => by
      rw [← List.flatMap_def, List.flatMap_singleton']

/-- A block is kept unless it has several names. -/
theorem Desugars.kept {block : Block} {others : List Block} (h : Desugars block others)
    (hrestricts : block.kind ≠ .multiRestrict) (hreceives : block.kind ≠ .multiReceive)
    (hsends : block.kind ≠ .multiSend) : ∃ other, others = [other] ∧ Kept Desugars block other := by
  cases h with
  | keep _ hkind hfields hparts hchain =>
    exact ⟨_, rfl, hkind, hfields, fun slot => ⟨_, hparts slot, hchain slot⟩⟩
  | restricts hkind => exact absurd hkind hrestricts
  | receives hkind => exact absurd hkind hreceives
  | sends hkind => exact absurd hkind hsends

theorem keeps_desugars : Keeps Desugars := fun block others h hterm => by
  refine h.kept ?_ ?_ ?_ <;> intro hkind <;> rw [hkind] at hterm <;> cases hterm

/-! ## Several names one inside of the other -/

/-- The names that are visible where some more are declared. -/
def extended (visible : String → Bool) (names : List String) (name : String) : Bool :=
  visible name || (Scope.declarable names).contains name

theorem extended_extended (visible : String → Bool) (first : String) (names : List String) :
    extended (extended visible [first]) names = extended visible (first :: names) := by
  have happend : Scope.declarable (first :: names) =
      Scope.declarable [first] ++ Scope.declarable names := Scope.declarable_append [first] names
  funext name
  rw [extended, extended, extended, happend, List.contains_append, Bool.or_assoc]

/-- The text of prefixes, one for each name, and of the chain inside. There is none if there is no
head for the prefixes. -/
def prefixed (head : Option (String → String)) (names : List String) (body : String) : String :=
  head.elim "" fun head => continued (Text.join ". " (names.map head)) body

theorem continued_continued (first : String) {second : String} (h : second ≠ "") (body : String) :
    continued first (continued second body) = continued (first ++ ". " ++ second) body := by
  have hne : continued second body ≠ "" := by
    rw [continued]
    split_ifs <;> simp [h]
  rw [continued, if_neg (by simpa using hne), continued, continued]
  split_ifs <;> simp [String.append_assoc]

/-- A prefix for the first name around prefixes for the others. -/
theorem prefixed_cons {head : String → String} (hhead : ∀ name, head name ≠ "") (first : String)
    {names : List String} (hne : names ≠ []) (body : String) :
    prefixed (some head) [first] (prefixed (some head) names body) =
      prefixed (some head) (first :: names) body := by
  obtain ⟨second, more, rfl⟩ := List.exists_cons_of_ne_nil hne
  have hjoin : Text.join ". " ((second :: more).map head) ≠ "" := by
    rw [List.map_cons]
    cases more with
    | nil => exact hhead second
    | cons third more => simp [Text.join_cons_cons, hhead second]
  change continued (head first) (continued _ body) = continued _ body
  rw [continued_continued _ hjoin, List.map_cons, List.map_cons, List.map_cons, Text.join_cons_cons,
    String.append_assoc]

/-- What prefixes give hangs on their head and on the chain inside, where their names are visible
besides. -/
structure Prefixes (head : (String → Bool) → Option (String → String)) (names : List String)
    (scope : List Block) (block : Block) : Prop where
  stop : block.kind.needsStop = true
  written : ∀ visible bare, written visible bare block =
    prefixed (head visible) names (writtenChain (extended visible names) false scope)

/-- Prefixes one inside of the other give what one with all of their names does, if the head is the
same inside of each. -/
theorem prefixes_nested {One : String → List Block → Block → Prop}
    (head : (String → Bool) → Option (String → String))
    (hne : ∀ visible own, head visible = some own → ∀ name, own name ≠ "")
    (hsame : ∀ visible own name, head visible = some own →
      head (extended visible [name]) = some own) {scope : List Block} :
    ∀ {names : List String} {chain : List Block},
      (∀ name ∈ names, ∀ inner block, One name inner block → Prefixes head [name] inner block) →
      names ≠ [] → Nested One scope names chain →
        ∃ block, chain = [block] ∧ Prefixes head names scope block
  | [name], chain, prefixes, _, hnested => by
    obtain ⟨block, inner, rfl, hone, rfl⟩ := hnested
    exact ⟨block, rfl, prefixes name List.mem_cons_self inner block hone⟩
  | first :: second :: more, chain, prefixes, _, hnested => by
    obtain ⟨block, inner, rfl, hone, hinner⟩ := hnested
    have hown := prefixes first List.mem_cons_self inner block hone
    obtain ⟨next, rfl, hnext⟩ := prefixes_nested head hne hsame
      (fun name hname => prefixes name (List.mem_cons_of_mem _ hname)) (by simp) hinner
    refine ⟨block, rfl, hown.stop, fun visible bare => ?_⟩
    have hchain : writtenChain (extended visible [first]) false [next] =
        written (extended visible [first]) false next := by
      simp [writtenChain, joined, sequence]
    rw [hown.written, hchain, hnext.written, extended_extended]
    -- without a head around there is no text, whether there is one inside or not
    cases hhead : head visible with
    | none => rfl
    | some own =>
      rw [hsame visible own first hhead, prefixed_cons (hne visible own hhead) first (by simp)]

/-! ## Heads -/

/-- The head of restrictions. -/
def restricting : Option (String → String) := some fun name => "$" ++ name

/-- The head of receptions on a channel. -/
def receiving (channel : List Block) (visible : String → Bool) : Option (String → String) :=
  let name := (channel.head?.map (shown visible)).getD ""
  if name.isEmpty then none else some (receiveText name)

section

variable {channel : List Block} {visible : String → Bool} {head : String → String}

theorem restricting_ne (h : restricting = some head) (name : String) : head name ≠ "" := by
  obtain rfl := Option.some.inj h
  simp

theorem receiving_ne (h : receiving channel visible = some head) (name : String) :
    head name ≠ "" := by
  rw [receiving] at h
  split_ifs at h
  obtain rfl := Option.some.inj h
  simp [receiveText]

/-- A channel that is visible around is the same inside. -/
theorem receiving_extended (h : receiving channel visible = some head) (name : String) :
    receiving channel (extended visible [name]) = some head := by
  cases channel with
  | nil => cases h
  | cons reference more =>
    have hvisible : visible (reference.field FieldName.name) = true := by
      by_contra hnot
      simp [receiving, shown, hnot] at h
    have hshown : shown (extended visible [name]) reference = shown visible reference := by
      rw [shown, shown, extended, hvisible, Bool.true_or]
    rw [receiving, List.head?_cons, Option.map_some, hshown]
    exact h

/-- A copy of the channel does as well. -/
theorem receiving_copied {copies : List Block} (h : Copied channel copies) :
    receiving copies visible = receiving channel visible := by
  rw [receiving, receiving, h.head?_shown]

theorem prefixed_receiving (names : List String) (body : String) :
    prefixed (receiving channel visible) names body =
      if ((channel.head?.map (shown visible)).getD "").isEmpty then ""
      else continued (Text.join ". "
        (names.map (receiveText ((channel.head?.map (shown visible)).getD "")))) body := by
  rw [receiving]
  split_ifs <;> rfl

end

/-! ## Prefixes -/

section

variable {block : Block} {names : List String}

theorem body_of_bodySlot {slot : String} (hslot : block.kind.bodySlot = some slot)
    (hskips : block.skipsBody = false) : block.body = block.chain slot := by
  rw [body, hskips, hslot]
  rfl

/-- Inside of a prefix its names are visible besides. -/
theorem prefixes_of_written {head : (String → Bool) → Option (String → String)}
    (hstop : block.kind.needsStop = true) (hslot : block.kind.bodySlot = some SlotName.scope)
    (hskips : block.skipsBody = false) (hbinds : block.binds = Scope.declarable names)
    (hwritten : ∀ visible bare, written visible bare block =
      prefixed (head visible) names (block.writtenBody visible)) :
    Prefixes head names (block.chain SlotName.scope) block := by
  refine ⟨hstop, fun visible bare => ?_⟩
  have hgate : block.kind.opensGate = false := by
    revert hslot
    cases block.kind <;> decide
  have hwithin : block.within visible = extended visible names := by
    funext name
    rw [within, hbinds, extended]
  rw [hwritten, writtenBody, hwithin, hgate, body_of_bodySlot hslot hskips]

theorem Restricts.prefixes {name : String} {scope : List Block} (h : Restricts name scope block)
    (hname : selectsNothing name = false) : Prefixes (fun _ => restricting) [name] scope block := by
  obtain ⟨hkind, hfield, rfl⟩ := h
  obtain ⟨id, kind, fields, slots⟩ := block
  obtain rfl : kind = .restrict := hkind
  obtain rfl : (OrderedMap.get? FieldName.new fields).getD "" = name := hfield
  refine prefixes_of_written rfl rfl ?_ rfl fun visible bare => ?_
  · simp [skipsBody, field_mk, hname]
  · rw [written_eq]
    simp only [Parts.ownText, fields_mk, kind_mk, hname]
    rfl

theorem Receives.prefixes {name : String} {channel scope : List Block}
    (h : Receives channel name scope block) (hname : name ≠ "") :
    Prefixes (receiving channel) [name] scope block := by
  obtain ⟨hkind, hchannel, hfield, rfl⟩ := h
  obtain ⟨id, kind, fields, slots⟩ := block
  obtain rfl : kind = .receive := hkind
  obtain rfl : (OrderedMap.get? FieldName.new fields).getD "" = name := hfield
  refine prefixes_of_written rfl rfl rfl rfl fun visible bare => ?_
  rw [← receiving_copied hchannel, prefixed_receiving, written_eq]
  simp only [Parts.ownText, fields_mk, kind_mk, String.isEmpty_eq_false_iff.2 hname, Bool.false_or]
  rfl

/-- A block that restricts several names gives what restrictions one inside of the other do. -/
theorem prefixes_of_multiRestrict (hkind : block.kind = .multiRestrict)
    (hne : block.severalNames ≠ []) :
    Prefixes (fun _ => restricting) block.severalNames (block.chain SlotName.scope) block := by
  obtain ⟨id, kind, fields, slots⟩ := block
  obtain rfl : kind = .multiRestrict := hkind
  have hnames : (Plan.namesOf slots SlotName.names).isEmpty = false :=
    List.isEmpty_eq_false_iff.2 hne
  refine prefixes_of_written rfl rfl hnames rfl fun visible bare => ?_
  rw [written_eq]
  simp only [Parts.ownText, kind_mk, slots_mk, hnames]
  rfl

/-- A block that receives several names gives what receptions one inside of the other do. -/
theorem prefixes_of_multiReceive (hkind : block.kind = .multiReceive)
    (hne : block.severalNames ≠ []) : Prefixes (receiving (block.chain SlotName.on))
      block.severalNames (block.chain SlotName.scope) block := by
  obtain ⟨id, kind, fields, slots⟩ := block
  obtain rfl : kind = .multiReceive := hkind
  have hnames : (Plan.namesOf slots SlotName.names).isEmpty = false :=
    List.isEmpty_eq_false_iff.2 hne
  refine prefixes_of_written rfl rfl rfl rfl fun visible bare => ?_
  rw [prefixed_receiving, written_eq]
  simp only [Parts.ownText, kind_mk, slots_mk, hnames, Bool.or_false]
  rfl

end

/-! ## Several messages one after the other -/

/-- The text of a message on a channel, if both have one. -/
def sent (channel message : String) : String :=
  if channel.isEmpty || message.isEmpty then "" else sendText channel message

theorem sent_eq_empty_or (channel message : String) :
    sent channel message = "" ∨ Text.isBlank (sent channel message) = false := by
  rw [sent]
  split_ifs
  · exact .inl rfl
  · right
    have hquote : Text.isBlank "'<" = false := by decide
    simp [sendText, Text.isBlank_append, hquote]

theorem filter_map_sent {channel : String} (hchannel : channel ≠ "") (messages : List String) :
    (messages.map (sent channel)).filter (fun text => !text.isEmpty) =
      (messages.filter fun message => !message.isEmpty).map (sendText channel) := by
  induction messages with
  | nil => rfl
  | cons message rest ih =>
    by_cases hmessage : message = ""
    · simp [ih, sent, hmessage]
    · simp [ih, sent, hmessage, hchannel, sendText]

/-- Messages that have text are joined by stops, if the channel has. -/
theorem join_sent (channel : String) (messages : List String) :
    (if channel.isEmpty || (messages.filter fun message => !message.isEmpty).isEmpty then ""
      else Text.join ". "
        ((messages.filter fun message => !message.isEmpty).map (sendText channel))) =
      Text.join ". " ((messages.map (sent channel)).filter fun text => !text.isEmpty) := by
  by_cases hchannel : channel = ""
  · have hnone : (messages.map (sent channel)).filter (fun text => !text.isEmpty) = [] := by
      simp [List.filter_eq_nil_iff, sent, hchannel]
    rw [hnone, hchannel]
    rfl
  · rw [filter_map_sent hchannel]
    cases messages.filter fun message => !message.isEmpty <;> simp [hchannel]

theorem followed_followed {first second : String} (hfirst : first ≠ "")
    (hsecond : Text.isBlank second = false) (rest : String) :
    followed true first (followed true second rest) =
      followed true (first ++ ". " ++ second) rest := by
  simp [followed, Text.isBlank_append, hfirst, hsecond, Text.ne_empty_of_not_blank hsecond,
    String.append_assoc]

/-- Texts one after the other, each with a stop if something follows, are joined by stops. Those
that are empty are passed over. -/
theorem foldr_followed (rest : String) : ∀ {texts : List String},
    (∀ text ∈ texts, text = "" ∨ Text.isBlank text = false) → texts.foldr (followed true) rest =
      followed true (Text.join ". " (texts.filter fun text => !text.isEmpty)) rest
  | [], _ => by simp [followed]
  | own :: texts, htexts => by
    have htail : ∀ text ∈ texts, text = "" ∨ Text.isBlank text = false := fun text ht =>
      htexts text (List.mem_cons_of_mem _ ht)
    have hrest := foldr_followed rest htail
    rw [List.foldr_cons, hrest]
    rcases htexts own List.mem_cons_self with rfl | hown
    · simp [followed]
    have hne := Text.ne_empty_of_not_blank hown
    have hkept : (own :: texts).filter (fun text => !text.isEmpty) =
        own :: texts.filter fun text => !text.isEmpty := by simp [hne]
    rw [hkept]
    cases hfilter : texts.filter fun text => !text.isEmpty with
    | nil => simp [followed]
    | cons first more =>
      obtain ⟨hmem, hfirst⟩ := List.mem_filter.1 (hfilter ▸ List.mem_cons_self)
      have hblank : Text.isBlank first = false :=
        (htail first hmem).resolve_left (by simpa using hfirst)
      rw [followed_followed hne (not_blank_join ". " hblank more), Text.join_cons_cons,
        String.append_assoc]

section

variable {block : Block} {visible : String → Bool}

theorem written_of_sends {channel : List Block} {item : Block} (h : Sends channel item block)
    (bare : Bool) : written visible bare block =
      sent ((channel.head?.map (shown visible)).getD "")
        (shownIn visible (some SlotName.message) item) := by
  rw [← h.channel.head?_shown, ← h.message.shownIn]
  obtain ⟨hkind, -, -⟩ := h
  obtain ⟨id, kind, fields, slots⟩ := block
  obtain rfl : kind = .send := hkind
  rw [written_eq]
  rfl

/-- The messages that have text are joined by stops. -/
theorem written_of_multiSend (hkind : block.kind = .multiSend) (bare : Bool) :
    written visible bare block = Text.join ". "
      (((block.chain SlotName.messages).map fun item =>
        sent (shownIn visible (some SlotName.on) block)
          (shownIn visible (some SlotName.message) item)).filter fun text => !text.isEmpty) := by
  have hmap : ((block.chain SlotName.messages).map fun item =>
      sent (shownIn visible (some SlotName.on) block)
        (shownIn visible (some SlotName.message) item)) =
      (shownItems visible (some (SlotName.messages, SlotName.message)) block).map
        (sent (shownIn visible (some SlotName.on) block)) := by
    rw [shownItems, Option.map_some, Option.getD_some, List.map_map]
    rfl
  rw [hmap, ← join_sent, written_eq]
  obtain ⟨id, kind, fields, slots⟩ := block
  obtain rfl : kind = .multiSend := hkind
  rfl

theorem chained_of_sends {items others : List Block} (bare : Bool) (rest : String)
    (h : List.Forall₂ (Sends (block.chain SlotName.on)) items others) :
    chained visible bare others rest = (items.map fun item =>
      sent (shownIn visible (some SlotName.on) block)
        (shownIn visible (some SlotName.message) item)).foldr (followed true) rest := by
  induction h with
  | nil => rfl
  | cons hsends _ ih =>
    rw [chained] at ih
    rw [chained, List.foldr_cons, ih, written_of_sends hsends, hsends.kind]
    rfl

end

/-! ## Terms -/

/-- What a block may be replaced by stands for it. -/
def StandsIn (block : Block) : Prop :=
  block.wellPlaced = true → block.kind.isTerm = true → ∀ others, Desugars block others →
    Stands block others

section

variable {block : Block} {others : List Block}

theorem stands_of_mem_body (placed : block.wellPlaced = true)
    (inside : ∀ inner ∈ block.body, StandsIn inner) :
    ∀ inner ∈ block.body, ∀ others, Desugars inner others → Stands inner others :=
  fun inner hinner => by
    obtain ⟨hplaced, hterm, -⟩ := isInner_of_mem_body placed hinner
    exact inside inner hinner hplaced hterm

/-- Prefixes stand for one with the same head and names, and the chain inside may be replaced. -/
theorem stands_of_prefixes {head : (String → Bool) → Option (String → String)}
    {names : List String} {parts : List (List Block)} (placed : block.wellPlaced = true)
    (inside : ∀ inner ∈ block.body, StandsIn inner)
    (hbody : block.body = block.chain SlotName.scope)
    (hparts : List.Forall₂ Desugars (block.chain SlotName.scope) parts)
    (h : Prefixes head names (block.chain SlotName.scope) block)
    (hothers : ∃ other, others = [other] ∧ Prefixes head names parts.flatten other) :
    Stands block others := by
  obtain ⟨other, rfl, hother⟩ := hothers
  have hfork := Kind.not_isFork_of_needsStop h.stop
  have hchain : ∀ visible bare, writtenChain visible bare parts.flatten =
      writtenChain visible bare (block.chain SlotName.scope) := by
    rw [← hbody] at hparts ⊢
    have hboth := (List.forall₂_and_left _ _).2 ⟨stands_of_mem_body placed inside, hparts⟩
    exact writtenChain_flatten (hboth.imp fun inner others h => h.1 others h.2)
      fun inner => isStatement_of_mem_body placed hfork
  refine .inr ⟨?_, ?_, fun visible bare rest => ?_⟩
  · simpa using Kind.isStatement_of_needsStop hother.stop
  · exact Kind.not_isBranch_of_isStatement (Kind.isStatement_of_needsStop h.stop)
  · rw [chained, List.foldr_cons, List.foldr_nil, hother.written, hchain, hother.stop, h.stop,
      h.written]

theorem ne_empty_of_mem_severalNames {name : String} (h : name ∈ block.severalNames) :
    name ≠ "" := by
  simpa using (List.mem_filter.1 h).2

theorem standsIn_of_body (inside : ∀ inner ∈ block.body, StandsIn inner) : StandsIn block := by
  intro placed hterm others h
  cases h with
  | @keep _ other parts _ hkind hfields hparts hchain =>
    have hkept : Kept Desugars block other :=
      ⟨hkind, hfields, fun slot => ⟨parts slot, hparts slot, hchain slot⟩⟩
    exact .inl ⟨other, rfl, hkind,
      hkept.written_eq keeps_desugars placed hterm (stands_of_mem_body placed inside)⟩
  | restricts hkind hne hnames hparts hnested =>
    have hbody : block.body = block.chain SlotName.scope :=
      body_of_bodySlot (by rw [hkind]; rfl) (by simpa [skipsBody, hkind, severalNames] using hne)
    have hselects : ∀ name ∈ block.severalNames, selectsNothing name = false := fun name hname => by
      simp [selectsNothing, ne_empty_of_mem_severalNames hname, ne_of_mem_of_not_mem hname hnames]
    have hothers := prefixes_nested (fun _ => restricting) (fun _ _ => restricting_ne)
      (fun _ _ _ hhead => hhead)
      (fun name hname inner other hone => hone.prefixes (hselects name hname)) hne hnested
    exact stands_of_prefixes placed inside hbody hparts (prefixes_of_multiRestrict hkind hne)
      hothers
  | receives hkind hne hparts hnested =>
    have hbody : block.body = block.chain SlotName.scope :=
      body_of_bodySlot (by rw [hkind]; rfl) (by simp [skipsBody, hkind])
    have hothers := prefixes_nested (receiving (block.chain SlotName.on))
      (fun _ _ => receiving_ne) (fun _ _ name hhead => receiving_extended hhead name)
      (fun name hname inner other hone => hone.prefixes (ne_empty_of_mem_severalNames hname))
      hne hnested
    exact stands_of_prefixes placed inside hbody hparts (prefixes_of_multiReceive hkind hne) hothers
  | sends hkind hsends =>
    refine .inr ⟨fun other ho => ?_, by rw [hkind]; rfl, fun visible bare rest => ?_⟩
    · obtain ⟨item, -, hitem⟩ := exists_of_mem_forall₂ hsends ho
      rw [hitem.kind]
      rfl
    · rw [chained_of_sends bare rest hsends, foldr_followed, written_of_multiSend hkind, hkind]
      · rfl
      · exact List.forall_mem_map.2 fun item _ => sent_eq_empty_or _ _

/-- What a term may be replaced by gives the same. -/
theorem standsIn (block : Block) : StandsIn block :=
  body_induction (fun _ => standsIn_of_body) block

end

end Block

/-! ## The top level -/

namespace Block

variable {block other : Block} {others : List Block}

/-- Programs, definitions and global names are not replaced, and nothing is replaced by them. -/
theorem Desugars.bypassesGate (h : Desugars block others) (hother : other ∈ others)
    (hkind : other.kind.bypassesGate = true) : block.kind = other.kind := by
  cases h with
  | keep _ hkept =>
    obtain rfl := List.mem_singleton.1 hother
    exact hkept.symm
  | restricts _ hne _ _ hnested =>
    obtain ⟨_, _, _, rfl, hone⟩ := hnested.exists_one hne
    obtain rfl := List.mem_singleton.1 hother
    rw [hone.kind] at hkind
    cases hkind
  | receives _ hne _ hnested =>
    obtain ⟨_, _, _, rfl, hone⟩ := hnested.exists_one hne
    obtain rfl := List.mem_singleton.1 hother
    rw [hone.kind] at hkind
    cases hkind
  | sends _ hsends =>
    obtain ⟨item, -, hitem⟩ := exists_of_mem_forall₂ hsends hother
    rw [hitem.kind] at hkind
    cases hkind

end Block

/-- The chains stand at one place, and the blocks of the first may be replaced by those of the
other. -/
def Root.Desugars (root other : Root) : Prop :=
  other.place = root.place ∧ ∃ parts, List.Forall₂ Block.Desugars root.chain parts ∧
    other.chain = parts.flatten

/-- The blocks of the first tree may be replaced by those of the other. -/
def Tree.Desugars (tree other : Tree) : Prop := List.Forall₂ Root.Desugars tree.roots other.roots

namespace Root

variable {root other : Root}

/-- At the top level, programs, definitions and global names stand in chains of their own. -/
theorem kind_of_bypassesGate (placed : root.wellPlaced = true)
    (h : root.head.kind.bypassesGate = true) :
    ∀ block ∈ root.chain, block.kind = root.head.kind := by
  by_cases hgate : root.head.kind.opensGate = true
  · rw [chain_of_opensGate placed hgate]
    exact fun block hblock => congrArg Block.kind (List.mem_singleton.1 hblock)
  · have hglobal : root.head.kind = .globalName := by
      revert h hgate
      cases root.head.kind <;> decide
    rw [hglobal]
    exact kind_of_isGlobal placed (by simp [isGlobal, hglobal])

theorem not_bypassesGate (placed : root.wellPlaced = true)
    (h : root.head.kind.bypassesGate = false) :
    ∀ block ∈ root.chain, block.kind.bypassesGate = false := by
  have hgate : ¬root.head.kind.opensGate = true ∧ root.head.kind ≠ .globalName := by
    revert h
    cases root.head.kind <;> decide
  rw [wellPlaced, Bool.and_eq_true, if_neg hgate.1, if_neg hgate.2] at placed
  have hrest := List.all_eq_true.1 placed.2
  exact List.forall_mem_cons.2 ⟨h, fun block hblock => by simpa using hrest block hblock⟩

variable (h : root.Desugars other) (placed : root.wellPlaced = true)
include h placed

/-- Programs, definitions and global names are kept at the top level. -/
theorem Desugars.kept :
    (root.head.kind.bypassesGate = true ∧
        List.Forall₂ (Kept Block.Desugars) root.chain other.chain) ∨
      root.head.kind.bypassesGate = false ∧ other.head.kind.bypassesGate = false := by
  obtain ⟨-, parts, hparts, hchain⟩ := h
  cases hhead : root.head.kind.bypassesGate with
  | true =>
    refine .inl ⟨rfl, hchain ▸ forall₂_kept hparts fun block hblock others hothers => ?_⟩
    have hkind := kind_of_bypassesGate placed hhead block hblock
    refine hothers.kept ?_ ?_ ?_ <;> intro heq <;> rw [← hkind, heq] at hhead <;> cases hhead
  | false =>
    refine .inr ⟨rfl, ?_⟩
    by_contra hother
    rw [Bool.not_eq_false] at hother
    have hmem : other.head ∈ parts.flatten := hchain ▸ List.mem_cons_self
    obtain ⟨others, hothers, hmem⟩ := List.mem_flatten.1 hmem
    obtain ⟨block, hblock, hdesugars⟩ := exists_of_mem_forall₂ hparts hothers
    have hnot := not_bypassesGate placed hhead block hblock
    rw [hdesugars.bypassesGate hmem hother, hother] at hnot
    cases hnot

theorem Desugars.isGlobal_eq : root.isGlobal = other.isGlobal := by
  rcases Desugars.kept h placed with ⟨-, hkept⟩ | ⟨hroot, hother⟩
  · rw [isGlobal, isGlobal, (List.forall₂_cons.1 hkept).1.kind]
  · simp only [Kind.bypassesGate, Bool.or_eq_false_iff] at hroot hother
    rw [isGlobal, isGlobal, hroot.2, hother.2]

theorem Desugars.globalNames_eq : other.globalNames = root.globalNames := by
  rcases Desugars.kept h placed with ⟨-, hkept⟩ | ⟨hroot, hother⟩
  · rw [globalNames, globalNames, Desugars.isGlobal_eq h placed, (copied_of_kept hkept).map_field]
  · simp only [Kind.bypassesGate, Bool.or_eq_false_iff] at hroot hother
    rw [globalNames, globalNames, isGlobal, isGlobal, hroot.2, hother.2]
    rfl

/-- The line of a program or definition is the same. -/
theorem Desugars.writtenLine_eq (visible : String → Bool) :
    other.writtenLine visible = root.writtenLine visible := by
  rcases Desugars.kept h placed with ⟨-, hkept⟩ | ⟨hroot, hother⟩
  · have hhead := (List.forall₂_cons.1 hkept).1
    have hplaced := of_wellPlaced placed root.head List.mem_cons_self
    rw [writtenLine, writtenLine, hhead.kind]
    split_ifs with hgate
    · rw [hhead.written_eq keeps_desugars hplaced (Kind.isTerm_of_opensGate hgate)
        (stands_of_mem_body hplaced fun inner _ => standsIn inner), lineOf, lineOf, hhead.kind]
    · rfl
  · simp only [Kind.bypassesGate, Bool.or_eq_false_iff] at hroot hother
    rw [writtenLine, writtenLine, Kind.opensGate, Kind.opensGate, hroot.1.1, hroot.1.2, hother.1.1,
      hother.1.2]
    rfl

end Root

namespace Tree

theorem flatMap_congr_forall₂ {α : Type} {R : Root → Root → Prop} {f : Root → List α}
    {roots others : List Root} (h : List.Forall₂ R roots others)
    (hf : ∀ root other, R root other → f other = f root) : others.flatMap f = roots.flatMap f := by
  induction h with
  | nil => rfl
  | cons hroot _ ih => rw [List.flatMap_cons, List.flatMap_cons, ih, hf _ _ hroot]

/-- The text of a pass does not change if blocks with several names are replaced by blocks with one
name each, anywhere and any number of times. -/
theorem text_of_desugars {tree other : Tree} (h : tree.Desugars other)
    (placed : tree.wellPlaced = true) (distinct : (tree.ids.map Scope.key).Nodup)
    (placed' : other.wellPlaced = true) (distinct' : (other.ids.map Scope.key).Nodup)
    (scopes scopes' : Scopes) (canonical : Bool) :
    (other.pass scopes' canonical).1.text = (tree.pass scopes canonical).1.text := by
  have hroots : List.Forall₂ (fun root other : Root => root.wellPlaced = true ∧ root.Desugars other)
      tree.roots other.roots :=
    (List.forall₂_and_left _ _).2 ⟨List.all_eq_true.1 placed, h⟩
  have horder := forall₂_visitOrder (fun root other hroot => hroot.2.1.symm)
    (fun root other hroot => Root.Desugars.isGlobal_eq hroot.2 hroot.1) hroots
  have hnames : other.globalNames = tree.globalNames := by
    rw [← flatMap_globalNames, ← flatMap_globalNames]
    exact flatMap_congr_forall₂ horder fun _ _ hroot => Root.Desugars.globalNames_eq hroot.2 hroot.1
  have hlines : (other.generate scopes').1 = (tree.generate scopes).1 := by
    rw [generate_written placed' distinct', generate_written placed distinct, hnames]
    exact flatMap_congr_forall₂ horder fun _ _ hroot =>
      Root.Desugars.writtenLine_eq hroot.2 hroot.1 _
  have htext (tree : Tree) (scopes : Scopes) : (tree.pass scopes canonical).1.text =
      if canonical then Line.order (tree.generate scopes).1
      else Line.raw (tree.generate scopes).1 := rfl
  rw [htext, htext, hlines]

/-- A reference to a name. -/
def reading (id name : String) : Block := .mk id .reference [(FieldName.name, name)] []

/-- Two messages, the second of which is missing. -/
def severalSends : Block :=
  .mk "send" .multiSend [] [
    (SlotName.on, [reading "inner channel" "c"]),
    (SlotName.messages, [
      .mk "first item" .sendName [] [(SlotName.message, [reading "message" "x"])],
      .mk "second item" .sendName [] []])]

/-- The same messages one after the other. -/
def eachSend : List Block := [
  .mk "send" .send [] [
    (SlotName.on, [reading "inner channel" "c"]),
    (SlotName.message, [reading "message" "x"])],
  .mk "other send" .send [] [(SlotName.on, [reading "other inner channel" "c"])]]

/-- A reception of two names, the first of which hides the channel. -/
def severalReceives : Block :=
  .mk "receive" .multiReceive [] [
    (SlotName.on, [reading "channel" "c"]),
    (SlotName.names, [
      .mk "first name" .receiveName [(FieldName.new, "c")] [],
      .mk "second name" .receiveName [(FieldName.new, "x")] []]),
    (SlotName.scope, [severalSends])]

/-- The same names one inside of the other. -/
def eachReceive : Block :=
  .mk "receive" .receive [(FieldName.new, "c")] [
    (SlotName.on, [reading "channel" "c"]),
    (SlotName.scope, [.mk "other receive" .receive [(FieldName.new, "x")] [
      (SlotName.on, [reading "other channel" "c"]),
      (SlotName.scope, eachSend)]])]

/-- A program with a global name. -/
def withGlobal (block : Block) : Tree where
  roots := ⟨.mk "global" .globalName [(FieldName.new, "c")] [], [], none⟩ :: (program [block]).roots

theorem desugars_severalSends : severalSends.Desugars eachSend := by
  have hchannel (id : String) : Copied [reading "inner channel" "c"] [reading id "c"] :=
    .cons ⟨rfl, rfl⟩ .nil
  exact .sends rfl (.cons ⟨rfl, hchannel _, .cons ⟨rfl, rfl⟩ .nil⟩
    (.cons ⟨rfl, hchannel _, .nil⟩ .nil))

theorem desugars_severalReceives : severalReceives.Desugars [eachReceive] := by
  have hnames : severalReceives.severalNames = ["c", "x"] := by decide
  have hparts : List.Forall₂ Block.Desugars (severalReceives.chain SlotName.scope) [eachSend] :=
    .cons desugars_severalSends .nil
  refine .receives rfl (by simp [hnames]) hparts ?_
  rw [hnames]
  exact ⟨_, _, rfl, ⟨rfl, .cons ⟨rfl, rfl⟩ .nil, rfl, rfl⟩,
    _, _, rfl, ⟨rfl, .cons ⟨rfl, rfl⟩ .nil, rfl, rfl⟩, rfl⟩

theorem desugars_withGlobal {block other : Block} (h : block.Desugars [other]) :
    (withGlobal block).Desugars (withGlobal other) := by
  have hparts (slot : String) : List.Forall₂ Block.Desugars
      ((Block.mk "main" .main [] [(SlotName.main, [block])]).chain slot)
      (if slot = SlotName.main then [[other]] else []) := by
    by_cases hslot : slot = SlotName.main
    · subst hslot
      exact .cons h .nil
    · simp [hslot, chain_mk, OrderedMap.get?, Ne.symm hslot]
  have hmain : (Block.mk "main" .main [] [(SlotName.main, [block])]).Desugars
      [.mk "main" .main [] [(SlotName.main, [other])]] := by
    refine .keep rfl rfl rfl hparts fun slot => ?_
    by_cases hslot : slot = SlotName.main
    · subst hslot
      rfl
    · simp [hslot, chain_mk, OrderedMap.get?, Ne.symm hslot]
  exact .cons ⟨rfl, [[_]], .cons (.refl _) .nil, rfl⟩
    (.cons ⟨rfl, [[_]], .cons hmain .nil, rfl⟩ .nil)

theorem text_of_desugars_severalReceives :
    (withGlobal severalReceives).Desugars (withGlobal eachReceive) ∧
    (withGlobal severalReceives).wellPlaced = true ∧ (withGlobal eachReceive).wellPlaced = true ∧
    ((withGlobal severalReceives).ids.map Scope.key).Nodup ∧
    ((withGlobal eachReceive).ids.map Scope.key).Nodup ∧
    ((withGlobal eachReceive).pass {} true).1.text =
      ((withGlobal severalReceives).pass {} true).1.text ∧
    ((withGlobal severalReceives).pass {} true).1.text = "c(c). c(x). c'<x>" := by
  have h := desugars_withGlobal desugars_severalReceives
  have placed : (withGlobal severalReceives).wellPlaced = true := by decide
  have placed' : (withGlobal eachReceive).wellPlaced = true := by decide
  -- all the ids of both trees, in an order that goes with both
  have distinct : (["global", "main", "receive", "channel", "first name", "second name",
      "other receive", "other channel", "send", "inner channel", "first item", "message",
      "second item", "other send", "other inner channel"].map Scope.key).Nodup := by decide +kernel
  have hseveral : ((withGlobal severalReceives).ids.map Scope.key).Nodup :=
    distinct.sublist (List.Sublist.map _ (by decide))
  have heach : ((withGlobal eachReceive).ids.map Scope.key).Nodup :=
    distinct.sublist (List.Sublist.map _ (by decide))
  exact ⟨h, placed, placed', hseveral, heach,
    text_of_desugars h placed hseveral placed' heach {} {} true, by decide +kernel⟩

end Tree

end PiBlocks
