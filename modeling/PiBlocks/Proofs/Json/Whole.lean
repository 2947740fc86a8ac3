import PiBlocks.Proofs.Json.Parts

/-!
# Texts that are whole

A text is whole if a reader that only skips comes to its end. Every reader sees as much of the text
as that one (`Thorough`), so whatever is read successfully was written in a whole text
(`Document.whole_of_read`).

The builder goes on after a token that breaks off, but nothing mends what it has then
(`Builder.not_whole_run`). So a whole text has no place at which the scanner would have to break
off. An example is a quote between the letters `d` and `i` : behind a quote that ends a string no
letter `i` can stand, and a quote that begins a string or belongs to an escape has no `d` in front
(`Document.Whole.quote_not_within`).
-/

namespace PiBlocks

namespace Json

/-- The value is well-formed to its end. -/
def Node.Whole (node : Node) : Prop := node.skip = .ok ()

/-- The text is well-formed to its end. -/
structure Document.Whole (document : Document) : Prop where
  root : document.root.Whole
  extra : document.extra = none

/-! ## What readers see -/

namespace Node

theorem skipTail_of_readTail {tail : Tail} {stop : Nat} (h : readTail tail = .ok stop) :
    skipTail tail = .ok () := by
  cases tail with
  | closed => rfl
  | halted => cases h

theorem skipItems_cons {item : Node} {items : List Node} {tail : Tail} (h : item.Whole)
    (hs : skipItems items tail = .ok ()) : skipItems (item :: items) tail = .ok () := by
  rw [skipItems, show item.skip = .ok () from h]
  exact hs

theorem skipMembers_cons (key : Key) {node : Node} {members : List (Key × Node)} {tail : Tail}
    (h : node.Whole) (hs : skipMembers members tail = .ok ()) :
    skipMembers ((key, node) :: members) tail = .ok () := by
  rw [skipMembers, show node.skip = .ok () from h]
  exact hs

end Node

/-- What the reader accepts is well-formed to its end. -/
def Thorough {α : Type} (reader : Reader α) : Prop :=
  ∀ node result, reader node = .ok result → node.Whole

namespace Thorough

variable {α β : Type} {reader : Reader α}

/-- What is read is put into a record. -/
theorem set {change : α → β → β} (h : Thorough reader) :
    Thorough fun node => do let read ← reader node; return change read := by
  intro node _ hread
  obtain ⟨result, hresult, -⟩ := bind_eq_ok hread
  exact h node result hresult

theorem text : Thorough Read.text := by
  intro node _ h
  cases node <;> first | rfl | cases h

theorem real : Thorough Read.real := by
  intro node _ h
  cases node <;> first | rfl | cases h

theorem word : Thorough Read.word := by
  intro node _ h
  cases node <;> first | rfl | cases h

theorem optional (h : Thorough reader) : Thorough (Read.optional reader) := by
  intro node _ hread
  cases node with
  | null => rfl
  | _ =>
    obtain ⟨result, hresult, -⟩ := Read.map_eq_ok hread
    exact h _ result hresult

theorem items (h : Thorough reader) {tail : Tail} : ∀ {nodes : List Node} {results : List α},
    Read.items reader nodes tail = .ok results → Node.skipItems nodes tail = .ok ()
  | [], _, hread => by
    obtain ⟨_, htail, -⟩ := bind_eq_ok hread
    exact Node.skipTail_of_readTail htail
  | node :: nodes, _, hread => by
    rw [Read.items] at hread
    obtain ⟨result, hresult, hread⟩ := bind_eq_ok hread
    obtain ⟨results, hresults, -⟩ := bind_eq_ok hread
    exact Node.skipItems_cons (h node result hresult) (items h hresults)

theorem list (h : Thorough reader) : Thorough (Read.list reader) := by
  intro node _ hread
  cases node with
  | list => exact items h hread
  | _ => cases hread

theorem entries (h : Thorough reader) {tail : Tail} {result : OrderedMap α} :
    ∀ {nodes : List (Key × Node)} {map : OrderedMap α},
      Read.entries reader map nodes tail = .ok result → Node.skipMembers nodes tail = .ok ()
  | [], _, hread => by
    obtain ⟨_, htail, -⟩ := bind_eq_ok hread
    exact Node.skipTail_of_readTail htail
  | (key, node) :: nodes, _, hread => by
    rw [Read.entries] at hread
    obtain ⟨name, -, hread⟩ := bind_eq_ok hread
    obtain ⟨value, hvalue, hread⟩ := bind_eq_ok hread
    exact Node.skipMembers_cons key (h node value hvalue) (entries h hread)

theorem map (h : Thorough reader) : Thorough (Read.map reader) := by
  intro node _ hread
  cases node with
  | object => exact entries h hread
  | _ => cases hread

theorem unit : Thorough Read.unit := by
  intro node _ h
  cases node <;> first | rfl | cases h

/-- An object stands for a name only if it is closed behind its one member. -/
theorem variant {known : List (String × α)} : Thorough (Read.variant known) := by
  intro node _ hread
  cases node with
  | object start members tail =>
    cases members with
    | nil => cases tail <;> cases hread
    | cons member more =>
      obtain ⟨key, node⟩ := member
      obtain ⟨name, -, hread⟩ := bind_eq_ok hread
      obtain ⟨value, -, hread⟩ := bind_eq_ok hread
      obtain ⟨_, hunit, hread⟩ := bind_eq_ok hread
      split at hread
      · exact Node.skipMembers_cons key (unit node _ hunit) rfl
      · cases hread
      · cases hread
  | text => rfl
  | _ => cases hread

section

variable {record : Record α} (hfield : ∀ field ∈ record.fields, Thorough field.read)
include hfield

theorem fill {b : α} {tail : Tail} : ∀ {members : List (Key × Node)} {a : α}
    {given : List String}, record.fill a given members tail = .ok b →
      Node.skipMembers members tail = .ok ()
  | [], _, _, hread => by
    cases tail with
    | closed => rfl
    | halted => cases hread
  | (key, node) :: members, _, _, hread => by
    rw [Record.fill] at hread
    obtain ⟨name, -, hread⟩ := bind_eq_ok hread
    split at hread
    · obtain ⟨_, hskip, hread⟩ := bind_eq_ok hread
      exact Node.skipMembers_cons key hskip (fill hread)
    · next field hfind =>
      split at hread
      · cases hread
      · obtain ⟨change, hchange, hread⟩ := bind_eq_ok hread
        have hwhole := hfield field (List.mem_of_find?_eq_some hfind) node change hchange
        exact Node.skipMembers_cons key hwhole (fill hread)

theorem line {b : α} {tail : Tail} : ∀ {fields : List (Field α)} {items : List Node} {a : α}
    {count : Nat}, (∀ field ∈ fields, field ∈ record.fields) →
      record.line a count fields items tail = .ok b → Node.skipItems items tail = .ok ()
  | [], [], _, _, _, hread => by
    cases tail with
    | closed => rfl
    | halted => cases hread
  | [], _ :: _, _, _, _, hread => by cases hread
  | _ :: _, [], _, _, _, hread => by
    cases tail with
    | closed => rfl
    | halted => cases hread
  | field :: fields, item :: items, _, _, hmem, hread => by
    rw [Record.line] at hread
    obtain ⟨change, hchange, hread⟩ := bind_eq_ok hread
    obtain ⟨hhere, hmem⟩ := List.forall_mem_cons.1 hmem
    exact Node.skipItems_cons (hfield field hhere item change hchange) (line hmem hread)

/-- A record is read to its end, whether its fields are looked for or come in order. -/
theorem read : Thorough record.read := by
  intro node _ hread
  cases node with
  | object => exact fill hfield hread
  | list => exact line hfield (fun _ => id) hread
  | _ => cases hread

end

end Thorough

/-- What is read successfully was written in a whole text. -/
theorem Document.whole_of_read {α : Type} {reader : Reader α} {document : Document} {result : α}
    (h : Thorough reader) (hread : document.read reader = .ok result) : document.Whole := by
  obtain ⟨value, hvalue, hread⟩ := bind_eq_ok hread
  split at hread
  · cases hread
  · next hextra => exact ⟨h document.root value hvalue, hextra⟩

/-! ## Tokens that break off -/

theorem Lexeme.Breaks.ne_finish {lexeme : Lexeme} (h : lexeme.Breaks) : lexeme ≠ .finish := by
  rintro rfl
  exact h

/-- A token breaks off before the text has ended. -/
inductive BreaksOff : List Token → Prop
  | here {token tokens} (h : token.lexeme.Breaks) : BreaksOff (token :: tokens)
  | later {token tokens} (h : token.lexeme ≠ .finish) (hs : BreaksOff tokens) :
      BreaksOff (token :: tokens)

namespace BreaksOff

variable {tokens : List Token}

theorem append (h : BreaksOff tokens) (more : List Token) : BreaksOff (tokens ++ more) := by
  induction h with
  | here h => exact .here h
  | later h _ ih => exact .later h ih

theorem prepend {front : List Token} (hfront : ∀ token ∈ front, token.lexeme ≠ .finish)
    (h : BreaksOff tokens) : BreaksOff (front ++ tokens) := by
  induction front with
  | nil => exact h
  | cons token front ih =>
    obtain ⟨htoken, hfront⟩ := List.forall_mem_cons.1 hfront
    exact .later htoken (ih hfront)

end BreaksOff

namespace Builder

theorem skipItems_halted (halt : Halt) : ∀ items : List Node,
    Node.skipItems items (.halted halt) ≠ .ok ()
  | [], h => by cases h
  | item :: items, h => by
    rw [Node.skipItems] at h
    obtain ⟨_, -, h⟩ := bind_eq_ok h
    exact skipItems_halted halt items h

theorem skipMembers_halted (halt : Halt) : ∀ members : List (Key × Node),
    Node.skipMembers members (.halted halt) ≠ .ok ()
  | [], h => by cases h
  | (_, node) :: members, h => by
    rw [Node.skipMembers] at h
    obtain ⟨_, -, h⟩ := bind_eq_ok h
    exact skipMembers_halted halt members h

/-- What ends with a halt is not whole, whatever is around it. -/
theorem not_whole_abandon {halt : Halt} : ∀ {stack : List Waiting} {node : Node},
    ¬node.Whole → ¬(abandon halt node stack).Whole
  | [], _, h => fun hwhole => h hwhole.root
  | .list _ _ :: _, _, _ => by
    rw [abandon]
    exact not_whole_abandon (skipItems_halted halt _)
  | .member _ _ _ :: _, _, _ => by
    rw [abandon]
    exact not_whole_abandon (skipMembers_halted halt _)

theorem not_whole_abandonValue {halt : Halt} {peek : Nat} {stack : List Waiting} :
    ¬(abandonValue halt peek stack).Whole := by
  rw [abandonValue]
  exact not_whole_abandon fun h => by cases h

theorem not_whole_abandonList {halt : Halt} {start : Nat} {items : List Node}
    {stack : List Waiting} : ¬(abandonList halt start items stack).Whole := by
  rw [abandonList]
  exact not_whole_abandon (skipItems_halted halt items.reverse)

theorem not_whole_abandonObject {halt : Halt} {start : Nat} {members : List (Key × Node)}
    {stack : List Waiting} : ¬(abandonObject halt start members stack).Whole := by
  rw [abandonObject]
  exact not_whole_abandon (skipMembers_halted halt members.reverse)

/-- The end of the text has not been met : if the builder is over, something broke off. -/
def Pending : Builder → Prop
  | .over document => ¬document.Whole
  | _ => True

theorem pending_deliver (node : Node) (stack : List Waiting) : (deliver node stack).Pending := by
  cases stack with
  | nil => trivial
  | cons waiting _ => cases waiting <;> trivial

theorem pending_takeValue (token : Token) (stack : List Waiting) :
    (takeValue token stack).Pending := by
  obtain ⟨start, stop, lexeme⟩ := token
  cases lexeme with
  | null | bool | number | text => exact pending_deliver _ stack
  | mark sign => cases sign <;> first | exact trivial | exact not_whole_abandonValue
  | stray | broken | finish => exact not_whole_abandonValue

theorem pending_takeName {start comma : Nat} {members : List (Key × Node)} {fixed : JsonError}
    (token : Token) (stack : List Waiting) :
    (takeName start members comma fixed token stack).Pending := by
  rw [takeName]
  split
  · trivial
  · exact not_whole_abandonObject
  · exact not_whole_abandonObject

/-- A token keeps the builder pending, unless it is the end of the text. -/
theorem pending_step {builder : Builder} {token : Token} (h : builder.Pending)
    (hlexeme : token.lexeme ≠ .finish) : (builder.step token).Pending := by
  rw [step.eq_def]
  split
  · next hfinish => exact absurd hfinish hlexeme
  all_goals
    first
    | exact pending_deliver _ _
    | exact pending_takeValue _ _
    | exact pending_takeName _ _
    | exact not_whole_abandonValue
    | exact not_whole_abandonList
    | exact not_whole_abandonObject
    | exact h
    | exact trivial
    | exact fun hwhole => Option.some_ne_none _ hwhole.extra

/-- With a token that breaks off, the builder is over. -/
theorem step_of_breaks (builder : Builder) {token : Token} (h : token.lexeme.Breaks) :
    ∃ document, builder.step token = .over document := by
  obtain ⟨start, stop, lexeme⟩ := token
  cases lexeme with
  | stray => cases builder <;> exact ⟨_, rfl⟩
  | broken quoted => cases quoted <;> cases builder <;> exact ⟨_, rfl⟩
  | _ => exact h.elim

theorem run_over (document : Document) : ∀ tokens : List Token,
    run (.over document) tokens = document
  | [] => rfl
  | ⟨_, _, lexeme⟩ :: tokens => by
    rw [run]
    cases lexeme <;> exact run_over document tokens

/-- Nothing mends what has broken off. -/
theorem not_whole_run {tokens : List Token} (h : BreaksOff tokens) : ∀ {builder : Builder},
    builder.Pending → ¬(run builder tokens).Whole := by
  induction h with
  | @here token tokens hbreaks =>
    intro builder hpending
    have hstep := pending_step hpending hbreaks.ne_finish
    obtain ⟨document, hover⟩ := step_of_breaks builder hbreaks
    rw [hover] at hstep
    rw [run, hover, run_over]
    exact hstep
  | later hlexeme _ ih => exact fun hpending => ih (pending_step hpending hlexeme)

end Builder

/-! ## Where the scanner breaks off -/

namespace Scan

/-- What the scanner can be at before anything broke off. A word stands for a value, and no word
has a `d` behind its first letter. -/
def Sound : Scan → Prop
  | .word _ lexeme due rest => lexeme ≠ .finish ∧ 'd' ∉ due :: rest
  | .over => False
  | _ => True

/-- The character breaks the scan off, or the scanner goes on and the text has not ended. -/
def Goes (result : List Token × Scan) : Prop :=
  BreaksOff result.1 ∨ result.2.Sound ∧ ∀ token ∈ result.1, token.lexeme ≠ .finish

theorem breaksOff_stopAt {start stop : Nat} {lexeme : Lexeme} (h : lexeme.Breaks) :
    BreaksOff (stopAt start stop lexeme).1 :=
  .here h

theorem goes_begin (here : Nat) (c : Char) : Goes (begin here c) := by
  have hnone : ∀ token ∈ ([] : List Token), token.lexeme ≠ .finish := List.forall_mem_nil _
  rw [begin]
  split_ifs
  · exact .inr ⟨trivial, hnone⟩
  · exact .inr ⟨trivial, hnone⟩
  · exact .inr ⟨trivial, hnone⟩
  · exact .inr ⟨⟨by simp, by decide⟩, hnone⟩
  · exact .inr ⟨⟨by simp, by decide⟩, hnone⟩
  · exact .inr ⟨⟨by simp, by decide⟩, hnone⟩
  · split
    · exact .inr ⟨trivial, hnone⟩
    · exact .inr ⟨trivial, List.forall_mem_singleton.2 (by simp)⟩
    · exact .inl (breaksOff_stopAt trivial)

theorem goes_stepNumber (start here : Nat) (numeral : Numeral) (stage : Stage) (c : Char) :
    Goes (stepNumber start here numeral stage c) := by
  rcases stepNumber_cases start here numeral stage c with ⟨_, _, hstep⟩ |
    ⟨_, _, hstep, hbreaks⟩ | ⟨_, hstep⟩
  · rw [hstep]
    exact .inr ⟨trivial, List.forall_mem_nil _⟩
  · rw [hstep]
    exact .inl (breaksOff_stopAt hbreaks)
  · rw [hstep]
    rcases goes_begin here c with hoff | ⟨hsound, hfinish⟩
    · exact .inl (.later (by simp) hoff)
    · exact .inr ⟨hsound, List.forall_mem_cons.2 ⟨by simp, hfinish⟩⟩

theorem goes_stepText (start here : Nat) (q : Quotation) (inside : Inside) (c : Char) :
    Goes (stepText start here q inside c) := by
  have hmore (q : Quotation) (inside : Inside) : Goes ([], .text start q inside) :=
    .inr ⟨trivial, List.forall_mem_nil _⟩
  cases inside with
  | plain high =>
    rw [stepText]
    split_ifs
    · exact hmore _ _
    · exact .inr ⟨trivial, List.forall_mem_singleton.2 (by simp)⟩
    · exact .inl (breaksOff_stopAt trivial)
    · exact hmore _ _
  | escape high =>
    rw [stepText]
    split_ifs
    · exact hmore _ _
    · dsimp only
      split
      · exact hmore _ _
      · exact .inl (breaksOff_stopAt trivial)
  | code high taken spelled =>
    rw [stepText_code]
    split_ifs
    · exact hmore _ _
    · split
      · exact hmore _ _
      · exact .inl (breaksOff_stopAt trivial)

/-- One character, wherever the scanner is. -/
theorem goes_step {scan : Scan} (h : scan.Sound) (here : Nat) (c : Char) :
    Goes (scan.step here c) := by
  cases scan with
  | between => exact goes_begin here c
  | word start lexeme due rest =>
    obtain ⟨hlexeme, hd⟩ := h
    by_cases hc : c = due
    · cases rest with
      | nil =>
        rw [step, if_pos hc]
        exact .inr ⟨trivial, List.forall_mem_singleton.2 hlexeme⟩
      | cons next rest =>
        rw [step, if_pos hc]
        exact .inr ⟨⟨hlexeme, fun hmem => hd (List.mem_cons_of_mem due hmem)⟩,
          List.forall_mem_nil _⟩
    · cases rest <;> rw [step, if_neg hc] <;> exact .inl (breaksOff_stopAt trivial)
  | number start numeral stage => exact goes_stepNumber start here numeral stage c
  | text start q inside => exact goes_stepText start here q inside c
  | _ => exact h.elim

/-- Behind a `d` the scanner is inside of a string, and no backslash is in front. -/
theorem step_d {scan : Scan} (h : scan.Sound) (here : Nat) :
    BreaksOff (scan.step here 'd').1 ∨ ∃ start q inside,
      scan.step here 'd' = ([], .text start q inside) ∧ ∀ high, inside ≠ .escape high := by
  cases scan with
  -- no token begins with a `d`, and no number goes on with one
  | between => exact .inl (.here trivial)
  | word start lexeme due rest =>
    have hdue : 'd' ≠ due := fun heq => h.2 (heq ▸ List.mem_cons_self)
    cases rest <;> rw [step, if_neg hdue] <;> exact .inl (breaksOff_stopAt trivial)
  | number start numeral stage =>
    cases stage <;> first
      | exact .inl (.here trivial)
      | exact .inl (.later (by simp) (.here trivial))
  | text start q inside =>
    cases inside with
    | plain high => exact .inr ⟨start, _, .plain none, rfl, by simp⟩
    | escape high => exact .inl (.here trivial)
    | code high taken spelled =>
      rw [step, stepText_code]
      split_ifs
      · exact .inr ⟨start, _, _, rfl, by simp⟩
      · split
        · exact .inr ⟨start, _, _, rfl, by simp⟩
        · exact .inl (breaksOff_stopAt trivial)
  | _ => exact h.elim

/-- An escape with a character that is no digit in its number is not completed. -/
theorem breaksOff_code (start : Nat) (q : Quotation) (high : Option Nat) :
    ∀ (cs : List Char) (here taken : Nat),
      BreaksOff (scanFrom (.text start q (.code high taken none)) here cs)
  | [], _, _ => .here trivial
  | c :: cs, here, taken => by
    have hspelled : spelledOn none c = none := rfl
    rw [scanFrom, step, stepText_code, hspelled]
    split_ifs
    · exact breaksOff_code start q high cs _ _
    · exact .here trivial

/-- There the quote ends the string, so that no `i` can stand behind it, or it is in the number of
an escape. -/
theorem breaksOff_behind_d (start here : Nat) (q : Quotation) {inside : Inside} (cs : List Char)
    (h : ∀ high, inside ≠ .escape high) :
    BreaksOff (scanFrom (.text start q inside) here ('"' :: 'i' :: cs)) := by
  cases inside with
  | plain high => exact .later (by simp) (.here trivial)
  | escape high => exact absurd rfl (h high)
  | code high taken spelled =>
    have hspelled : spelledOn spelled '"' = none := by
      cases spelled <;> rfl
    rw [scanFrom, step, stepText_code, hspelled]
    split_ifs
    · exact breaksOff_code start q high _ _ _
    · exact .here trivial

theorem breaksOff_of_split (rest : List Char) : ∀ (front : List Char) {scan : Scan} (here : Nat),
    scan.Sound → BreaksOff (scanFrom scan here (front ++ 'd' :: '"' :: 'i' :: rest))
  | [], scan, here, h => by
    rw [List.nil_append, scanFrom]
    rcases step_d h here with hoff | ⟨start, q, inside, hstep, hinside⟩
    · exact hoff.append _
    · rw [hstep]
      exact breaksOff_behind_d start _ q rest hinside
  | c :: front, scan, here, h => by
    rw [List.cons_append, scanFrom]
    rcases goes_step h here c with hoff | ⟨hsound, hfinish⟩
    · exact hoff.append _
    · exact (breaksOff_of_split rest front _ hsound).prepend hfinish

end Scan

/-- In a whole text no quote stands between the letters of `di`. -/
theorem Document.Whole.quote_not_within {source : String} (h : (Document.parse source).Whole) :
    ¬['d', '"', 'i'] <:+: source.toList := by
  rintro ⟨front, rest, hsource⟩
  refine Builder.not_whole_run ?_ (show (Builder.value []).Pending from trivial) h
  rw [scan, ← hsource, List.append_assoc]
  exact Scan.breaksOff_of_split rest front 0 (show Scan.between.Sound from trivial)

end Json

end PiBlocks
