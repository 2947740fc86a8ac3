import PiBlocks.Proofs.Json.Tokens

/-!
# Members in their text

The builder reads a text token by token and keeps none of them. So that a string in the value can
be found in the text again, the invariant of the builder (`Builder.Follows`) says of what it holds
that every member with a string was written : its name, a colon and the string are tokens that
stand behind each other, and in front of the name is an opening bracket or a comma. That is
preserved by every token (`Builder.follows_step`) and holds of the members at any depth of what is
parsed (`Document.every_written`).

Tokens that stand behind each other have only space between them. With what is known of single
tokens, a member with a string is found in the characters (`Written.inText`).
-/

namespace PiBlocks

namespace Json

open Text (byteLength)

/-! ## Members at any depth -/

/-- The condition holds of every member inside of a value, at any depth. -/
inductive Node.Every (P : Key → Node → Prop) : Node → Prop
  | null {start stop} : Every P (.null start stop)
  | bool {value start stop} : Every P (.bool value start stop)
  | number {value start stop} : Every P (.number value start stop)
  | text {value start stop} : Every P (.text value start stop)
  | list {start items tail} (hs : ∀ item ∈ items, Every P item) : Every P (.list start items tail)
  | object {start members tail} (h : ∀ member ∈ members, P member.1 member.2)
      (hs : ∀ member ∈ members, Every P member.2) : Every P (.object start members tail)
  | broken {peek halt} : Every P (.broken peek halt)

theorem Node.Every.mono {P Q : Key → Node → Prop} (hPQ : ∀ key node, P key node → Q key node)
    {node : Node} (h : node.Every P) : node.Every Q := by
  induction h with
  | list _ ih => exact .list ih
  | object h _ ih => exact .object (fun member hmember => hPQ _ _ (h member hmember)) ih
  | _ => constructor

/-- The condition holds of everything in a list or object that waits for a value. -/
inductive Waiting.Every (P : Key → Node → Prop) : Waiting → Prop
  | list {start items} (hs : ∀ item ∈ items, item.Every P) : Every P (.list start items)
  | member {start members key} (h : ∀ member ∈ members, P member.1 member.2)
      (hs : ∀ member ∈ members, member.2.Every P) : Every P (.member start members key)

theorem Waiting.Every.mono {P Q : Key → Node → Prop} (hPQ : ∀ key node, P key node → Q key node)
    {waiting : Waiting} (h : waiting.Every P) : waiting.Every Q := by
  cases h with
  | list hs => exact .list fun item hitem => (hs item hitem).mono hPQ
  | member h hs =>
    exact .member (fun member hmember => hPQ _ _ (h member hmember))
      fun member hmember => (hs member hmember).mono hPQ

/-! ## Tokens in front of a value -/

/-- Whether a name may stand behind the token. -/
def Token.Opens (token : Token) : Prop :=
  token.lexeme = .mark .openObject ∨ token.lexeme = .mark .comma

/-- The last tokens are what stands in front of the value of a member : its name and a colon. -/
def Named (past : List Token) (key : Key) : Prop :=
  ∃ front opening name colon, past = front ++ [opening, name, colon] ∧ opening.Opens ∧
    name.lexeme = .text key.name ∧ name.stop = key.stop ∧ colon.lexeme = .mark .colon

/-- A member whose value is a string was read from tokens that stand behind each other. -/
def Written (tokens : List Token) (key : Key) (node : Node) : Prop :=
  ∀ value start stop, node = .text value start stop → ∃ past back,
    tokens = past ++ ⟨start, stop, .text value⟩ :: back ∧ Named past key

theorem Written.more {tokens : List Token} (token : Token) (key : Key) (node : Node)
    (h : Written tokens key node) : Written (tokens ++ [token]) key node := by
  intro value start stop hnode
  obtain ⟨past, back, rfl, hnamed⟩ := h value start stop hnode
  exact ⟨past, back ++ [token], by simp, hnamed⟩

/-! ## The builder -/

/-- Everything that waits was written. -/
def AllWritten (tokens : List Token) (stack : List Waiting) : Prop :=
  ∀ waiting ∈ stack, waiting.Every (Written tokens)

theorem AllWritten.more {tokens : List Token} {stack : List Waiting} (token : Token)
    (h : AllWritten tokens stack) : AllWritten (tokens ++ [token]) stack :=
  fun waiting hwaiting => (h waiting hwaiting).mono (Written.more token)

theorem AllWritten.push {tokens : List Token} {stack : List Waiting} {waiting : Waiting}
    (h : waiting.Every (Written tokens)) (hs : AllWritten tokens stack) :
    AllWritten tokens (waiting :: stack) :=
  List.forall_mem_cons.2 ⟨h, hs⟩

/-- The value was written, and in its place if a list or object waits for it. -/
structure Fits (tokens : List Token) (node : Node) (stack : List Waiting) : Prop where
  every : node.Every (Written tokens)
  around : AllWritten tokens stack
  head : ∀ start members key rest, stack = .member start members key :: rest →
    Written tokens key node

namespace Fits

variable {tokens : List Token} {stack : List Waiting}

/-- Of a value that is no string nothing needs to be known but what is inside of it. -/
theorem other {node : Node} (h : node.Every (Written tokens))
    (hother : ∀ value start stop, node ≠ .text value start stop) (hs : AllWritten tokens stack) :
    Fits tokens node stack :=
  ⟨h, hs, fun _ _ _ _ _ value start stop hnode => absurd hnode (hother value start stop)⟩

theorem broken {peek : Nat} {halt : Halt} (hs : AllWritten tokens stack) :
    Fits tokens (.broken peek halt) stack :=
  .other .broken nofun hs

theorem list {start : Nat} {items : List Node} {tail : Tail}
    (hs : AllWritten tokens (.list start items :: stack)) :
    Fits tokens (.list start items.reverse tail) stack := by
  obtain ⟨⟨hitems⟩, hstack⟩ := List.forall_mem_cons.1 hs
  exact .other (.list fun item hitem => hitems item (List.mem_reverse.1 hitem)) nofun hstack

theorem object {start : Nat} {members : List (Key × Node)} {tail : Tail}
    (hs : ∀ key, AllWritten tokens (.member start members key :: stack)) :
    Fits tokens (.object start members.reverse tail) stack := by
  -- what is written of the members does not depend on the name that waits
  obtain ⟨_ | ⟨hmembers, hinside⟩, hstack⟩ := List.forall_mem_cons.1 (hs ⟨.ok "", 0, 0, 0⟩)
  exact .other (.object (fun member hmember => hmembers member (List.mem_reverse.1 hmember))
    fun member hmember => hinside member (List.mem_reverse.1 hmember)) nofun hstack

/-- What waits with the value in it. -/
theorem pushItem {start : Nat} {items : List Node} {node : Node}
    (h : Fits tokens node (.list start items :: stack)) :
    AllWritten tokens (.list start (node :: items) :: stack) := by
  obtain ⟨⟨hitems⟩, hstack⟩ := List.forall_mem_cons.1 h.around
  exact .push (.list (List.forall_mem_cons.2 ⟨h.every, hitems⟩)) hstack

theorem pushMember {start : Nat} {members : List (Key × Node)} {key : Key} {node : Node}
    (h : Fits tokens node (.member start members key :: stack)) (other : Key) :
    AllWritten tokens (.member start ((key, node) :: members) other :: stack) := by
  obtain ⟨_ | ⟨hmembers, hinside⟩, hstack⟩ := List.forall_mem_cons.1 h.around
  exact .push (.member (List.forall_mem_cons.2 ⟨h.head start members key stack rfl, hmembers⟩)
    (List.forall_mem_cons.2 ⟨h.every, hinside⟩)) hstack

end Fits

namespace Builder

/-- What the builder holds was written, and the tokens so far end with what it has noted of
them. -/
inductive Follows (past : List Token) : Builder → Prop
  | value {stack} (hs : AllWritten past stack)
      (hnamed : ∀ start members key rest, stack = .member start members key :: rest →
        Named past key) : Follows past (.value stack)
  | firstItem {start stack} (hs : AllWritten past (.list start [] :: stack)) :
      Follows past (.firstItem start stack)
  | nextItem {start items stack} (hs : AllWritten past (.list start items :: stack)) :
      Follows past (.nextItem start items stack)
  | itemEnd {start items stack} (hs : AllWritten past (.list start items :: stack)) :
      Follows past (.itemEnd start items stack)
  | firstName {start stack} (hs : ∀ key, AllWritten past (.member start [] key :: stack))
      (hopen : ∃ front opening, past = front ++ [opening] ∧ opening.Opens) :
      Follows past (.firstName start stack)
  | nextName {start members comma stack}
      (hs : ∀ key, AllWritten past (.member start members key :: stack))
      (hopen : ∃ front opening, past = front ++ [opening] ∧ opening.Opens) :
      Follows past (.nextName start members comma stack)
  | colon {start members name stop comma stack}
      (hs : ∀ key, AllWritten past (.member start members key :: stack))
      (hname : ∃ front opening begun, past = front ++ [opening, ⟨begun, stop, .text name⟩] ∧
        opening.Opens) : Follows past (.colon start members name stop comma stack)
  | memberEnd {start members stack}
      (hs : ∀ key, AllWritten past (.member start members key :: stack)) :
      Follows past (.memberEnd start members stack)
  | complete {root} (h : root.Every (Written past)) : Follows past (.complete root)
  | ended {document} (h : document.root.Every (Written past)) : Follows past (.over document)

variable {past : List Token} {stack : List Waiting}

theorem follows_deliver {node : Node} (h : Fits past node stack) :
    Follows past (deliver node stack) := by
  match stack, h with
  | [], h => exact .complete h.every
  | .list _ _ :: _, h => exact .itemEnd h.pushItem
  | .member _ _ _ :: _, h => exact .memberEnd h.pushMember

theorem every_abandon (halt : Halt) : ∀ {stack : List Waiting} {node : Node},
    Fits past node stack → (abandon halt node stack).root.Every (Written past)
  | [], _, h => h.every
  | .list _ _ :: _, _, h => by
    rw [abandon]
    exact every_abandon halt (.list h.pushItem)
  | .member _ _ _ :: _, _, h => by
    rw [abandon]
    exact every_abandon halt (.object h.pushMember)

theorem every_finish (offset : Nat) {builder : Builder} (h : Follows past builder) :
    (builder.finish offset).root.Every (Written past) := by
  cases h with
  | value hs _ => exact every_abandon _ (.broken hs)
  | firstItem hs => exact every_abandon _ (.list hs)
  | nextItem hs => exact every_abandon _ (.broken hs)
  | itemEnd hs => exact every_abandon _ (.list hs)
  | firstName hs _ => exact every_abandon _ (.object hs)
  | nextName hs _ => exact every_abandon _ (.object hs)
  | colon hs _ => exact every_abandon _ (.broken (hs _))
  | memberEnd hs => exact every_abandon _ (.object hs)
  | complete h => exact h
  | ended h => exact h

/-- A token where a value is due. -/
theorem follows_takeValue (token : Token) (hs : AllWritten past stack)
    (hnamed : ∀ start members key rest, stack = .member start members key :: rest →
      Named past key) : Follows (past ++ [token]) (takeValue token stack) := by
  have hs := hs.more token
  obtain ⟨start, stop, lexeme⟩ := token
  cases lexeme with
  | null => exact follows_deliver (.other .null nofun hs)
  | bool => exact follows_deliver (.other .bool nofun hs)
  | number => exact follows_deliver (.other .number nofun hs)
  | text value =>
    refine follows_deliver ⟨.text, hs, fun begun members key rest hstack => ?_⟩
    rintro _ _ _ ⟨⟩
    exact ⟨past, [], rfl, hnamed begun members key rest hstack⟩
  | mark sign =>
    cases sign with
    | openList => exact .firstItem (.push (.list (List.forall_mem_nil _)) hs)
    | openObject =>
      exact .firstName
        (fun key => .push (.member (List.forall_mem_nil _) (List.forall_mem_nil _)) hs)
        ⟨past, _, rfl, .inl rfl⟩
    | _ => exact .ended (every_abandon _ (.broken hs))
  | _ => exact .ended (every_abandon _ (.broken hs))

/-- A token where a name is due. -/
theorem follows_takeName {start comma : Nat} {members : List (Key × Node)} {fixed : JsonError}
    (token : Token) (hs : ∀ key, AllWritten past (.member start members key :: stack))
    (hopen : ∃ front opening, past = front ++ [opening] ∧ opening.Opens) :
    Follows (past ++ [token]) (takeName start members comma fixed token stack) := by
  have hs (key : Key) := (hs key).more token
  have hover (halt : Halt) :
      (abandonObject halt start members stack).root.Every (Written (past ++ [token])) :=
    every_abandon halt (.object hs)
  obtain ⟨begun, stop, lexeme⟩ := token
  cases lexeme with
  | text name =>
    obtain ⟨front, opening, rfl, hopens⟩ := hopen
    exact .colon hs ⟨front, opening, begun, by simp, hopens⟩
  | broken quoted wanted skipped => cases quoted <;> exact .ended (hover _)
  | _ => exact .ended (hover _)

/-- One token keeps the invariant. -/
theorem follows_step {builder : Builder} (h : Follows past builder) (token : Token) :
    Follows (past ++ [token]) (builder.step token) := by
  rw [step.eq_def]
  split
  · exact .ended ((every_finish token.start h).mono (Written.more token))
  · cases h with | value hs hnamed => exact follows_takeValue token hs hnamed
  · cases h with | firstItem hs => exact follows_deliver (.list (hs.more token))
  · cases h with | firstItem hs => exact follows_takeValue token hs nofun
  · cases h with | nextItem hs => exact .ended (every_abandon _ (.list (hs.more token)))
  · cases h with | nextItem hs => exact follows_takeValue token hs nofun
  · cases h with | itemEnd hs => exact .nextItem (hs.more token)
  · cases h with | itemEnd hs => exact follows_deliver (.list (hs.more token))
  · cases h with | itemEnd hs => exact .ended (every_abandon _ (.list (hs.more token)))
  · cases h with
    | firstName hs _ => exact follows_deliver (.object fun key => (hs key).more token)
  · cases h with | firstName hs hopen => exact follows_takeName token hs hopen
  · cases h with
    | nextName hs _ => exact .ended (every_abandon _ (.object fun key => (hs key).more token))
  · cases h with | nextName hs hopen => exact follows_takeName token hs hopen
  · next hcolon =>
    cases h with
    | colon hs hname =>
      refine .value ((hs _).more token) ?_
      rintro _ _ _ _ ⟨⟩
      obtain ⟨front, opening, begun, rfl, hopens⟩ := hname
      exact ⟨front, opening, ⟨begun, _, .text _⟩, token, by simp, hopens, rfl, rfl, hcolon⟩
  · cases h with | colon hs _ => exact .ended (every_abandon _ (.broken ((hs _).more token)))
  · cases h with | colon hs _ => exact .ended (every_abandon _ (.broken ((hs _).more token)))
  · next hcomma =>
    cases h with
    | memberEnd hs =>
      exact .nextName (fun key => (hs key).more token) ⟨past, token, rfl, .inr hcomma⟩
  · cases h with
    | memberEnd hs => exact follows_deliver (.object fun key => (hs key).more token)
  · cases h with
    | memberEnd hs => exact .ended (every_abandon _ (.object fun key => (hs key).more token))
  · cases h with | complete hroot => exact .ended (hroot.mono (Written.more token))
  · cases h with | ended hroot => exact .ended (hroot.mono (Written.more token))

/-- What is built was written. -/
theorem every_run : ∀ (rest past : List Token) {builder : Builder}, Follows past builder →
    (run builder rest).root.Every (Written (past ++ rest))
  | [], past, _, h => by
    rw [List.append_nil]
    exact every_finish 0 h
  | token :: rest, past, builder, h => by
    rw [run, List.append_cons]
    exact every_run rest (past ++ [token]) (follows_step h token)

end Builder

/-- Every member of a parsed text with a string was written. -/
theorem Document.every_written (source : String) :
    (Document.parse source).root.Every (Written (scan source)) :=
  Builder.every_run (scan source) [] (.value (List.forall_mem_nil _) nofun)

/-! ## Members in the characters -/

/-- A member whose value is a string, and where it stands : in the characters are a quote, the
name, a quote, a colon and the quoted string, with space around the colon. What is in front does
not end with the last letter of `id`, so the first quote does not end a name. -/
def InText (cs : List Char) (keyStop start stop : Nat) (name value : List Char) : Prop :=
  ∃ front raw gap gap' raw' after,
    cs = front ++ '"' :: (raw ++ '"' :: (gap ++ ':' :: (gap' ++ '"' :: (raw' ++ '"' :: after)))) ∧
    front.getLast? ≠ some 'd' ∧ IsGap gap ∧ IsGap gap' ∧ Spells raw name ∧ Spells raw' value ∧
    keyStop = byteLength front + byteLength raw + 2 ∧
    start = keyStop + byteLength gap + byteLength gap' + 1 ∧ stop = start + byteLength raw' + 2

theorem Token.Opens.covers {token : Token} {body : List Char} (h : token.Opens)
    (hcovers : token.lexeme.Covers body) : ∃ c, body = [c] ∧ c ≠ 'd' := by
  rcases h with h | h <;> rw [h] at hcovers <;> obtain ⟨c, rfl, hsign⟩ := hcovers <;>
    refine ⟨c, rfl, ?_⟩ <;> rintro rfl <;> cases hsign

theorem Written.inText {source : String} {key : Key} {name value : String} {start stop : Nat}
    (h : Written (scan source) key (.text (.ok value) start stop)) (hname : key.name = .ok name) :
    InText source.toList key.stop start stop name.toList value.toList := by
  obtain ⟨_, back, htokens, front, opening, called, colon, rfl, hopens, hcalled, hstop, hcolon⟩ :=
    h _ _ _ rfl
  rw [hname] at hcalled
  rw [List.append_assoc] at htokens
  obtain ⟨before, rest, hsource, hscan⟩ := scan_split front htokens
  obtain ⟨gap₀, body₀, rest, rfl, hgap₀, hstart₀, hstop₀, hcovers₀, hscan⟩ :=
    scan_next hscan fun _ => nofun
  obtain ⟨gap₁, body₁, rest, rfl, hgap₁, hstart₁, hstop₁, hcovers₁, hscan⟩ :=
    scan_next hscan fun _ => nofun
  obtain ⟨gap₂, body₂, rest, rfl, hgap₂, hstart₂, hstop₂, hcovers₂, hscan⟩ :=
    scan_next hscan fun _ => nofun
  obtain ⟨gap₃, body₃, rest, rfl, hgap₃, hstart₃, hstop₃, hcovers₃, -⟩ :=
    scan_next hscan fun hlast => hlast.elim
  obtain ⟨c, rfl, hc⟩ := hopens.covers hcovers₀
  rw [hcalled] at hcovers₁
  rw [hcolon] at hcovers₂
  obtain ⟨raw, rfl, hraw⟩ := hcovers₁
  obtain ⟨sign, rfl, hsign⟩ := hcovers₂
  obtain ⟨raw', rfl, hraw'⟩ := hcovers₃
  have hcolon : sign = ':' := by
    rw [mark?] at hsign
    split_ifs at hsign <;> first | assumption | cases hsign
  subst hcolon
  refine ⟨before ++ (gap₀ ++ c :: gap₁), raw, gap₂, gap₃, raw', rest, by simp [hsource], ?_, hgap₂,
    hgap₃, hraw, hraw', ?_⟩
  · have hne : c :: gap₁ ≠ [] := List.cons_ne_nil c gap₁
    rw [← List.append_assoc, List.getLast?_append, List.getLast?_eq_some_getLast hne]
    intro hlast
    have hmem := List.getLast_mem hne
    rw [Option.some.inj hlast] at hmem
    rcases List.mem_cons.1 hmem with rfl | hmem
    · exact hc rfl
    · exact absurd (hgap₁ 'd' hmem) (by decide)
  · have hquote : '"'.utf8Size = 1 := rfl
    have hsize : ':'.utf8Size = 1 := rfl
    simp only [Text.byteLength_cons, Text.byteLength_append, Text.byteLength_nil, hquote, hsize]
      at hstart₀ hstop₀ hstart₁ hstop₁ hstart₂ hstop₂ hstart₃ hstop₃ ⊢
    omega

end Json

end PiBlocks
