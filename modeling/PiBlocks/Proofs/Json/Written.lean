import PiBlocks.Proofs.Json.Numeral
import Mathlib.Tactic.SplitIfs

/-!
# Written values

What is written of a value is read as that value (`Document.parse_chars`) : the located value of
the text `Shows` it. So a value whose numbers read back is what its text is parsed to, in either
layout (`parse_compact`, `parse_pretty`), and a reader that only skips has nothing to complain
about (`Node.Shows.skip`).

The text is taken in the way it is put together. `Builder.build` takes characters to a document,
and each piece of the text takes the builder one step further, whatever follows ; for values,
items and members this is one induction (`build_chars`). Only a number has to see what follows,
and behind a value there is always space, a comma, a closing bracket or the end (`Delimited`).
-/

namespace PiBlocks

namespace Json

/-! ## Values that are shown -/

mutual

/-- A located value has this value. A number whose text does not read back may be any number, and
the null value. -/
inductive Node.Shows : Node → Json → Prop where
  | null {start stop} : Shows (.null start stop) .null
  | bool {value start stop} : Shows (.bool value start stop) (.bool value)
  | number {value : Except JsonError Number} {number : Number} {start stop}
      (h : number.ReadsBack → value = .ok number) :
      Shows (.number value start stop) (.number number)
  | unwritten {number : Number} {start stop} (h : ¬number.ReadsBack) :
      Shows (.null start stop) (.number number)
  | text {value start stop} : Shows (.text (.ok value) start stop) (.text value)
  | list {start stop items values} (h : ShowItems items values) :
      Shows (.list start items (.closed stop)) (.list values)
  | object {start stop members values} (h : ShowMembers members values) :
      Shows (.object start members (.closed stop)) (.object values)

/-- Located items have these values, one by one. -/
inductive Node.ShowItems : List Node → List Json → Prop where
  | nil : ShowItems [] []
  | cons {node value nodes values} (h : Node.Shows node value) (hs : ShowItems nodes values) :
      ShowItems (node :: nodes) (value :: values)

/-- Located members have these names and values, one by one. -/
inductive Node.ShowMembers : List (Key × Node) → List (String × Json) → Prop where
  | nil : ShowMembers [] []
  | cons {key : Key} {name node value members values} (hname : key.name = .ok name)
      (h : Node.Shows node value) (hs : ShowMembers members values) :
      ShowMembers ((key, node) :: members) ((name, value) :: values)

end

/-! ## Strings -/

theorem hexDigit?_digitChar : ∀ digit < 16,
    hexDigit? digit.digitChar = some digit ∧ digit.digitChar.utf8Size = 1 := by
  decide

/-- A control character escaped by its number. -/
theorem scanFrom_code {c : Char} (h : c.toNat < 32) (cs : List Char) (start here : Nat)
    (rest : List Char) : scanFrom (.text start ⟨cs, none⟩ (.plain none)) here
        ('\\' :: 'u' :: '0' :: '0' :: (hexDigits c.toNat ++ rest)) =
      scanFrom (.text start ⟨c :: cs, none⟩ (.plain none)) (here + 6) rest := by
  obtain ⟨hhigh, hsize⟩ := hexDigit?_digitChar (c.toNat / 16) (by omega)
  obtain ⟨hlow, hsize'⟩ := hexDigit?_digitChar (c.toNat % 16) (by omega)
  have hnumber : c.toNat / 16 * 16 + c.toNat % 16 = c.toNat := by omega
  have hcode (past : Nat) :
      (⟨cs, none⟩ : Quotation).code none c.toNat past = (⟨c :: cs, none⟩, none) := by
    simp only [Quotation.code, if_neg (show ¬(0xDC00 ≤ c.toNat ∧ c.toNat ≤ 0xDFFF) by omega),
      if_neg (show ¬(0xD800 ≤ c.toNat ∧ c.toNat ≤ 0xDBFF) by omega), Quotation.push,
      Char.ofNat_toNat]
  have hstart : scanFrom (.text start ⟨cs, none⟩ (.plain none)) here
      ('\\' :: 'u' :: '0' :: '0' :: (hexDigits c.toNat ++ rest)) =
        scanFrom (.text start ⟨cs, none⟩ (.code none 2 (some 0))) (here + 4)
          (hexDigits c.toNat ++ rest) := rfl
  rw [hstart]
  simp [hexDigits, scanFrom, Scan.step, stepText, hhigh, hlow, hsize, hsize', hnumber, hcode]

/-- A character of a string, written as it is or escaped. -/
theorem scanFrom_escape (c : Char) (cs : List Char) (start here : Nat) : ∃ stop, ∀ rest,
    scanFrom (.text start ⟨cs, none⟩ (.plain none)) here (escape c ++ rest) =
      scanFrom (.text start ⟨c :: cs, none⟩ (.plain none)) stop rest := by
  unfold escape
  split_ifs with hquote hslash hline hreturn htab hback hfeed hcontrol
  · subst hquote; exact ⟨here + 2, fun rest => rfl⟩
  · subst hslash; exact ⟨here + 2, fun rest => rfl⟩
  · subst hline; exact ⟨here + 2, fun rest => rfl⟩
  · subst hreturn; exact ⟨here + 2, fun rest => rfl⟩
  · subst htab; exact ⟨here + 2, fun rest => rfl⟩
  · obtain rfl : c = '\x08' := Char.toNat_inj.1 hback
    exact ⟨here + 2, fun rest => rfl⟩
  · obtain rfl : c = '\x0c' := Char.toNat_inj.1 hfeed
    exact ⟨here + 2, fun rest => rfl⟩
  · exact ⟨here + 6, scanFrom_code hcontrol cs start here⟩
  · refine ⟨here + c.utf8Size, fun rest => ?_⟩
    simp [scanFrom, Scan.step, stepText, hslash, hquote, hcontrol, Quotation.noteOpen,
      Quotation.push]

theorem scanFrom_escapes (start : Nat) : ∀ (string cs : List Char) (here : Nat), ∃ stop, ∀ rest,
    scanFrom (.text start ⟨cs, none⟩ (.plain none)) here (string.flatMap escape ++ rest) =
      scanFrom (.text start ⟨string.reverse ++ cs, none⟩ (.plain none)) stop rest
  | [], _, here => ⟨here, fun _ => rfl⟩
  | c :: string, cs, here => by
    obtain ⟨middle, hfirst⟩ := scanFrom_escape c cs start here
    obtain ⟨stop, hmore⟩ := scanFrom_escapes start string (c :: cs) middle
    refine ⟨stop, fun rest => ?_⟩
    rw [List.flatMap_cons, List.append_assoc, hfirst, hmore, List.reverse_cons, List.append_assoc]
    rfl

/-- A string in quotes is one token. -/
theorem scanFrom_quote (string : String) (here : Nat) : ∃ stop, ∀ rest,
    scanFrom .between here (quote string ++ rest) =
      ⟨here, stop, .text (.ok string)⟩ :: scanFrom .between stop rest := by
  obtain ⟨stop, hscan⟩ := scanFrom_escapes here string.toList [] (here + 1)
  refine ⟨stop + 1, fun rest => ?_⟩
  have hend : scanFrom (.text here ⟨string.toList.reverse ++ [], none⟩ (.plain none)) stop
      ('"' :: rest) =
        ⟨here, stop + 1, .text (.ok string)⟩ :: scanFrom .between (stop + 1) rest := by
    rw [List.append_nil, scanFrom, Scan.step, stepText, if_neg (by decide)]
    simp [Quotation.noteOpen, Quotation.value]
    rfl
  rw [quote, List.cons_append, List.append_assoc, ← hend, List.singleton_append, ← hscan]
  rfl

/-! ## Pieces of a text -/

/-- Nothing but space. -/
def IsGap (gap : List Char) : Prop := ∀ c ∈ gap, isGap c = true

theorem Delimited.gap {gap rest : List Char} (h : IsGap gap) (hrest : Delimited rest) :
    Delimited (gap ++ rest) := by
  cases gap with
  | nil => exact hrest
  | cons c gap => exact .inl (h c List.mem_cons_self)

theorem delimited_itemChars {layout : Layout} (depth : Nat) (items : List Json) {rest : List Char}
    (h : Delimited rest) : Delimited (itemChars layout depth items ++ rest) := by
  cases items with
  | nil => rwa [itemChars]
  | cons item items => exact .inr (.inl rfl)

theorem delimited_memberChars {layout : Layout} (depth : Nat) (members : List (String × Json))
    {rest : List Char} (h : Delimited rest) :
    Delimited (memberChars layout depth members ++ rest) := by
  cases members with
  | nil => rwa [memberChars]
  | cons member members => exact .inr (.inl rfl)

namespace Builder

/-- The document built from characters. -/
def build (builder : Builder) (here : Nat) (cs : List Char) : Document :=
  builder.run (scanFrom .between here cs)

/-- A token takes the builder a step further. -/
theorem build_token {builder : Builder} {here stop : Nat} {lexeme : Lexeme} {cs rest : List Char}
    (h : scanFrom .between here cs = ⟨here, stop, lexeme⟩ :: scanFrom .between stop rest) :
    builder.build here cs = (builder.step ⟨here, stop, lexeme⟩).build stop rest := by
  rw [build, h]
  rfl

theorem build_gap : ∀ {gap : List Char}, IsGap gap → ∀ here, ∃ stop, ∀ (builder : Builder) rest,
    builder.build here (gap ++ rest) = builder.build stop rest
  | [], _, here => ⟨here, fun _ _ => rfl⟩
  | c :: gap, h, here => by
    obtain ⟨stop, hstop⟩ := build_gap (fun d hd => h d (List.mem_cons_of_mem c hd))
      (here + c.utf8Size)
    have hbegin : begin here c = ([], .between) := by
      rw [begin, if_pos (h c List.mem_cons_self)]
    refine ⟨stop, fun builder rest => ?_⟩
    rw [← hstop, build, List.cons_append, scanFrom, Scan.step, hbegin]
    rfl

/-- A value is due, in these lists and objects. -/
inductive Awaits : Builder → List Waiting → Prop where
  | value {stack} : Awaits (.value stack) stack
  | firstItem {start stack} : Awaits (.firstItem start stack) (.list start [] :: stack)
  | nextItem {start items stack} : Awaits (.nextItem start items stack) (.list start items :: stack)

theorem Awaits.step {builder : Builder} {stack : List Waiting} (h : builder.Awaits stack)
    {token : Token} (hfinish : token.lexeme ≠ .finish) (hclose : token.lexeme ≠ .mark .closeList) :
    builder.step token = takeValue token stack := by
  obtain ⟨start, stop, lexeme⟩ := token
  cases h <;> cases lexeme <;> first | rfl | exact absurd rfl hfinish | skip
  all_goals rename_i mark; cases mark <;> first | rfl | exact absurd rfl hclose

/-- A token that begins a value, or is one. -/
theorem Awaits.build {builder : Builder} {stack : List Waiting} (h : builder.Awaits stack)
    {here : Nat} {cs rest : List Char} (stop : Nat) (lexeme : Lexeme)
    (hscan : scanFrom .between here cs = ⟨here, stop, lexeme⟩ :: scanFrom .between stop rest)
    (hfinish : lexeme ≠ .finish) (hclose : lexeme ≠ .mark .closeList) :
    builder.build here cs = (takeValue ⟨here, stop, lexeme⟩ stack).build stop rest := by
  rw [build_token hscan, h.step hfinish hclose]

/-- A name is due, in an object and behind its members. -/
inductive AwaitsName : Builder → Nat → List (Key × Node) → Nat → List Waiting → Prop where
  | first {start stack} : AwaitsName (.firstName start stack) start [] 0 stack
  | next {start members comma stack} :
      AwaitsName (.nextName start members comma stack) start members comma stack

/-- A name and the colon and space behind it. -/
theorem build_name {gap : List Char} (hgap : IsGap gap) (name : String) (comma here : Nat) :
    ∃ key : Key, key.name = .ok name ∧ ∃ stop, ∀ (builder : Builder) start members stack rest,
      builder.AwaitsName start members comma stack →
        builder.build here (quote name ++ ':' :: (gap ++ rest)) =
          (Builder.value (.member start members key :: stack)).build stop rest := by
  obtain ⟨middle, hname⟩ := scanFrom_quote name here
  obtain ⟨stop, hstop⟩ := build_gap hgap (middle + 1)
  refine ⟨⟨.ok name, middle, middle, comma⟩, rfl, stop,
    fun builder start members stack rest h => ?_⟩
  have hstep : builder.step ⟨here, middle, .text (.ok name)⟩ =
      .colon start members (.ok name) middle comma stack := by
    cases h <;> rfl
  rw [build_token (hname _), hstep, ← hstop]
  rfl

end Builder

/-! ## Values -/

/-- Only space goes between the tokens. -/
structure Layout.IsSpace (layout : Layout) : Prop where
  afterColon : IsGap layout.afterColon
  breakAt : ∀ depth, IsGap (layout.breakAt depth)

theorem Layout.isSpace_compact : Layout.compact.IsSpace :=
  ⟨by simp [IsGap, compact], by simp [IsGap, compact]⟩

theorem Layout.isSpace_pretty : Layout.pretty.IsSpace := by
  refine ⟨by simp [IsGap, pretty, Json.isGap], fun depth c hc => ?_⟩
  rcases List.mem_cons.1 hc with rfl | hc
  · rfl
  · rw [List.eq_of_mem_replicate hc]
    rfl

section

variable {layout : Layout} (h : layout.IsSpace)
include h

mutual

/-- What is written of a value delivers a value that shows it. -/
theorem build_chars : ∀ (value : Json) (depth here : Nat), ∃ node stop, Node.Shows node value ∧
    ∀ {builder : Builder} {stack : List Waiting} {rest : List Char}, builder.Awaits stack →
      Delimited rest → builder.build here (chars layout depth value ++ rest) =
        (Builder.deliver node stack).build stop rest
  | .null, _, here => ⟨.null here (here + 4), here + 4, .null, fun hdue _ =>
    hdue.build (here + 4) .null rfl nofun nofun⟩
  | .bool true, _, here => ⟨.bool true here (here + 4), here + 4, .bool, fun hdue _ =>
    hdue.build (here + 4) (.bool true) rfl nofun nofun⟩
  | .bool false, _, here => ⟨.bool false here (here + 5), here + 5, .bool, fun hdue _ =>
    hdue.build (here + 5) (.bool false) rfl nofun nofun⟩
  | .number n, _, here => by
    obtain ⟨stop, lexeme, hscan, ⟨value, rfl, hvalue⟩ | ⟨rfl, hback⟩⟩ := scanFrom_number n here
    · refine ⟨.number value here stop, stop, .number hvalue, fun hdue hrest => ?_⟩
      rw [chars, hdue.build stop _ (hscan _ hrest) nofun nofun]
      rfl
    · refine ⟨.null here stop, stop, .unwritten hback, fun hdue hrest => ?_⟩
      rw [chars, hdue.build stop _ (hscan _ hrest) nofun nofun]
      rfl
  | .text string, _, here => by
    obtain ⟨stop, hscan⟩ := scanFrom_quote string here
    refine ⟨.text (.ok string) here stop, stop, .text, fun hdue _ => ?_⟩
    rw [chars, hdue.build stop _ (hscan _) nofun nofun]
    rfl
  | .list [], _, here => ⟨.list here [] (.closed (here + 2)), here + 2, .list .nil, fun hdue _ =>
    (hdue.build (here + 1) (.mark .openList) rfl nofun nofun).trans rfl⟩
  | .list (item :: items), depth, here => by
    obtain ⟨first, hfirst⟩ := Builder.build_gap (h.breakAt (depth + 1)) (here + 1)
    obtain ⟨node, second, hnode, hitem⟩ := build_chars item (depth + 1) first
    obtain ⟨nodes, third, hnodes, hitems⟩ := build_itemChars items (depth + 1) second
    obtain ⟨fourth, hfourth⟩ := Builder.build_gap (h.breakAt depth) third
    refine ⟨.list here (node :: nodes) (.closed (fourth + 1)), fourth + 1,
      .list (.cons hnode hnodes), fun {builder stack rest} hdue hrest => ?_⟩
    have hend : Delimited (layout.breakAt depth ++ ']' :: rest) :=
      .gap (h.breakAt depth) (.inr (.inr (.inl rfl)))
    have hnodes : (nodes.reverse ++ [node]).reverse = node :: nodes := by simp
    simp only [chars, List.append_assoc, List.cons_append, List.nil_append]
    calc builder.build here ('[' :: _)
        = (Builder.firstItem here stack).build (here + 1) _ :=
          hdue.build (here + 1) (.mark .openList) rfl nofun nofun
      _ = (Builder.itemEnd here [node] stack).build second _ := by
          rw [hfirst, hitem .firstItem (delimited_itemChars (depth + 1) items hend)]; rfl
      _ = (Builder.itemEnd here (nodes.reverse ++ [node]) stack).build fourth (']' :: rest) := by
          rw [hitems hend, hfourth]
      _ = (Builder.deliver (.list here (nodes.reverse ++ [node]).reverse (.closed (fourth + 1)))
            stack).build (fourth + 1) rest := rfl
      _ = _ := by rw [hnodes]
  | .object [], _, here => ⟨.object here [] (.closed (here + 2)), here + 2, .object .nil,
    fun hdue _ => (hdue.build (here + 1) (.mark .openObject) rfl nofun nofun).trans rfl⟩
  | .object ((name, value) :: members), depth, here => by
    obtain ⟨first, hfirst⟩ := Builder.build_gap (h.breakAt (depth + 1)) (here + 1)
    obtain ⟨key, hkey, second, hname⟩ := Builder.build_name h.afterColon name 0 first
    obtain ⟨node, third, hnode, hvalue⟩ := build_chars value (depth + 1) second
    obtain ⟨nodes, fourth, hnodes, hmembers⟩ := build_memberChars members (depth + 1) third
    obtain ⟨fifth, hfifth⟩ := Builder.build_gap (h.breakAt depth) fourth
    refine ⟨.object here ((key, node) :: nodes) (.closed (fifth + 1)), fifth + 1,
      .object (.cons hkey hnode hnodes), fun {builder stack rest} hdue hrest => ?_⟩
    have hend : Delimited (layout.breakAt depth ++ '}' :: rest) :=
      .gap (h.breakAt depth) (.inr (.inr (.inr rfl)))
    have hnodes : (nodes.reverse ++ [(key, node)]).reverse = (key, node) :: nodes := by simp
    simp only [chars, List.append_assoc, List.cons_append, List.nil_append]
    calc builder.build here ('{' :: _)
        = (Builder.firstName here stack).build (here + 1) _ :=
          hdue.build (here + 1) (.mark .openObject) rfl nofun nofun
      _ = (Builder.memberEnd here [(key, node)] stack).build third _ := by
          rw [hfirst, hname _ _ _ _ _ .first,
            hvalue .value (delimited_memberChars (depth + 1) members hend)]; rfl
      _ = (Builder.memberEnd here (nodes.reverse ++ [(key, node)]) stack).build fifth
            ('}' :: rest) := by rw [hmembers hend, hfifth]
      _ = (Builder.deliver (.object here (nodes.reverse ++ [(key, node)]).reverse
            (.closed (fifth + 1))) stack).build (fifth + 1) rest := rfl
      _ = _ := by rw [hnodes]

theorem build_itemChars : ∀ (items : List Json) (depth here : Nat), ∃ nodes stop,
    Node.ShowItems nodes items ∧ ∀ {start front stack} {rest : List Char}, Delimited rest →
      (Builder.itemEnd start front stack).build here (itemChars layout depth items ++ rest) =
        (Builder.itemEnd start (nodes.reverse ++ front) stack).build stop rest
  | [], _, here => ⟨[], here, .nil, fun _ => rfl⟩
  | item :: items, depth, here => by
    obtain ⟨first, hfirst⟩ := Builder.build_gap (h.breakAt depth) (here + 1)
    obtain ⟨node, second, hnode, hitem⟩ := build_chars item depth first
    obtain ⟨nodes, stop, hnodes, hitems⟩ := build_itemChars items depth second
    refine ⟨node :: nodes, stop, .cons hnode hnodes, fun {start front stack rest} hrest => ?_⟩
    simp only [itemChars, List.append_assoc, List.cons_append]
    calc (Builder.itemEnd start front stack).build here (',' :: _)
        = (Builder.nextItem start front stack).build (here + 1) _ := rfl
      _ = (Builder.itemEnd start (node :: front) stack).build second _ := by
          rw [hfirst, hitem .nextItem (delimited_itemChars depth items hrest)]; rfl
      _ = (Builder.itemEnd start (nodes.reverse ++ node :: front) stack).build stop rest :=
          hitems hrest
      _ = _ := by rw [List.reverse_cons, List.append_assoc]; rfl

theorem build_memberChars : ∀ (members : List (String × Json)) (depth here : Nat), ∃ nodes stop,
    Node.ShowMembers nodes members ∧ ∀ {start front stack} {rest : List Char}, Delimited rest →
      (Builder.memberEnd start front stack).build here (memberChars layout depth members ++ rest) =
        (Builder.memberEnd start (nodes.reverse ++ front) stack).build stop rest
  | [], _, here => ⟨[], here, .nil, fun _ => rfl⟩
  | (name, value) :: members, depth, here => by
    obtain ⟨first, hfirst⟩ := Builder.build_gap (h.breakAt depth) (here + 1)
    obtain ⟨key, hkey, second, hname⟩ := Builder.build_name h.afterColon name here first
    obtain ⟨node, third, hnode, hvalue⟩ := build_chars value depth second
    obtain ⟨nodes, stop, hnodes, hmembers⟩ := build_memberChars members depth third
    refine ⟨(key, node) :: nodes, stop, .cons hkey hnode hnodes,
      fun {start front stack rest} hrest => ?_⟩
    simp only [memberChars, List.append_assoc, List.cons_append]
    calc (Builder.memberEnd start front stack).build here (',' :: _)
        = (Builder.nextName start front here stack).build (here + 1) _ := rfl
      _ = (Builder.memberEnd start ((key, node) :: front) stack).build third _ := by
          rw [hfirst, hname _ _ _ _ _ .next,
            hvalue .value (delimited_memberChars depth members hrest)]; rfl
      _ = (Builder.memberEnd start (nodes.reverse ++ (key, node) :: front) stack).build stop rest :=
          hmembers hrest
      _ = _ := by rw [List.reverse_cons, List.append_assoc]; rfl

end

end

/-- The text of a value holds one value, which shows it, and nothing else. -/
theorem Document.parse_chars {layout : Layout} (h : layout.IsSpace) (value : Json) : ∃ node,
    Document.parse (String.ofList (chars layout 0 value)) = ⟨node, none⟩ ∧ node.Shows value := by
  obtain ⟨node, stop, hshows, hbuild⟩ := build_chars h value 0 0
  refine ⟨node, ?_, hshows⟩
  have hall : Document.parse (String.ofList (chars layout 0 value)) =
      (Builder.value []).build 0 (chars layout 0 value ++ []) := by
    rw [Document.parse, scan, String.toList_ofList, List.append_nil]
    rfl
  rw [hall, hbuild .value (show Delimited [] from trivial)]
  rfl

/-! ## Values of shown values -/

mutual

/-- Every number in the value reads back. -/
def ReadsBack : Json → Prop
  | .null | .bool _ | .text _ => True
  | .number n => n.ReadsBack
  | .list items => ItemsReadBack items
  | .object members => MembersReadBack members

/-- Every number in the items reads back. -/
def ItemsReadBack : List Json → Prop
  | [] => True
  | item :: items => item.ReadsBack ∧ ItemsReadBack items

/-- Every number in the values of the members reads back. -/
def MembersReadBack : List (String × Json) → Prop
  | [] => True
  | (_, value) :: members => value.ReadsBack ∧ MembersReadBack members

end

namespace Node

mutual

theorem Shows.toJson : ∀ {node : Node} {value : Json}, node.Shows value → value.ReadsBack →
    node.toJson = .ok value
  | _, _, .null, _ | _, _, .bool, _ | _, _, .text, _ => rfl
  | _, _, .number h, hback => by
    rw [h hback]
    rfl
  | _, _, .unwritten h, hback => absurd hback h
  | _, _, .list h, hback => by
    rw [Node.toJson, h.toJson hback]
    rfl
  | _, _, .object h, hback => by
    rw [Node.toJson, h.toJson hback]
    rfl

theorem ShowItems.toJson {stop : Nat} : ∀ {nodes : List Node} {values : List Json},
    ShowItems nodes values → ItemsReadBack values → itemsToJson nodes (.closed stop) = .ok values
  | _, _, .nil, _ => rfl
  | _, _, .cons h hs, hback => by
    rw [itemsToJson, h.toJson hback.1, hs.toJson hback.2]
    rfl

theorem ShowMembers.toJson {stop : Nat} : ∀ {nodes : List (Key × Node)}
    {values : List (String × Json)}, ShowMembers nodes values → MembersReadBack values →
      membersToJson nodes (.closed stop) = .ok values
  | _, _, .nil, _ => rfl
  | _, _, .cons hname h hs, hback => by
    rw [membersToJson, hname, h.toJson hback.1, hs.toJson hback.2]
    rfl

end

mutual

theorem Shows.skip : ∀ {node : Node} {value : Json}, node.Shows value → node.skip = .ok ()
  | _, _, .null | _, _, .bool | _, _, .text | _, _, .number _ | _, _, .unwritten _ => rfl
  | _, _, .list h => h.skip
  | _, _, .object h => h.skip

theorem ShowItems.skip {stop : Nat} : ∀ {nodes : List Node} {values : List Json},
    ShowItems nodes values → skipItems nodes (.closed stop) = .ok ()
  | _, _, .nil => rfl
  | _, _, .cons h hs => by
    rw [skipItems, h.skip]
    exact hs.skip

theorem ShowMembers.skip {stop : Nat} : ∀ {nodes : List (Key × Node)}
    {values : List (String × Json)}, ShowMembers nodes values →
      skipMembers nodes (.closed stop) = .ok ()
  | _, _, .nil => rfl
  | _, _, .cons _ h hs => by
    rw [skipMembers, h.skip]
    exact hs.skip

end

end Node

theorem parse_chars {layout : Layout} (h : layout.IsSpace) {value : Json}
    (hback : value.ReadsBack) : parse (String.ofList (chars layout 0 value)) = .ok value := by
  obtain ⟨node, hparse, hshows⟩ := Document.parse_chars h value
  rw [parse, hparse, Document.read, hshows.toJson hback]
  rfl

/-- A value whose numbers read back is what its text is parsed to. -/
theorem parse_compact {value : Json} (h : value.ReadsBack) : parse value.compact = .ok value :=
  parse_chars Layout.isSpace_compact h

/-- So is one that is laid out over lines. -/
theorem parse_pretty {value : Json} (h : value.ReadsBack) : parse value.pretty = .ok value :=
  parse_chars Layout.isSpace_pretty h

/-! ## Depth -/

mutual

/-- How many lists and objects of a value are nested in each other at most. -/
def depth : Json → Nat
  | .list items => itemsDepth items + 1
  | .object members => membersDepth members + 1
  | _ => 0

/-- The largest depth among the items. -/
def itemsDepth : List Json → Nat
  | [] => 0
  | item :: items => max (depth item) (itemsDepth items)

/-- The largest depth among the values of the members. -/
def membersDepth : List (String × Json) → Nat
  | [] => 0
  | (_, value) :: members => max (depth value) (membersDepth members)

end

theorem membersDepth_append : ∀ members more : List (String × Json),
    membersDepth (members ++ more) = max (membersDepth members) (membersDepth more)
  | [], more => (Nat.zero_max _).symm
  | (_, value) :: members, more => by
    rw [List.cons_append, membersDepth, membersDepth_append members more, membersDepth,
      Nat.max_assoc]

namespace Node

mutual

theorem Shows.depth_eq : ∀ {node : Node} {value : Json}, node.Shows value → node.depth = value.depth
  | _, _, .null | _, _, .bool | _, _, .text | _, _, .number _ | _, _, .unwritten _ => rfl
  | _, _, .list h => congrArg (· + 1) h.depth_eq
  | _, _, .object h => congrArg (· + 1) h.depth_eq

theorem ShowItems.depth_eq : ∀ {nodes : List Node} {values : List Json}, ShowItems nodes values →
    itemsDepth nodes = Json.itemsDepth values
  | _, _, .nil => rfl
  | _, _, .cons h hs => by rw [itemsDepth, Json.itemsDepth, h.depth_eq, hs.depth_eq]

theorem ShowMembers.depth_eq : ∀ {nodes : List (Key × Node)} {values : List (String × Json)},
    ShowMembers nodes values → membersDepth nodes = Json.membersDepth values
  | _, _, .nil => rfl
  | _, _, .cons _ h hs => by rw [membersDepth, Json.membersDepth, h.depth_eq, hs.depth_eq]

end

end Node

end Json

end PiBlocks
