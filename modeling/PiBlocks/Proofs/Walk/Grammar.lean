import PiBlocks.Identifier
import PiBlocks.Program.Render
import Mathlib.Tactic.Common
import Mathlib.Tactic.SplitIfs

/-!
# The grammar of the calculus

What a program of the calculus looks like as text. A piece is a prefix, a guard, a call, the end or
a bracketed join ; a sequence is made of pieces with full stops between them, and a join of two or
more sequences with one of two separators between them (`Grammar.Piece`, `Grammar.Sequence`,
`Grammar.Join`). A line of the program is a sequence or a join, and a definition has one behind its
name and parameters (`Line.IsWord`).

The grammar is one of strings, without regard to how a text is read : where a sequence goes on with
a join, the whole is a join whose first sequence has become longer (`Grammar.Join.prepend`). The
pieces that the walk puts together are words again, and a word is never blank, so the tests for
blanks in the walk tell apart whether there is a word or nothing.
-/

namespace PiBlocks

namespace Identifier

/-- Whether a text is an identifier : letters, digits and underscores, and no digit in front. -/
def isWord (text : String) : Bool :=
  match text.toList with
  | [] => false
  | c :: rest => isPart c && !c.isDigit && rest.all isPart

/-- Whether a text is an identifier or empty. -/
def isOptional (text : String) : Bool := text.isEmpty || isWord text

theorem eq_empty_or_of_isOptional {text : String} (h : isOptional text = true) :
    text = "" ∨ isWord text = true := by
  simpa [isOptional] using h

theorem isWord_of_isOptional {text : String} (h : isOptional text = true) (hne : text ≠ "") :
    isWord text = true :=
  (eq_empty_or_of_isOptional h).resolve_left hne

theorem isSpace_of_isPart {c : Char} (h : isPart c = true) : Text.isSpace c = false := by
  have hrange : 48 ≤ c.toNat ∧ c.toNat ≤ 122 := by
    have hcases : (decide (c.val ≥ 'A'.val ∧ c.val ≤ 'Z'.val) ||
        (decide (c.val ≥ 'a'.val) && decide (c.val ≤ 'z'.val)) ||
        (decide (c.val ≥ '0'.val) && decide (c.val ≤ '9'.val)) || decide (c = '_')) = true := h
    simp only [Bool.or_eq_true, Bool.and_eq_true, decide_eq_true_eq, ge_iff_le,
      UInt32.le_iff_toNat_le] at hcases
    rcases hcases with ((h | h) | h) | rfl
    · exact ⟨Nat.le_trans (by decide) h.1, Nat.le_trans h.2 (by decide)⟩
    · exact ⟨Nat.le_trans (by decide) h.1, Nat.le_trans h.2 (by decide)⟩
    · exact ⟨Nat.le_trans (by decide) h.1, Nat.le_trans h.2 (by decide)⟩
    · decide
  simp only [Text.isSpace, Bool.or_eq_false_iff, Bool.and_eq_false_iff, decide_eq_false_iff_not,
    beq_eq_false_iff_ne]
  omega

theorem isBlank_of_isWord {text : String} (h : isWord text = true) : Text.isBlank text = false := by
  rw [isWord] at h
  rw [Text.isBlank]
  cases htext : text.toList with
  | nil => simp [htext] at h
  | cons c rest =>
    simp only [htext, Bool.and_eq_true] at h
    simp [isSpace_of_isPart h.1.1]

end Identifier

namespace Grammar

open Identifier

/-- What stands between the sequences of a join. -/
def separators : List String := [" | ", " + "]

/-- The comparisons of a guard. -/
def comparisons : List String := ["=", "!="]

mutual

/-- One step of a process. -/
inductive Piece : String → Prop
  | send {channel message : String} (hchannel : isWord channel = true)
      (hmessage : isWord message = true) : Piece (channel ++ "'<" ++ message ++ ">")
  | receive {channel name : String} (hchannel : isWord channel = true)
      (hname : isWord name = true) : Piece (channel ++ "(" ++ name ++ ")")
  | restrict {name : String} (hname : isWord name = true) : Piece ("$" ++ name)
  | termination : Piece "0"
  | guard {left operator right : String} (hleft : isWord left = true)
      (hoperator : operator ∈ comparisons) (hright : isWord right = true) :
      Piece ("[" ++ left ++ operator ++ right ++ "]")
  | guarded {left operator right body : String} (hleft : isWord left = true)
      (hoperator : operator ∈ comparisons) (hright : isWord right = true)
      (hbody : Sequence body) :
      Piece ("[" ++ left ++ operator ++ right ++ "]" ++ " " ++ body)
  | call {name : String} (hname : isWord name = true) : Piece name
  | callWith {name : String} {args : List String} (hname : isWord name = true) (hne : args ≠ [])
      (hargs : ∀ arg ∈ args, isOptional arg = true) :
      Piece (name ++ "(" ++ Text.join ", " args ++ ")")
  | brackets {separator text : String} (hjoin : Join separator text) : Piece ("(" ++ text ++ ")")

/-- Pieces one after the other. -/
inductive Sequence : String → Prop
  | piece {text : String} (h : Piece text) : Sequence text
  | cons {first rest : String} (hfirst : Piece first) (hrest : Sequence rest) :
      Sequence (first ++ ". " ++ rest)

/-- Two or more sequences with a separator between them. -/
inductive Join : String → String → Prop
  | pair {separator first second : String} (hseparator : separator ∈ separators)
      (hfirst : Sequence first) (hsecond : Sequence second) :
      Join separator (first ++ separator ++ second)
  | cons {separator first rest : String} (hfirst : Sequence first) (hrest : Join separator rest) :
      Join separator (first ++ separator ++ rest)

end

/-- What a program or the right side of a definition looks like. -/
def Body (text : String) : Prop := Sequence text ∨ ∃ separator, Join separator text

/-- What a definition looks like. -/
inductive Definition : String → Prop
  | plain {name body : String} (hname : isWord name = true) (hbody : Body body) :
      Definition (name ++ " = " ++ body)
  | withParams {name body : String} {params : List String} (hname : isWord name = true)
      (hne : params ≠ []) (hparams : ∀ param ∈ params, isWord param = true) (hbody : Body body) :
      Definition (name ++ "(" ++ Text.join ", " params ++ ") = " ++ body)

end Grammar

/-- A line has the form that its kind asks for. -/
def Line.IsWord (line : Line) : Prop :=
  match line.kind with
  | .definition => Grammar.Definition line.text
  | .program => Grammar.Body line.text

namespace Grammar

open Identifier

variable {text first rest separator : String}

/-! ## Words are not blank -/

theorem Piece.not_blank (h : Piece text) : Text.isBlank text = false := by
  cases h with
  | send hchannel _ => simp [Text.isBlank_append, isBlank_of_isWord hchannel]
  | receive hchannel _ => simp [Text.isBlank_append, isBlank_of_isWord hchannel]
  | restrict hname => simp [Text.isBlank_append, isBlank_of_isWord hname]
  | termination => rfl
  | guard hleft _ _ => simp [Text.isBlank_append, isBlank_of_isWord hleft]
  | guarded hleft _ _ _ => simp [Text.isBlank_append, isBlank_of_isWord hleft]
  | call hname => exact isBlank_of_isWord hname
  | callWith hname _ _ => simp [Text.isBlank_append, isBlank_of_isWord hname]
  | brackets _ =>
    rw [Text.isBlank_append, Text.isBlank_append, show Text.isBlank "(" = false from rfl]
    rfl

theorem Sequence.not_blank (h : Sequence text) : Text.isBlank text = false := by
  cases h with
  | piece h => exact h.not_blank
  | cons hfirst _ => simp [Text.isBlank_append, hfirst.not_blank]

theorem Join.not_blank (h : Join separator text) : Text.isBlank text = false := by
  cases h with
  | pair _ hfirst _ => simp [Text.isBlank_append, hfirst.not_blank]
  | cons hfirst _ => simp [Text.isBlank_append, hfirst.not_blank]

theorem Sequence.ne_empty (h : Sequence text) : text ≠ "" :=
  Text.ne_empty_of_not_blank h.not_blank

/-! ## Words put together -/

/-- Two sequences with a full stop between them are one. -/
theorem Sequence.append : ∀ {first rest : String}, Sequence first → Sequence rest →
    Sequence (first ++ ". " ++ rest)
  | _, _, .piece h, hrest => .cons h hrest
  | _, _, .cons hfirst h, hrest => by
    simpa only [String.append_assoc] using Sequence.cons hfirst (h.append hrest)

/-- A sequence in front of a join makes its first sequence longer. -/
theorem Join.prepend (hfirst : Sequence first) (h : Join separator rest) :
    Join separator (first ++ ". " ++ rest) := by
  cases h with
  | pair hseparator hhead hsecond =>
    simpa only [String.append_assoc] using Join.pair hseparator (hfirst.append hhead) hsecond
  | cons hhead hrest =>
    simpa only [String.append_assoc] using Join.cons (hfirst.append hhead) hrest

/-- Pieces with full stops between them are a sequence. -/
theorem sequence_join : ∀ {pieces : List String}, pieces ≠ [] → (∀ piece ∈ pieces, Piece piece) →
    Sequence (Text.join ". " pieces)
  | [piece], _, h => .piece (h piece List.mem_cons_self)
  | first :: second :: pieces, _, h => by
    have hrest := sequence_join (List.cons_ne_nil second pieces)
      fun piece hp => h piece (List.mem_cons_of_mem _ hp)
    rw [Text.join_cons_cons, ← String.append_assoc]
    exact .cons (h first List.mem_cons_self) hrest

/-- Two or more sequences with a separator between them are a join. -/
theorem join_join (hseparator : separator ∈ separators) : ∀ {texts : List String},
    2 ≤ texts.length → (∀ text ∈ texts, Sequence text) → Join separator (Text.join separator texts)
  | [first, second], _, h => by
    rw [Text.join_cons_cons, ← String.append_assoc]
    exact .pair hseparator (h first (by simp)) (h second (by simp))
  | first :: second :: third :: texts, _, h => by
    have hrest : Join separator (Text.join separator (second :: third :: texts)) :=
      join_join hseparator (by simp) fun text ht => h text (List.mem_cons_of_mem _ ht)
    rw [Text.join_cons_cons, ← String.append_assoc]
    exact .cons (h first List.mem_cons_self) hrest

/-! ## What may stand in a scope -/

/-- What a chain of statements gives : nothing or a sequence, and a join where one may stand. -/
def Within (joins : Bool) (text : String) : Prop :=
  text = "" ∨ Sequence text ∨ joins = true ∧ ∃ separator, Join separator text

namespace Within

variable {joins : Bool}

theorem empty (joins : Bool) : Within joins "" := .inl rfl

theorem sequence (h : Sequence text) (joins : Bool) : Within joins text := .inr (.inl h)

theorem eq_empty_or (h : Within false text) : text = "" ∨ Sequence text := by
  rcases h with h | h | ⟨h, -⟩
  · exact .inl h
  · exact .inr h
  · cases h

theorem mono {more : Bool} (h : Within joins text) (hmore : joins = true → more = true) :
    Within more text :=
  h.imp_right (Or.imp_right (And.imp_left hmore))

theorem not_blank (h : Within joins text) (hne : text ≠ "") : Text.isBlank text = false := by
  rcases h with h | h | ⟨-, separator, h⟩
  · exact absurd h hne
  · exact h.not_blank
  · exact h.not_blank

theorem body (h : Within joins text) (hne : text ≠ "") : Body text :=
  (h.resolve_left hne).imp_right And.right

/-- A sequence in front, with a full stop if anything follows. -/
theorem prepend (hfirst : Sequence first) (h : Within joins rest) (hne : rest ≠ "") :
    Within joins (first ++ ". " ++ rest) := by
  rcases h with h | h | ⟨hjoins, separator, h⟩
  · exact absurd h hne
  · exact .sequence (hfirst.append h) joins
  · exact .inr (.inr ⟨hjoins, separator, h.prepend hfirst⟩)

end Within

/-! ## Texts that blocks put together -/

open Block

variable {name left operator right body : String}

theorem sequence_continued (h : Sequence text) (hbody : Within false body) :
    Sequence (continued text body) := by
  rw [continued]
  rcases hbody.eq_empty_or with rfl | hbody
  · exact h
  · rw [if_neg (by simpa using hbody.ne_empty)]
    exact h.append hbody

theorem piece_callText (hname : isWord name = true) {args : List String}
    (hargs : ∀ arg ∈ args, isOptional arg = true) : Piece (callText name args) := by
  by_cases hempty : Text.join ", " args = ""
  · simpa [callText, hempty] using Piece.call hname
  · have hne : args ≠ [] := by
      rintro rfl
      exact hempty rfl
    simpa [callText, hempty] using Piece.callWith hname hne hargs

theorem within_guardText (hleft : isOptional left = true) (hoperator : operator ∈ comparisons)
    (hright : isOptional right = true) (hbody : Within false body) :
    Within false (guardText left operator right body) := by
  rcases eq_empty_or_of_isOptional hleft with rfl | hleft
  · exact .empty false
  rcases eq_empty_or_of_isOptional hright with rfl | hright
  · simpa [guardText] using Within.empty false
  have hword {word : String} (h : isWord word = true) : word ≠ "" := by
    rintro rfl
    cases h
  rcases hbody.eq_empty_or with rfl | hbody
  · have hpiece := Piece.guard hleft hoperator hright
    simpa [guardText, hword hleft, hword hright] using Within.sequence (.piece hpiece) false
  · have hpiece := Piece.guarded hleft hoperator hright hbody
    simpa [guardText, hword hleft, hword hright, hbody.ne_empty] using
      Within.sequence (.piece hpiece) false

/-- A fork with as many branches as it counts. -/
theorem within_forkText (around : ScopeKind) (hseparator : separator ∈ separators)
    {texts : List String} (h : ∀ text ∈ texts, Sequence text) :
    Within around.isBody (forkText texts.length around (Text.join separator texts)) := by
  match texts, h with
  | [], _ => exact .empty _
  | [text], h => simpa [forkText] using Within.sequence (h text List.mem_cons_self) _
  | first :: second :: texts, h =>
    have hjoin := join_join hseparator (by simp) h
    cases hbody : around.isBody with
    | true => simpa [forkText, hbody] using .inr (.inr ⟨rfl, separator, hjoin⟩)
    | false => simpa [forkText, hbody] using Within.sequence (.piece (.brackets hjoin)) false

theorem definition_definitionText {joins : Bool} (hname : isOptional name = true)
    {params : List String} (hparams : ∀ param ∈ params, isWord param = true)
    (hbody : Within joins body) (hne : definitionText name params body ≠ "") :
    Definition (definitionText name params body) := by
  rw [definitionText] at hne ⊢
  split_ifs at hne ⊢ with hnothing hplain
  · exact absurd rfl hne
  all_goals
    simp only [Bool.or_eq_true, not_or, Bool.not_eq_true, String.isEmpty_iff] at hnothing
    have hname := isWord_of_isOptional hname (by simpa using hnothing.1)
    have hbody := hbody.body (by rintro rfl; cases hnothing.2)
  · exact .plain hname hbody
  · exact .withParams hname (by simpa using hplain) hparams hbody

end Grammar

end PiBlocks
