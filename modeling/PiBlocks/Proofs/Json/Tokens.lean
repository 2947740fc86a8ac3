import PiBlocks.Proofs.Json.Written
import PiBlocks.Proofs.Text.Bytes

/-!
# Tokens in their text

A token tells where it stands. Here that is said of the characters : whatever text is scanned,
each token covers a piece of it, space stands in front, and what is behind is scanned as a text of
its own (`scanFrom_between`). So any token of a text can be found again in it (`scan_split`), and
the next one behind it (`scan_next`).

A string token covers two quotes and the characters between them. What these spell (`Spells`) is
never longer, and shorter as soon as one of them is a backslash ; without backslashes it is the
characters themselves. The invariant of the scanner inside of a string is `Reading`.
-/

namespace PiBlocks

namespace Json

open Text (byteLength)

/-! ## What strings spell -/

/-- The characters between the quotes of a string and what they spell. An escape is at least as
long as what it means, apart from its backslash, and if there is a quote in it, it means one. -/
inductive Spells : List Char → List Char → Prop
  | nil : Spells [] []
  | plain {raw chars c} (h : Spells raw chars) (hquote : c ≠ '"') (hslash : c ≠ '\\') :
      Spells (raw ++ [c]) (chars ++ [c])
  | escape {raw chars more meant} (h : Spells raw chars) (hshort : meant.length ≤ more.length)
      (hquote : '"' ∈ more → '"' ∈ meant) : Spells (raw ++ '\\' :: more) (chars ++ meant)

namespace Spells

variable {raw chars : List Char} (h : Spells raw chars)
include h

theorem length_le : chars.length ≤ raw.length := by
  induction h with
  | nil => exact Nat.le_refl 0
  | plain _ _ _ ih => simpa using ih
  | escape _ hshort _ ih =>
    simp only [List.length_append, List.length_cons]
    omega

/-- What is spelled with a backslash is shorter. -/
theorem length_lt (hslash : '\\' ∈ raw) : chars.length < raw.length := by
  induction h with
  | nil => cases hslash
  | plain h _ hother ih =>
    have hraw := ih (by simpa [Ne.symm hother] using hslash)
    simpa using hraw
  | escape h hshort _ _ =>
    have hle := h.length_le
    simp only [List.length_append, List.length_cons]
    omega

/-- What is spelled without one stands there. -/
theorem eq_of_not_mem (hslash : '\\' ∉ raw) : raw = chars ∧ '"' ∉ raw := by
  induction h with
  | nil => exact ⟨rfl, List.not_mem_nil⟩
  | plain _ hquote _ ih =>
    obtain ⟨rfl, hraw⟩ := ih fun hmem => hslash (List.mem_append_left _ hmem)
    exact ⟨rfl, by simpa [Ne.symm hquote] using hraw⟩
  | escape _ _ _ _ => exact absurd (by simp) hslash

theorem quote_mem (hquote : '"' ∈ raw) : '"' ∈ chars := by
  induction h with
  | nil => cases hquote
  | plain _ hother _ ih =>
    exact List.mem_append_left _ (ih (by simpa [Ne.symm hother] using hquote))
  | escape _ _ hmeant ih =>
    rcases List.mem_append.1 hquote with hraw | hmore
    · exact List.mem_append_left _ (ih hraw)
    · exact List.mem_append_right _ (hmeant (by simpa using hmore))

end Spells

/-! ## Inside of strings -/

/-- What has been read of a string, behind its first quote, and what is kept of it. As soon as
something is wrong, nothing needs to be known. -/
def Reading (q : Quotation) (front : List Char) : Inside → Prop
  | .plain _ => q.fault = none → Spells front q.chars.reverse
  | .escape _ => q.fault = none → ∃ raw, front = raw ++ ['\\'] ∧ Spells raw q.chars.reverse
  | .code _ _ spelled => q.fault = none → spelled.isSome = true → ∃ raw digits,
      front = raw ++ '\\' :: 'u' :: digits ∧ '"' ∉ digits ∧ Spells raw q.chars.reverse

namespace Quotation

theorem noteOpen_of_fault {q : Quotation} {high : Option Nat} {here : Nat}
    (h : (q.noteOpen high here).fault = none) : q.noteOpen high here = q ∧ q.fault = none := by
  cases high with
  | none => exact ⟨rfl, h⟩
  | some first => simp [noteOpen, note] at h

/-- The number of an escape means one character at most. -/
theorem code_of_fault {q : Quotation} {high : Option Nat} {number past : Nat}
    (h : (q.code high number past).1.fault = none) : q.fault = none ∧
      ∃ meant : List Char, meant.length ≤ 1 ∧
        (q.code high number past).1.chars = meant ++ q.chars := by
  have hkept {c : Char} : ∃ meant : List Char, meant.length ≤ 1 ∧
      (q.push c).chars = meant ++ q.chars := ⟨[c], Nat.le_refl 1, rfl⟩
  have hnone : ∃ meant : List Char, meant.length ≤ 1 ∧ q.chars = meant ++ q.chars :=
    ⟨[], Nat.zero_le 1, rfl⟩
  cases high <;> simp only [code] at h ⊢ <;> split_ifs at h ⊢ <;>
    first
    | exact ⟨h, hkept⟩
    | exact ⟨h, hnone⟩
    | simp [note] at h

end Quotation

/-- Whether the scan breaks off with such a token. -/
def Lexeme.Breaks : Lexeme → Prop
  | .stray | .broken _ _ _ => True
  | _ => False

/-- Whether nothing is scanned behind such a token. -/
def Lexeme.IsLast : Lexeme → Prop
  | .stray | .broken _ _ _ | .finish => True
  | _ => False

theorem Lexeme.Breaks.isLast {lexeme : Lexeme} (h : lexeme.Breaks) : lexeme.IsLast := by
  cases lexeme <;> first | exact h | exact trivial

theorem hexDigit?_quote : hexDigit? '"' = none := by decide

theorem unescape?_quote : unescape? '"' = some '"' := by decide

/-- The number an escape spells with one more digit. -/
def spelledOn (spelled : Option Nat) (c : Char) : Option Nat :=
  match spelled, hexDigit? c with
  | some n, some digit => some (n * 16 + digit)
  | _, _ => none

/-- Only digits spell a number. -/
theorem spelledOn_isSome {spelled : Option Nat} {c : Char} (h : (spelledOn spelled c).isSome) :
    spelled.isSome ∧ c ≠ '"' := by
  cases spelled with
  | none => simp [spelledOn] at h
  | some n =>
    refine ⟨rfl, ?_⟩
    rintro rfl
    simp [spelledOn, hexDigit?_quote] at h

theorem stepText_code (start here : Nat) (q : Quotation) (high : Option Nat) (taken : Nat)
    (spelled : Option Nat) (c : Char) : stepText start here q (.code high taken spelled) c =
      if taken + c.utf8Size < 4 then
        ([], .text start q (.code high (taken + c.utf8Size) (spelledOn spelled c)))
      else match spelledOn spelled c with
        | some n => ([], .text start (q.code high n (here + (4 - taken))).1
            (.plain (q.code high n (here + (4 - taken))).2))
        | none => stopAt start here (q.brokenOff
            ⟨.unknownEscape, here + (4 - taken)⟩ ⟨.unknownEscape, here + (4 - taken)⟩) :=
  rfl

/-- A character of a string goes on with it, breaks it off or is its last quote. -/
theorem stepText_cases (start here : Nat) {q : Quotation} {inside : Inside} {front : List Char}
    (h : Reading q front inside) (c : Char) :
    (∃ q' inside', stepText start here q inside c = ([], .text start q' inside') ∧
      Reading q' (front ++ [c]) inside') ∨
    (∃ stop lexeme, stepText start here q inside c = stopAt start stop lexeme ∧ lexeme.Breaks) ∨
    c = '"' ∧ ∃ value, stepText start here q inside c =
      ([⟨start, here + 1, .text value⟩], .between) ∧
        ∀ string : String, value = .ok string → Spells front string.toList := by
  cases inside with
  | plain high =>
    rw [stepText]
    split_ifs with hslash hquote hcontrol
    · subst hslash
      exact .inl ⟨_, _, rfl, fun hfault => ⟨front, rfl, h hfault⟩⟩
    · refine .inr (.inr ⟨hquote, _, rfl, fun string hvalue => ?_⟩)
      cases hfault : (q.noteOpen high here).fault with
      | some error => simp [Quotation.value, hfault] at hvalue
      | none =>
        obtain ⟨heq, hnone⟩ := Quotation.noteOpen_of_fault hfault
        simp only [Quotation.value, heq, hnone, Except.ok.injEq] at hvalue
        rw [← hvalue, String.toList_ofList]
        exact h hnone
    · exact .inr (.inl ⟨_, _, rfl, trivial⟩)
    · refine .inl ⟨_, _, rfl, fun hfault => ?_⟩
      obtain ⟨heq, hnone⟩ := Quotation.noteOpen_of_fault (q := q) hfault
      rw [heq, Quotation.push, List.reverse_cons]
      exact (h hnone).plain hquote hslash
  | escape high =>
    rw [stepText]
    split_ifs with hcode
    · subst hcode
      refine .inl ⟨_, _, rfl, fun hfault _ => ?_⟩
      obtain ⟨raw, rfl, hraw⟩ := h hfault
      exact ⟨raw, [], by simp, List.not_mem_nil, hraw⟩
    · cases hmeant : unescape? c with
      | none => exact .inr (.inl ⟨_, _, rfl, trivial⟩)
      | some meant =>
        refine .inl ⟨_, _, rfl, fun hfault => ?_⟩
        obtain ⟨heq, hnone⟩ := Quotation.noteOpen_of_fault (q := q) hfault
        obtain ⟨raw, rfl, hraw⟩ := h hnone
        rw [heq, Quotation.push, List.reverse_cons, List.append_assoc]
        refine hraw.escape (Nat.le_refl 1) fun hmem => ?_
        rw [← List.mem_singleton.1 hmem, unescape?_quote] at hmeant
        exact List.mem_singleton.2 (Option.some.inj hmeant)
  | code high taken spelled =>
    rw [stepText_code]
    split_ifs with hcount
    · refine .inl ⟨_, _, rfl, fun hfault hspelled => ?_⟩
      obtain ⟨hsome, hc⟩ := spelledOn_isSome hspelled
      obtain ⟨raw, digits, rfl, hnot, hraw⟩ := h hfault hsome
      exact ⟨raw, digits ++ [c], by simp, by simp [Ne.symm hc, hnot], hraw⟩
    · cases hspelled : spelledOn spelled c with
      | none => exact .inr (.inl ⟨_, _, rfl, trivial⟩)
      | some n =>
        refine .inl ⟨_, _, rfl, fun hfault => ?_⟩
        obtain ⟨hnone, meant, hmeant, hchars⟩ := Quotation.code_of_fault hfault
        obtain ⟨hsome, hc⟩ := spelledOn_isSome (Option.isSome_of_eq_some hspelled)
        obtain ⟨raw, digits, rfl, hnot, hraw⟩ := h hnone hsome
        rw [hchars, List.reverse_append, List.append_assoc]
        refine hraw.escape (by simp; omega) fun hmem => ?_
        simp [Ne.symm hc, hnot] at hmem

/-! ## Single tokens -/

theorem scanFrom_over (here : Nat) (cs : List Char) : scanFrom .over here cs = [] := by
  induction cs generalizing here with
  | nil => rfl
  | cons c cs ih => rw [scanFrom, Scan.step, List.nil_append, ih]

/-- In the middle of a token, the scan breaks off, or the token ends somewhere and what is behind
it is scanned on its own. `covered` is said of the characters up to there. -/
def Ends (start : Nat) (scan : Scan) (here : Nat) (cs : List Char)
    (covered : List Char → Lexeme → Prop) : Prop :=
  (∃ token : Token, scanFrom scan here cs = [token] ∧ token.lexeme.IsLast) ∨
    ∃ body rest lexeme, cs = body ++ rest ∧ scanFrom scan here cs =
      ⟨start, here + byteLength body, lexeme⟩ :: scanFrom .between (here + byteLength body) rest ∧
        covered body lexeme

namespace Ends

variable {start here : Nat} {scan : Scan} {c : Char} {cs : List Char}
  {covered : List Char → Lexeme → Prop}

theorem imp {covered' : List Char → Lexeme → Prop} (h : Ends start scan here cs covered)
    (himp : ∀ body lexeme, covered body lexeme → covered' body lexeme) :
    Ends start scan here cs covered' := by
  rcases h with hlast | ⟨body, rest, lexeme, hcs, hscan, hcovered⟩
  · exact .inl hlast
  · exact .inr ⟨body, rest, lexeme, hcs, hscan, himp body lexeme hcovered⟩

/-- A character with which the token goes on. -/
theorem more {scan' : Scan} (hstep : scan.step here c = ([], scan'))
    (h : Ends start scan' (here + c.utf8Size) cs fun body => covered (c :: body)) :
    Ends start scan here (c :: cs) covered := by
  have hscan : scanFrom scan here (c :: cs) = scanFrom scan' (here + c.utf8Size) cs := by
    rw [scanFrom, hstep, List.nil_append]
  rcases h with ⟨token, htoken, hlast⟩ | ⟨body, rest, lexeme, rfl, htoken, hcovered⟩
  · exact .inl ⟨token, hscan.trans htoken, hlast⟩
  · refine .inr ⟨c :: body, rest, lexeme, rfl, ?_, hcovered⟩
    rw [hscan, htoken, Text.byteLength_cons, Nat.add_assoc]

theorem stopped {stop : Nat} {lexeme : Lexeme}
    (hstep : scan.step here c = stopAt start stop lexeme) (hbreaks : lexeme.Breaks) :
    Ends start scan here (c :: cs) covered := by
  refine .inl ⟨⟨start, stop, lexeme⟩, ?_, hbreaks.isLast⟩
  rw [scanFrom, hstep, stopAt, scanFrom_over]
  rfl

/-- The last character of the token. -/
theorem last {lexeme : Lexeme}
    (hstep : scan.step here c = ([⟨start, here + c.utf8Size, lexeme⟩], .between))
    (hcovered : covered [c] lexeme) : Ends start scan here (c :: cs) covered := by
  refine .inr ⟨[c], cs, lexeme, rfl, ?_, hcovered⟩
  rw [scanFrom, hstep, Text.byteLength_cons, Text.byteLength_nil, Nat.add_zero]
  rfl

end Ends

/-- What a string token covers behind its first quote. -/
theorem ends_text (start : Nat) : ∀ (cs front : List Char) {q : Quotation} {inside : Inside}
    (here : Nat), Reading q front inside → Ends start (.text start q inside) here cs
      fun body lexeme => ∃ raw value, body = raw ++ ['"'] ∧ lexeme = .text value ∧
        ∀ string : String, value = .ok string → Spells (front ++ raw) string.toList
  | [], _, _, _, _, _ => .inl ⟨_, rfl, trivial⟩
  | c :: cs, front, q, inside, here, h => by
    rcases stepText_cases start here h c with ⟨q', inside', hstep, hreading⟩ |
      ⟨stop, lexeme, hstep, hbreaks⟩ | ⟨rfl, value, hstep, hvalue⟩
    · refine .more hstep ((ends_text start cs (front ++ [c]) _ hreading).imp ?_)
      rintro _ _ ⟨raw, value, rfl, rfl, hvalue⟩
      exact ⟨c :: raw, value, rfl, rfl, by simpa using hvalue⟩
    · exact .stopped hstep hbreaks
    · exact .last hstep ⟨[], value, rfl, rfl, by simpa using hvalue⟩

theorem ends_word (start : Nat) (lexeme : Lexeme) : ∀ (cs rest : List Char) (due : Char)
    (here : Nat), (∀ c ∈ due :: rest, c.utf8Size = 1) →
      Ends start (.word start lexeme due rest) here cs fun _ found => found = lexeme
  | [], _, _, _, _ => .inl ⟨_, rfl, trivial⟩
  | c :: cs, rest, due, here, hsize => by
    by_cases h : c = due
    · subst h
      cases rest with
      | nil =>
        refine .last ?_ rfl
        rw [Scan.step, if_pos rfl, hsize c List.mem_cons_self]
      | cons next rest =>
        refine .more ?_ (ends_word start lexeme cs rest next (here + c.utf8Size)
          (List.forall_mem_cons.1 hsize).2)
        rw [Scan.step, if_pos rfl]
    · have hstep : (Scan.word start lexeme due rest).step here c = stopAt start here
          (.broken false ⟨.unknownWord, here + 1⟩ ⟨.unknownWord, here + 1⟩) := by
        cases rest <;> rw [Scan.step, if_neg h]
      exact .stopped hstep trivial

/-- A character of a number goes on with it, breaks it off or stands behind it. -/
theorem stepNumber_cases (start here : Nat) (numeral : Numeral) (stage : Stage) (c : Char) :
    (∃ numeral' stage',
      stepNumber start here numeral stage c = ([], .number start numeral' stage')) ∨
    (∃ stop lexeme, stepNumber start here numeral stage c = stopAt start stop lexeme ∧
      lexeme.Breaks) ∨
    ∃ value, stepNumber start here numeral stage c =
      (⟨start, here, .number value⟩ :: (begin here c).1, (begin here c).2) := by
  cases stage <;> cases h : digit? c <;> simp only [stepNumber, h, afterWhole] <;>
    (try split_ifs) <;>
    first
    | exact .inl ⟨_, _, rfl⟩
    | exact .inr (.inl ⟨_, _, rfl, trivial⟩)
    | exact .inr (.inr ⟨_, rfl⟩)

theorem ends_number (start : Nat) : ∀ (cs : List Char) (numeral : Numeral) (stage : Stage)
    (here : Nat), Ends start (.number start numeral stage) here cs
      fun _ lexeme => ∃ value, lexeme = .number value
  | [], numeral, stage, here => by
    cases stage <;>
      first
      | exact .inl ⟨_, rfl, trivial⟩
      | exact .inr ⟨[], [], _, rfl, rfl, _, rfl⟩
  | c :: cs, numeral, stage, here => by
    rcases stepNumber_cases start here numeral stage c with ⟨numeral', stage', hstep⟩ |
      ⟨stop, lexeme, hstep, hbreaks⟩ | ⟨value, hstep⟩
    · exact .more hstep (ends_number start cs numeral' stage' (here + c.utf8Size))
    · exact .stopped hstep hbreaks
    · refine .inr ⟨[], c :: cs, .number value, rfl, ?_, value, rfl⟩
      have hscan : (Scan.number start numeral stage).step here c = _ := hstep
      rw [scanFrom, hscan]
      rfl

/-! ## Tokens of a text -/

/-- What the characters are that a token covers, if it is a bracket, a separator or a string. -/
def Lexeme.Covers : Lexeme → List Char → Prop
  | .mark sign, body => ∃ c, body = [c] ∧ mark? c = some sign
  | .text (.ok string), body => ∃ raw, body = '"' :: (raw ++ ['"']) ∧ Spells raw string.toList
  | _, _ => True

theorem utf8Size_of_mark? {c : Char} {sign : Mark} (h : mark? c = some sign) : c.utf8Size = 1 := by
  rw [mark?] at h
  split_ifs at h <;> subst c <;> rfl

/-- A character that is no space begins a token. -/
theorem ends_between (cs : List Char) (here : Nat) {c : Char} (hgap : isGap c = false) :
    Ends here .between here (c :: cs) fun body lexeme => lexeme.Covers body := by
  have hword (due : Char) (rest : List Char) (lexeme : Lexeme) (hcovers : ∀ body, lexeme.Covers body)
      (hsizes : ((due :: rest).all fun c => c.utf8Size == 1) = true) (start here : Nat) :
      Ends start (.word start lexeme due rest) here cs fun body found =>
        found.Covers (c :: body) := by
    have hsize (c : Char) (hc : c ∈ due :: rest) : c.utf8Size = 1 := by
      simpa using List.all_eq_true.1 hsizes c hc
    refine (ends_word start lexeme cs rest due here hsize).imp ?_
    rintro _ _ rfl
    exact hcovers _
  have hnumber (numeral : Numeral) (stage : Stage) (start here : Nat) :
      Ends start (.number start numeral stage) here cs fun body found =>
        found.Covers (c :: body) := by
    refine (ends_number start cs numeral stage here).imp ?_
    rintro _ _ ⟨value, rfl⟩
    exact trivial
  have hstep : Scan.between.step here c = begin here c := rfl
  rw [begin, if_neg (by simp [hgap])] at hstep
  split_ifs at hstep with hquote hminus hnull htrue hfalse
  · have hreading : Reading {} [] (.plain none) := fun _ => .nil
    refine .more hstep ((ends_text here cs [] _ hreading).imp ?_)
    rintro _ _ ⟨raw, value, rfl, rfl, hvalue⟩
    cases value with
    | error => trivial
    | ok string => exact ⟨raw, by rw [hquote], hvalue string rfl⟩
  · exact .more hstep (hnumber _ _ _ _)
  · exact .more hstep (hword _ _ .null (fun _ => trivial) rfl _ _)
  · exact .more hstep (hword _ _ (.bool true) (fun _ => trivial) rfl _ _)
  · exact .more hstep (hword _ _ (.bool false) (fun _ => trivial) rfl _ _)
  · split at hstep
    · exact .more hstep (hnumber _ _ _ _)
    · next sign _ hsign =>
      rw [← utf8Size_of_mark? hsign] at hstep
      exact .last hstep ⟨c, rfl, hsign⟩
    · exact .stopped hstep trivial

/-- What is scanned between two tokens is space and a token, and what is behind it is scanned on
its own. -/
theorem scanFrom_between : ∀ (cs : List Char) (here : Nat),
    (∃ token : Token, scanFrom .between here cs = [token] ∧ token.lexeme.IsLast) ∨
    ∃ gap body rest lexeme, cs = gap ++ (body ++ rest) ∧ IsGap gap ∧
      scanFrom .between here cs =
        ⟨here + byteLength gap, here + byteLength gap + byteLength body, lexeme⟩ ::
          scanFrom .between (here + byteLength gap + byteLength body) rest ∧
      lexeme.Covers body
  | [], here => .inl ⟨_, rfl, trivial⟩
  | c :: cs, here => by
    cases hgap : isGap c with
    | false =>
      rcases ends_between cs here hgap with hlast | ⟨body, rest, lexeme, hcs, hscan, hcovers⟩
      · exact .inl hlast
      · exact .inr ⟨[], body, rest, lexeme, hcs, List.forall_mem_nil _, hscan, hcovers⟩
    | true =>
      have hscan : scanFrom .between here (c :: cs) =
          scanFrom .between (here + c.utf8Size) cs := by
        rw [scanFrom, Scan.step, begin, if_pos hgap]
        rfl
      rw [hscan]
      rcases scanFrom_between cs (here + c.utf8Size) with hlast |
        ⟨gap, body, rest, lexeme, rfl, hspace, hmore, hcovers⟩
      · exact .inl hlast
      · refine .inr ⟨c :: gap, body, rest, lexeme, rfl,
          List.forall_mem_cons.2 ⟨hgap, hspace⟩, ?_, hcovers⟩
        rw [hmore, Text.byteLength_cons, ← Nat.add_assoc]

/-- A token that does not end the scan stands behind space, and what is behind it is scanned on
its own. -/
theorem scan_next {cs : List Char} {here : Nat} {token : Token} {tokens : List Token}
    (h : scanFrom .between here cs = token :: tokens)
    (hlast : token.lexeme.IsLast → tokens ≠ []) :
    ∃ gap body rest, cs = gap ++ (body ++ rest) ∧ IsGap gap ∧
      token.start = here + byteLength gap ∧ token.stop = token.start + byteLength body ∧
      token.lexeme.Covers body ∧ scanFrom .between token.stop rest = tokens := by
  rcases scanFrom_between cs here with ⟨last, hscan, hend⟩ |
    ⟨gap, body, rest, lexeme, hcs, hgap, hscan, hcovers⟩
  · obtain ⟨rfl, hnil⟩ := List.cons.inj (h.symm.trans hscan)
    exact absurd hnil (hlast hend)
  · obtain ⟨rfl, rfl⟩ := List.cons.inj (h.symm.trans hscan)
    exact ⟨gap, body, rest, hcs, hgap, rfl, rfl, hcovers, rfl⟩

/-- Whatever tokens stand in front, a token is scanned from some place of the text on. -/
theorem scan_split {token : Token} {tokens : List Token} : ∀ (front : List Token)
    {cs : List Char} {here : Nat}, scanFrom .between here cs = front ++ token :: tokens →
      ∃ before rest, cs = before ++ rest ∧
        scanFrom .between (here + byteLength before) rest = token :: tokens
  | [], cs, here, h => ⟨[], cs, rfl, h⟩
  | first :: front, cs, here, h => by
    obtain ⟨gap, body, rest, rfl, -, hstart, hstop, -, hmore⟩ := scan_next h fun _ => by simp
    obtain ⟨before, rest, rfl, hscan⟩ := scan_split front hmore
    refine ⟨gap ++ (body ++ before), rest, by simp, ?_⟩
    rw [← hscan]
    congr 1
    simp [hstart, hstop, Nat.add_assoc]

end Json

end PiBlocks
