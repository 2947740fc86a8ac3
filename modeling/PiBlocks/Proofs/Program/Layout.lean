import PiBlocks.Program.Line
import Mathlib.Data.List.Chain
import Mathlib.Data.List.Perm.Basic
import Mathlib.Tactic.SplitIfs

/-!
# The layout of a text

`Line.canonical` takes a text apart into lines, drops the empty ones and lays the others out again,
definitions first. What it gives is `Line.rows`, one below the other (`Line.canonical_eq`) : the
definitions, with an empty row behind each that anything follows, then the rest. No row contains a
line break, and neither the first nor the last one is empty, so the rows are the lines of what is
laid out (`Text.lines_join`). The empty rows are the ones that are dropped when it is laid out
again, therefore a second time changes nothing (`Line.canonical_layout`).
-/

namespace PiBlocks

/-! ## Lines and what is joined -/

namespace Text

/-- No line breaks in a text. -/
def OneLine (text : String) : Prop := '\n' ∉ text.toList ∧ '\r' ∉ text.toList

instance (text : String) : Decidable (OneLine text) := inferInstanceAs (Decidable (_ ∧ _))

theorem linesOf_cons {c : Char} (hfeed : c ≠ '\n') (hreturn : c ≠ '\r') (rest : List Char) :
    linesOf (c :: rest) =
      match linesOf rest with
      | [] => [[c]]
      | line :: more => (c :: line) :: more := by
  rw [linesOf.eq_def]
  split
  case h_1 h => cases h
  case h_2 h => exact absurd (List.cons.inj h).1 hreturn
  case h_3 h => exact absurd (List.cons.inj h).1 hfeed
  case h_4 h =>
    obtain ⟨rfl, rfl⟩ := List.cons.inj h
    rfl

theorem linesOf_append : ∀ {line : List Char}, '\n' ∉ line → '\r' ∉ line →
    ∀ rest, linesOf (line ++ '\n' :: rest) = line :: linesOf rest
  | [], _, _, rest => by simp [linesOf]
  | c :: line, hfeed, hreturn, rest => by
    rw [List.mem_cons, not_or] at hfeed hreturn
    rw [List.cons_append, linesOf_cons (Ne.symm hfeed.1) (Ne.symm hreturn.1),
      linesOf_append hfeed.2 hreturn.2]

theorem linesOf_eq_singleton : ∀ {line : List Char}, '\n' ∉ line → '\r' ∉ line → line ≠ [] →
    linesOf line = [line]
  | [c], hfeed, hreturn, _ => by
    rw [List.mem_singleton] at hfeed hreturn
    rw [linesOf_cons (Ne.symm hfeed) (Ne.symm hreturn), linesOf]
  | c :: d :: line, hfeed, hreturn, _ => by
    rw [List.mem_cons, not_or] at hfeed hreturn
    rw [linesOf_cons (Ne.symm hfeed.1) (Ne.symm hreturn.1),
      linesOf_eq_singleton hfeed.2 hreturn.2 (List.cons_ne_nil _ _)]

/-- Lines have characters of the text, and no line feeds. -/
theorem of_mem_linesOf {c : Char} {chars line : List Char} (hline : line ∈ linesOf chars)
    (hc : c ∈ line) : c ∈ chars ∧ c ≠ '\n' := by
  fun_induction linesOf chars generalizing line with
  | case1 => cases hline
  | case2 rest ih | case3 rest ih =>
    rcases List.mem_cons.1 hline with rfl | hline
    · cases hc
    · exact (ih hline hc).imp_left fun h => by simp [h]
  | case4 d rest _ hfeed _ _ =>
    obtain rfl := List.mem_singleton.1 hline
    obtain rfl := List.mem_singleton.1 hc
    exact ⟨List.mem_cons_self, hfeed⟩
  | case5 d rest _ hfeed first more heq ih =>
    rcases List.mem_cons.1 hline with rfl | hline
    · rcases List.mem_cons.1 hc with rfl | hc
      · exact ⟨List.mem_cons_self, hfeed⟩
      · exact (ih (heq ▸ List.mem_cons_self) hc).imp_left (List.mem_cons_of_mem _)
    · exact (ih (heq ▸ List.mem_cons_of_mem _ hline) hc).imp_left (List.mem_cons_of_mem _)

/-- Without carriage returns in the text, its lines have no line breaks. -/
theorem oneLine_of_mem_lines {text line : String} (h : '\r' ∉ text.toList)
    (hline : line ∈ lines text) : OneLine line := by
  obtain ⟨chars, hchars, rfl⟩ := List.mem_map.1 hline
  rw [OneLine, String.toList_ofList]
  exact ⟨fun hc => (of_mem_linesOf hchars hc).2 rfl, fun hc => h (of_mem_linesOf hchars hc).1⟩

/-- Texts of one line are the lines of what they are joined to, unless the last one is empty. -/
theorem lines_join : ∀ {texts : List String}, (∀ text ∈ texts, OneLine text) →
    texts.getLast? ≠ some "" → lines (join "\n" texts) = texts
  | [], _, _ => rfl
  | [text], hline, hlast => by
    obtain ⟨hfeed, hreturn⟩ := hline text List.mem_cons_self
    have hne : text.toList ≠ [] := by simpa using hlast
    simp [lines, linesOf_eq_singleton hfeed hreturn hne]
  | first :: second :: more, hline, hlast => by
    obtain ⟨hfeed, hreturn⟩ := hline first List.mem_cons_self
    have hrest := lines_join (fun text ht => hline text (List.mem_cons_of_mem _ ht))
      (by simpa using hlast)
    have hchars : (join "\n" (first :: second :: more)).toList =
        first.toList ++ '\n' :: (join "\n" (second :: more)).toList := by
      simp [join_cons_cons]
    rw [lines] at hrest ⊢
    rw [hchars, linesOf_append hfeed hreturn, List.map_cons, String.ofList_toList, hrest]

theorem head?_lines {text : String} (h : text.toList.head? = some '\n') :
    (lines text).head? = some "" := by
  obtain ⟨rest, htext⟩ := List.head?_eq_some_iff.1 h
  simp [lines, htext, linesOf]

/-- What is joined of such texts ends with no line feed. -/
theorem exists_getLast?_join : ∀ {texts : List String}, texts ≠ [] →
    (∀ text ∈ texts, OneLine text) → texts.getLast? ≠ some "" →
      ∃ c ≠ '\n', (join "\n" texts).toList.getLast? = some c
  | [text], _, hline, hlast => by
    have hne : text.toList ≠ [] := by simpa using hlast
    have hfeed := (hline text List.mem_cons_self).1
    exact ⟨_, fun h => hfeed (h ▸ List.getLast_mem hne), List.getLast?_eq_some_getLast hne⟩
  | first :: second :: more, _, hline, hlast => by
    obtain ⟨c, hc, hrest⟩ := exists_getLast?_join (List.cons_ne_nil second more)
      (fun text ht => hline text (List.mem_cons_of_mem _ ht)) (by simpa using hlast)
    refine ⟨c, hc, ?_⟩
    rw [join_cons_cons, String.toList_append, String.toList_append, List.getLast?_append,
      List.getLast?_append, hrest]
    rfl

end Text

namespace Line

/-! ## Rows -/

/-- Whether the text of a line is marked as a definition. -/
def isDefinition (text : String) : Bool := Text.contains text marker

/-- The lines of a text that are not empty. -/
def filled (text : String) : List String := (Text.lines text).filter fun line => !line.isEmpty

/-- Definitions, with an empty row behind each that anything follows, then the program. -/
def rows : List String → List String → List String
  | [], program => program
  | [definition], [] => [definition]
  | definition :: more, program => definition :: "" :: rows more program

section

variable {definitions program : List String}

theorem rows_nil (program : List String) : rows [] program = program := by
  rw [rows]

theorem rows_cons (definition : String) {definitions program : List String}
    (h : definitions ≠ [] ∨ program ≠ []) :
    rows (definition :: definitions) program = definition :: "" :: rows definitions program := by
  rw [rows]
  rintro rfl rfl
  simp at h

theorem rows_ne_nil (h : definitions ≠ [] ∨ program ≠ []) : rows definitions program ≠ [] := by
  match definitions, program, h with
  | [], _ :: _, _ => simp [rows]
  | [_], [], _ => simp [rows]
  | [_], _ :: _, _ => simp [rows]
  | _ :: _ :: _, _, _ => simp [rows]

theorem join_cons_empty (text : String) {texts : List String} (h : texts ≠ []) :
    Text.join "\n" (text :: "" :: texts) = text ++ ("\n\n" ++ Text.join "\n" texts) := by
  obtain ⟨first, more, rfl⟩ := List.exists_cons_of_ne_nil h
  have hbreaks : "\n\n" = "\n" ++ "\n" := rfl
  rw [Text.join_cons_cons, Text.join_cons_cons, String.empty_append, hbreaks, String.append_assoc]

theorem join_rows_nil : ∀ definitions : List String,
    Text.join "\n" (rows definitions []) = Text.join "\n\n" definitions
  | [] => rfl
  | [definition] => rfl
  | first :: second :: more => by
    have hrest : second :: more ≠ [] ∨ ([] : List String) ≠ [] := .inl (List.cons_ne_nil _ _)
    rw [rows_cons first hrest, join_cons_empty first (rows_ne_nil hrest),
      join_rows_nil (second :: more), Text.join_cons_cons]

theorem join_rows (hprogram : program ≠ []) : ∀ {definitions : List String}, definitions ≠ [] →
    Text.join "\n" (rows definitions program) =
      Text.join "\n\n" definitions ++ "\n\n" ++ Text.join "\n" program
  | [definition], _ => by
    rw [rows_cons definition (.inr hprogram), rows_nil, join_cons_empty definition hprogram,
      Text.join_singleton, String.append_assoc]
  | first :: second :: more, _ => by
    have hrest := join_rows hprogram (List.cons_ne_nil second more)
    rw [rows_cons first (.inr hprogram), join_cons_empty first (rows_ne_nil (.inr hprogram)),
      hrest, Text.join_cons_cons]
    simp only [String.append_assoc]

/-- Lines are laid out in rows. -/
theorem order_eq (lines : List Line) : order lines =
    Text.join "\n" (rows (textsOf .definition lines) (textsOf .program lines)) := by
  rw [order]
  split
  · next hdefinitions => rw [hdefinitions, rows_nil]
  · next hprogram _ => rw [hprogram, join_rows_nil]
  · next hdefinitions hprogram => exact (join_rows hprogram hdefinitions).symm

/-! ## Definitions and program in rows -/

theorem mem_of_mem_rows {row : String} (h : row ∈ rows definitions program) :
    row = "" ∨ row ∈ definitions ++ program := by
  fun_induction rows definitions program with
  | case1 program => exact .inr h
  | case2 definition => exact .inr h
  | case3 definition more program _ ih =>
    rw [List.mem_cons, List.mem_cons] at h
    rcases h with rfl | rfl | h
    · exact .inr List.mem_cons_self
    · exact .inl rfl
    · exact (ih h).imp_right (List.mem_cons_of_mem _)

theorem head?_rows (definitions program : List String) :
    (rows definitions program).head? = (definitions ++ program).head? := by
  fun_cases rows definitions program <;> rfl

theorem getLast?_rows (definitions program : List String) :
    (rows definitions program).getLast? = (definitions ++ program).getLast? := by
  fun_induction rows definitions program with
  | case1 program => rfl
  | case2 definition => rfl
  | case3 definition more program hmore ih =>
    have hne : more ++ program ≠ [] := fun h =>
      hmore (List.append_eq_nil_iff.1 h).2 (List.append_eq_nil_iff.1 h).1
    obtain ⟨last, hlast⟩ := Option.ne_none_iff_exists'.1 fun h =>
      hne (List.getLast?_eq_none_iff.1 h)
    rw [hlast] at ih
    simp [List.getLast?_cons, ih, hlast]

/-- Lines in two groups, told apart by the mark of definitions. No line is empty. -/
structure Grouped (definitions program : List String) : Prop where
  filled : ∀ line ∈ definitions ++ program, line ≠ ""
  oneLine : ∀ line ∈ definitions ++ program, Text.OneLine line
  marked : ∀ line ∈ definitions, isDefinition line = true
  unmarked : ∀ line ∈ program, isDefinition line = false

namespace Grouped

theorem tail {definition : String} (h : Grouped (definition :: definitions) program) :
    Grouped definitions program where
  filled line hline := h.filled line (List.mem_cons_of_mem _ hline)
  oneLine line hline := h.oneLine line (List.mem_cons_of_mem _ hline)
  marked line hline := h.marked line (List.mem_cons_of_mem _ hline)
  unmarked := h.unmarked

variable (h : Grouped definitions program)
include h

theorem head?_ne : (rows definitions program).head? ≠ some "" := by
  rw [head?_rows]
  exact fun hhead => h.filled _ (List.mem_of_head? hhead) rfl

theorem getLast?_ne : (rows definitions program).getLast? ≠ some "" := by
  rw [getLast?_rows]
  exact fun hlast => h.filled _ (List.mem_of_getLast? hlast) rfl

theorem oneLine_of_mem_rows : ∀ row ∈ rows definitions program, Text.OneLine row := by
  intro row hrow
  rcases mem_of_mem_rows hrow with rfl | hrow
  · decide
  · exact h.oneLine row hrow

/-- The rows are the lines of what is laid out. -/
theorem lines_join_rows :
    Text.lines (Text.join "\n" (rows definitions program)) = rows definitions program :=
  Text.lines_join h.oneLine_of_mem_rows h.getLast?_ne

theorem filter_rows :
    (rows definitions program).filter (fun row => !row.isEmpty) = definitions ++ program := by
  fun_induction rows definitions program with
  | case1 program => simpa [List.filter_eq_self] using h.filled
  | case2 definition => simpa [List.filter_eq_self] using h.filled
  | case3 definition more program _ ih =>
    have hne := h.filled definition List.mem_cons_self
    simp [hne, ih h.tail]

/-- The row behind another one is empty if and only if the other one is a definition. -/
theorem isChain_rows :
    (rows definitions program).IsChain fun row next => next = "" ↔ isDefinition row = true := by
  fun_induction rows definitions program with
  | case1 program =>
    refine List.Pairwise.isChain (List.pairwise_of_forall_mem_list fun row hrow next hnext => ?_)
    simp [h.filled next hnext, h.unmarked row hrow]
  | case2 definition => exact .singleton definition
  | case3 definition more program _ ih =>
    have hdefinition := h.marked definition List.mem_cons_self
    refine .cons_cons (by simp [hdefinition])
      (List.isChain_cons.2 ⟨fun next hnext => ?_, ih h.tail⟩)
    have hne : next ≠ "" := fun heq => h.tail.head?_ne (heq ▸ hnext)
    exact iff_of_false hne (by decide)

theorem getLast?_join_ne :
    (Text.join "\n" (rows definitions program)).toList.getLast? ≠ some '\n' := by
  rcases eq_or_ne (rows definitions program) [] with hnil | hne
  · simp [hnil]
  · obtain ⟨c, hc, hlast⟩ := Text.exists_getLast?_join hne h.oneLine_of_mem_rows h.getLast?_ne
    simpa [hlast] using hc

theorem filter_isDefinition : (definitions ++ program).filter isDefinition = definitions := by
  have hprogram : program.filter isDefinition = [] :=
    List.filter_eq_nil_iff.2 fun line hline => by simp [h.unmarked line hline]
  rw [List.filter_append, List.filter_eq_self.2 h.marked, hprogram, List.append_nil]

theorem filter_not_isDefinition :
    ((definitions ++ program).filter fun line => !isDefinition line) = program := by
  have hdefinitions : (definitions.filter fun line => !isDefinition line) = [] :=
    List.filter_eq_nil_iff.2 fun line hline => by simp [h.marked line hline]
  have hprogram : (program.filter fun line => !isDefinition line) = program :=
    List.filter_eq_self.2 fun line hline => by simp [h.unmarked line hline]
  rw [List.filter_append, hdefinitions, hprogram, List.nil_append]

end Grouped

end

/-! ## Texts laid out -/

/-- The definitions among the lines of a text. -/
def definitionsOf (text : String) : List String := (filled text).filter isDefinition

/-- The other lines of a text that are not empty. -/
def programOf (text : String) : List String :=
  (filled text).filter fun line => !isDefinition line

theorem kind_ofText_eq_definition (text : String) :
    decide ((ofText text).kind = .definition) = isDefinition text := by
  cases h : isDefinition text <;> simp_all [ofText, isDefinition]

theorem kind_ofText_eq_program (text : String) :
    decide ((ofText text).kind = .program) = !isDefinition text := by
  cases h : isDefinition text <;> simp_all [ofText, isDefinition]

theorem textsOf_filled (kind : LineKind) (text : String) :
    textsOf kind ((filled text).map ofText) =
      (filled text).filter fun line => decide ((ofText line).kind = kind) := by
  rw [textsOf, List.filter_map, List.map_map, filled, List.filter_filter, List.filter_filter]
  refine (List.map_id _).trans (List.filter_congr fun line _ => ?_)
  simp [ofText, Bool.and_comm]

/-- A text is laid out in rows of its own lines. -/
theorem canonical_eq (text : String) :
    canonical text = Text.join "\n" (rows (definitionsOf text) (programOf text)) := by
  have horder := order_eq ((filled text).map ofText)
  simp only [textsOf_filled, kind_ofText_eq_definition, kind_ofText_eq_program] at horder
  exact horder

/-- Every line that is not empty is in one of the groups. -/
theorem definitionsOf_append_programOf_perm (text : String) :
    (definitionsOf text ++ programOf text).Perm (filled text) :=
  List.filter_append_perm _ _

/-- The lines of a text without carriage returns, told apart by the mark. -/
theorem grouped_filled {text : String} (h : '\r' ∉ text.toList) :
    Grouped (definitionsOf text) (programOf text) where
  filled line hline := by
    have hmem := (definitionsOf_append_programOf_perm text).subset hline
    simpa using (List.mem_filter.1 hmem).2
  oneLine line hline := by
    have hmem := (definitionsOf_append_programOf_perm text).subset hline
    exact Text.oneLine_of_mem_lines h (List.mem_filter.1 hmem).1
  marked line hline := (List.mem_filter.1 hline).2
  unmarked line hline := by simpa using (List.mem_filter.1 hline).2

/-- A text without carriage returns keeps its lines when it is laid out, but for the empty ones :
first those with the mark of definitions, then the others, both in their order. A line behind
another one is empty if and only if the other one has the mark, the text neither begins nor ends
with a line feed, and laid out again it is the same. -/
theorem canonical_layout {text : String} (h : '\r' ∉ text.toList) :
    filled (canonical text) = definitionsOf text ++ programOf text ∧
      (filled (canonical text)).Perm (filled text) ∧
      (Text.lines (canonical text)).IsChain
        (fun line next => next = "" ↔ isDefinition line = true) ∧
      (canonical text).toList.head? ≠ some '\n' ∧ (canonical text).toList.getLast? ≠ some '\n' ∧
      canonical (canonical text) = canonical text := by
  have hgroups := grouped_filled h
  have hlines : Text.lines (canonical text) = rows (definitionsOf text) (programOf text) := by
    rw [canonical_eq, hgroups.lines_join_rows]
  have hfilled : filled (canonical text) = definitionsOf text ++ programOf text := by
    rw [filled, hlines, hgroups.filter_rows]
  refine ⟨hfilled, ?_, ?_, fun hhead => ?_, fun hlast => ?_, ?_⟩
  · rw [hfilled]
    exact definitionsOf_append_programOf_perm text
  · rw [hlines]
    exact hgroups.isChain_rows
  · exact hgroups.head?_ne (hlines ▸ Text.head?_lines hhead)
  · rw [canonical_eq] at hlast
    exact hgroups.getLast?_join_ne hlast
  · rw [canonical_eq (canonical text), definitionsOf, programOf, hfilled,
      hgroups.filter_isDefinition, hgroups.filter_not_isDefinition, ← canonical_eq]

theorem canonical_layout_interspersed :
    '\r' ∉ "a'<b>\nP = 0\n\nQ(x) = x'<x>\nP = 0\n(0 | 0)\n".toList ∧
      canonical "a'<b>\nP = 0\n\nQ(x) = x'<x>\nP = 0\n(0 | 0)\n" =
        "P = 0\n\nQ(x) = x'<x>\n\nP = 0\n\na'<b>\n(0 | 0)" ∧
      canonical "P = 0\n\nQ(x) = x'<x>\n\nP = 0\n\na'<b>\n(0 | 0)" =
        "P = 0\n\nQ(x) = x'<x>\n\nP = 0\n\na'<b>\n(0 | 0)" := by
  have hreturn : '\r' ∉ "a'<b>\nP = 0\n\nQ(x) = x'<x>\nP = 0\n(0 | 0)\n".toList := by decide
  have htext : canonical "a'<b>\nP = 0\n\nQ(x) = x'<x>\nP = 0\n(0 | 0)\n" =
      "P = 0\n\nQ(x) = x'<x>\n\nP = 0\n\na'<b>\n(0 | 0)" := by decide +kernel
  obtain ⟨-, -, -, -, -, hagain⟩ := canonical_layout hreturn
  rw [htext] at hagain
  exact ⟨hreturn, htext, hagain⟩

end Line

end PiBlocks
