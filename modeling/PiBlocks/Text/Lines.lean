/-!
# Lines

A line ends at a line feed, which one carriage return may precede ; neither belongs to
the line. A text that ends with a line feed has no empty line after it. `join` is the
way back : lines joined with line feeds.
-/

namespace PiBlocks.Text

/-- The lines of a list of characters. -/
def linesOf : List Char → List (List Char)
  | [] => []
  | '\r' :: '\n' :: rest => [] :: linesOf rest
  | '\n' :: rest => [] :: linesOf rest
  | c :: rest =>
    match linesOf rest with
    | [] => [[c]]
    | line :: more => (c :: line) :: more

/-- The lines of a text. -/
def lines (text : String) : List String := (linesOf text.toList).map String.ofList

/-- Texts joined with a separator between neighbours. -/
def join (separator : String) : List String → String
  | [] => ""
  | [text] => text
  | text :: more => text ++ (separator ++ join separator more)

@[simp] theorem join_nil (separator : String) : join separator [] = "" := rfl

@[simp] theorem join_singleton (separator text : String) : join separator [text] = text := rfl

theorem join_cons_cons (separator first second : String) (more : List String) :
    join separator (first :: second :: more)
      = first ++ (separator ++ join separator (second :: more)) := rfl

/-- Whether `part` occurs in `text`. -/
def occursIn (part : List Char) : List Char → Bool
  | [] => part.isEmpty
  | c :: rest => part.isPrefixOf (c :: rest) || occursIn part rest

/-- Whether `part` occurs in `text`. -/
def contains (text part : String) : Bool := occursIn part.toList text.toList

end PiBlocks.Text
