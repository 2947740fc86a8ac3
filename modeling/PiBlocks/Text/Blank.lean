/-!
# White space

White space is what the Unicode property `White_Space` lists. It decides when a piece of
text is blank and what trimming takes away ; the space a JSON text allows between its
tokens is a smaller set and is treated where JSON is read.
-/

namespace PiBlocks.Text

/-- The characters with the property `White_Space`. -/
def isSpace (c : Char) : Bool :=
  let n := c.toNat
  (9 ≤ n && n ≤ 13) || n == 0x20 || n == 0x85 || n == 0xA0 || n == 0x1680
    || (0x2000 ≤ n && n ≤ 0x200A) || n == 0x2028 || n == 0x2029 || n == 0x202F
    || n == 0x205F || n == 0x3000

/-- Nothing but white space, or nothing at all. -/
def isBlank (text : String) : Bool := text.toList.all isSpace

theorem isBlank_empty : isBlank "" = true := rfl

theorem isBlank_append (a b : String) : isBlank (a ++ b) = (isBlank a && isBlank b) := by
  simp [isBlank, String.toList_append]

theorem ne_empty_of_not_blank {text : String} (h : isBlank text = false) : text ≠ "" := by
  rintro rfl
  cases h

/-- The characters without the white space at their end. -/
def trimRight (chars : List Char) : List Char :=
  (chars.reverse.dropWhile isSpace).reverse

/-- The text without the white space at its end. -/
def trimEnd (text : String) : String := String.ofList (trimRight text.toList)

/-- The text without the white space at both ends. -/
def trim (text : String) : String := String.ofList (trimRight (text.toList.dropWhile isSpace))

end PiBlocks.Text
