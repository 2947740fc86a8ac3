import PiBlocks.Text.Hidden

/-!
# Quoted texts in messages

A message that cites a text puts it in quotes and shows each character in one of three
ways : as itself, behind a backslash, or by its number when it does not show
(`Text.isHidden`).
-/

namespace PiBlocks.Text

/-- How a character is shown inside the quotes. -/
def showChar (c : Char) : List Char :=
  if c = '\x00' then ['\\', '0']
  else if c = '\t' then ['\\', 't']
  else if c = '\r' then ['\\', 'r']
  else if c = '\n' then ['\\', 'n']
  else if c = '"' then ['\\', '"']
  else if c = '\\' then ['\\', '\\']
  else if isHidden c then '\\' :: 'u' :: '\x7b' :: (Nat.toDigits 16 c.toNat ++ ['\x7d'])
  else [c]

/-- A text in quotes. -/
def quoted (text : String) : String :=
  String.ofList ('"' :: (text.toList.flatMap showChar ++ ['"']))

end PiBlocks.Text
