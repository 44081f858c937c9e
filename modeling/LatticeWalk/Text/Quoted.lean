import LatticeWalk.Text.Visible

/-! # Quoted texts

A text in double quotes, in which quote and backslash stand behind a backslash, the common controls
have a letter of their own and every other invisible character is given by its number.

* `quote`: a text in quotes.
* `quoteList`: a list of texts in brackets. -/

namespace LatticeWalk.Text

/-- A code point by its number in hexadecimal. -/
def byNumber (c : Char) : List Char :=
  ['\\', 'u', '\x7b'] ++ Nat.toDigits 16 c.toNat ++ ['\x7d']

/-- One character inside quotes. -/
def quoteChar (c : Char) : List Char :=
  if c = '"' then ['\\', '"']
  else if c = '\\' then ['\\', '\\']
  else if c = '\n' then ['\\', 'n']
  else if c = '\r' then ['\\', 'r']
  else if c = '\t' then ['\\', 't']
  else if c = Char.ofNat 0 then ['\\', '0']
  else if isVisible c then [c]
  else byNumber c

/-- A text in quotes. -/
def quote (s : String) : String :=
  String.ofList (['"'] ++ s.toList.flatMap quoteChar ++ ['"'])

/-- Quoted texts in brackets, with commas between them. -/
def quoteList (texts : List String) : String :=
  "[" ++ ", ".intercalate (texts.map quote) ++ "]"

end LatticeWalk.Text
