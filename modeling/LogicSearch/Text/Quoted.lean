/-! # Quoted text

    A string or a character between quotes.  A backslash stands before the
    quote in use, before a backslash and before the letter that stands for
    a tab, a line end or NUL; the other control characters of the first 128
    code points are written by number; every other character stands for
    itself. -/

namespace LogicSearch.Text

/-- The letter that follows the backslash, for the characters that have
    one. -/
def shortEscape? : Char → Option Char
  | '\x00' => some '0'
  | '\t' => some 't'
  | '\n' => some 'n'
  | '\r' => some 'r'
  | '\\' => some '\\'
  | _ => none

/-- The characters that are written by number: below the blank, and
    delete. -/
def isControl (c : Char) : Bool := c.toNat < 32 || c.toNat == 127

/-- One character between quotes of the given kind. -/
def escape (quote c : Char) : String :=
  match shortEscape? c with
  | some letter => "\\" ++ letter.toString
  | none =>
      if c = quote then "\\" ++ c.toString
      else if isControl c then
        "\\u\x7b" ++ String.ofList (Nat.toDigits 16 c.toNat) ++ "\x7d"
      else c.toString

/-- A text between two quotes. -/
def quoted (quote : Char) (s : List Char) : String :=
  quote.toString ++ String.join (s.map (escape quote)) ++ quote.toString

end LogicSearch.Text
