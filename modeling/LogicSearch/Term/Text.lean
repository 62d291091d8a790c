import LogicSearch.Term.Basic

/-! # Written terms

    A variable is written as its label and its id, an atom as its value, a
    composite as its items between round brackets.  `Term.write` writes on
    after a text, so that no part of a deep term is copied again on every
    level. -/

namespace LogicSearch

/-- The written form of a variable. -/
def Var.text (x : Var) : String := x.label ++ "#" ++ toString x.id

namespace Term

mutual

/-- Write a term after what is written already. -/
def write (out : String) : Term → String
  | .var x => out ++ x.text
  | .atom a => out ++ a.value.text
  | .composite _ ts => writeAll (out ++ "(") ts ++ ")"

/-- Write the terms of a list, with a blank between two of them. -/
def writeAll (out : String) : List Term → String
  | [] => out
  | [t] => write out t
  | t :: u :: us => writeAll (write out t ++ " ") (u :: us)

end

/-- The written form of a term. -/
def text (t : Term) : String := t.write ""

end Term

end LogicSearch
