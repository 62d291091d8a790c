import LogicSearch.Term.Text

/-! # Errors and aborted searches

    A goal without solutions is no error.  The errors are broken
    substitutions: chains of variables that lead back to themselves,
    variables bound twice, and values that contain themselves. -/

namespace LogicSearch

/-- What is wrong with a substitution. -/
inductive Error where
  /-- The chain of variables from `x` does not end; `steps` bindings were
      followed. -/
  | cyclicBinding (x : Var) (steps : Nat)
  /-- The variable has a value already. -/
  | alreadyBound (x : Var)
  /-- The value of the variable contains the variable. -/
  | cyclicTerm (x : Var)
  deriving DecidableEq, Repr

namespace Error

/-- The text of an error. -/
def message : Error → String
  | cyclicBinding x steps =>
      "binding chain starting at " ++ x.text ++ " is cyclic (gave up after "
        ++ toString steps ++ " steps)"
  | alreadyBound x => "variable " ++ x.text ++ " is already bound"
  | cyclicTerm x => "value of " ++ x.text ++ " is an infinite term"

/-- The error shows a substitution that unification does not build.  An
    infinite value, in contrast, is what unification without the occurs
    check may build. -/
def isInvariantViolation : Error → Bool
  | cyclicBinding _ _ => true
  | alreadyBound _ => true
  | cyclicTerm _ => false

end Error

/-- Why a search was given up. -/
inductive Abort where
  /-- An equation met a broken substitution. -/
  | error (e : Error)
  /-- A host goal gave up with a text of its own. -/
  | host (text : String)
  /-- A host goal counted past the largest number. -/
  | overflow
  /-- A unification has no answer: its terms are infinite. -/
  | unanswered
  deriving DecidableEq, Repr

/-- The text of an aborted search. -/
def Abort.message : Abort → String
  | error e => e.message
  | host text => text
  | overflow => "attempt to add with overflow"
  | unanswered => "unification of infinite terms does not end"

end LogicSearch
