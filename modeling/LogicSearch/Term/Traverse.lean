import LogicSearch.Term.Basic

/-! # Walking over the variables of a term

    Two traversals that meet the variables of a term from left to right and
    leave the treatment of one variable to their argument, which may fail.
    The first failure ends a traversal. -/

namespace LogicSearch.Term

variable {ε : Type}

mutual

/-- Replace every variable by its expansion.  The composites on the way are
    built anew. -/
def expand (f : Var → Except ε Term) : Term → Except ε Term
  | .var x => f x
  | .atom a => .ok (.atom a)
  | .composite _ ts => (expandAll f ts).map (.composite none)

/-- Expand the terms of a list, from left to right. -/
def expandAll (f : Var → Except ε Term) : List Term → Except ε (List Term)
  | [] => .ok []
  | t :: ts =>
      match expand f t with
      | .error e => .error e
      | .ok t' =>
          match expandAll f ts with
          | .error e => .error e
          | .ok ts' => .ok (t' :: ts')

end

mutual

/-- Some variable of the term passes the test; the search ends at the first
    that does. -/
def anyVar (f : Var → Except ε Bool) : Term → Except ε Bool
  | .var x => f x
  | .atom _ => .ok false
  | .composite _ ts => anyVarAll f ts

/-- Some variable of some term of the list passes the test. -/
def anyVarAll (f : Var → Except ε Bool) : List Term → Except ε Bool
  | [] => .ok false
  | t :: ts =>
      match anyVar f t with
      | .error e => .error e
      | .ok true => .ok true
      | .ok false => anyVarAll f ts

end

end LogicSearch.Term
