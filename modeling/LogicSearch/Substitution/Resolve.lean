import LogicSearch.Substitution.Basic
import LogicSearch.Term.Traverse

/-! # Full values and occurrence

    Both traversals of this module go through the value of every variable
    they meet.  They keep the variables they are inside of, as written in
    the term; a variable met again inside its own value makes the value
    infinite.

    The variables on a path are bound and different from each other, so a
    path is never longer than the number of bindings.  That number is the
    budget which makes the recursion structural (`resolve` and `occurs`
    start with it).

    The composites of a full value are new objects.  `resolve` says what they
    hold, and `resolveAt` also which objects they are, as does a literal at
    some place of the program. -/

namespace LogicSearch.Substitution

/-- `x` is one of the variables of a path. -/
def entered (path : List Var) (x : Var) : Bool :=
  path.any fun y => y.same x

/-- The full value of a variable met inside the variables of `path`. -/
def resolveVar (s : Substitution) (budget : Nat) (path : List Var)
    (x : Var) : Except Error Term :=
  match s.walk (.var x) with
  | .error e => .error e
  | .ok (.composite m ts) =>
      if entered path x then .error (.cyclicTerm x)
      else
        match budget with
        | 0 => .error (.cyclicTerm x)
        | budget + 1 =>
            Term.expand (resolveVar s budget (x :: path)) (.composite m ts)
  | .ok t => .ok t

/-- The term with every variable replaced by its full value; unbound
    variables stay. -/
def resolve (s : Substitution) (t : Term) : Except Error Term :=
  t.expand (s.resolveVar s.size [])

/-- The full value as it is built at one place of the program: each of its
    composites has a mark, so the value is shared with its copies. -/
def resolveAt (s : Substitution) (site : Nat) (frame : Frame) (t : Term) :
    Except Error Term :=
  (s.resolve t).map (Term.marked site frame)

/-- `y`, met inside the variables of `path`, is `x` or has a value that
    contains `x`. -/
def occursVar (s : Substitution) (x : Var) (budget : Nat) (path : List Var)
    (y : Var) : Except Error Bool :=
  match s.walk (.var y) with
  | .error e => .error e
  | .ok (.var z) => .ok (z.same x)
  | .ok (.atom _) => .ok false
  | .ok (.composite m ts) =>
      if entered path y then .error (.cyclicTerm y)
      else
        match budget with
        | 0 => .error (.cyclicTerm y)
        | budget + 1 =>
            Term.anyVar (occursVar s x budget (y :: path)) (.composite m ts)

/-- The full value of the term contains `x`. -/
def occurs (s : Substitution) (x : Var) (t : Term) : Except Error Bool :=
  t.anyVar (s.occursVar x s.size [])

end LogicSearch.Substitution
