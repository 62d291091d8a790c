import LogicSearch.Config
import LogicSearch.Substitution.Resolve

/-! # Unification

    Two terms are made equal by binding variables.  Both terms are followed
    to the ends of their chains first.  Of two variables the younger, with
    the larger id, is bound to the older; composites of one length are
    unified item by item, from left to right, each item under the bindings
    of the items before it.

    The values of variables may be infinite when the occurs check is off, so
    the recursion counts its depth.  `unifyAt` is unification down to a
    given depth; `unify` goes as deep as any unification that has an answer
    can go (`depthBound`). -/

namespace LogicSearch

/-- What came of a unification. -/
inductive Outcome where
  /-- The terms are equal under this substitution. -/
  | unified (s : Substitution)
  /-- Nothing makes the terms equal. -/
  | clash
  /-- The substitution was broken. -/
  | broken (e : Error)
  /-- The terms are infinite, or the depth was too small. -/
  | unanswered

namespace Substitution

/-- Add a binding; a variable that is bound already breaks the
    substitution. -/
def assign (s : Substitution) (x : Var) (t : Term) : Outcome :=
  match s.extend x t with
  | .ok s' => .unified s'
  | .error e => .broken e

/-- Bind an unbound variable, unless the occurs check forbids it. -/
def bind (config : Config) (s : Substitution) (x : Var) (t : Term) :
    Outcome :=
  if config.occursCheck then
    match s.occurs x t with
    | .error e => .broken e
    | .ok true => .clash
    | .ok false => s.assign x t
  else s.assign x t

/-- Unify two lists of one length, item by item. -/
def unifyAll (unify : Substitution → Term → Term → Outcome) :
    Substitution → List Term → List Term → Outcome
  | s, t :: ts, u :: us =>
      match unify s t u with
      | .unified s' => unifyAll unify s' ts us
      | stopped => stopped
  | s, _, _ => .unified s

/-- Unify two terms that are the ends of their chains. -/
def unifyEnds (config : Config)
    (unify : Substitution → Term → Term → Outcome) (s : Substitution)
    (u v : Term) : Outcome :=
  if u.shared v then .unified s
  else
    match u, v with
    | .var x, .var y =>
        if y.id < x.id then s.bind config x v else s.bind config y u
    | .var x, _ => s.bind config x v
    | _, .var y => s.bind config y u
    | .composite _ ts, .composite _ us =>
        if ts.length = us.length then unifyAll unify s ts us else .clash
    | .atom a, .atom b => if a.equal b then .unified s else .clash
    | _, _ => .clash

/-- Unification down to the given depth. -/
def unifyAt (config : Config) : Nat → Substitution → Term → Term → Outcome
  | 0, _, _, _ => .unanswered
  | depth + 1, s, u, v =>
      match s.walk u with
      | .error e => .broken e
      | .ok u' =>
          match s.walk v with
          | .error e => .broken e
          | .ok v' => unifyEnds config (unifyAt config depth) s u' v'

/-- The nodes of all values. -/
def nodes (s : Substitution) : Nat :=
  Term.nodesAll (s.bindings.map (·.value))

/-- A depth that no unification with an answer exceeds.  The terms met on
    the way down are among the nodes there are; a pair of them can only come
    up again after a further variable was bound, and the unbound variables
    are among the nodes, too. -/
def depthBound (s : Substitution) (u v : Term) : Nat :=
  let count := s.nodes + u.nodes + v.nodes + 1
  count * count * count

/-- A depth that no unification reaches whose terms fit into memory. -/
def ampleDepth : Nat := 1099511627776

/-- Make two terms equal.  The ample depth is tried first: the bound takes a
    count over all nodes, and a term that holds its parts many times over has
    far more nodes than it takes memory.  More depth changes no answer. -/
def unify (config : Config) (s : Substitution) (u v : Term) : Outcome :=
  match unifyAt config ampleDepth s u v with
  | .unanswered => unifyAt config (s.depthBound u v) s u v
  | answer => answer

end Substitution

end LogicSearch
