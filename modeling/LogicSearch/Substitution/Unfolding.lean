import LogicSearch.Substitution.Graph
import LogicSearch.Substitution.Resolve
import Mathlib.Data.List.Forall2

/-! # Full values without a budget

    What a term stands for in full, and what the traversals of a term do, for
    every substitution, cyclic or not, and without the budget that makes
    `resolve` and `occurs` structural.

    - `Unfolds` replaces bound variables by their values, over and over.
      There is no order in it and no path, so it ends only where no cycle
      can be reached (`AcyclicFrom`).
    - `Traverses` is the recursion of the two traversals as it stands, with
      the path of the variables that it is inside of.  Each of them is a
      `Visitor`.
    - `Fault` says what the errors of a traversal are about, and `Meets`
      which variable is found before any cycle is closed. -/

namespace LogicSearch

namespace Substitution

/-! ## Cycles -/

/-- No variable that can be reached from the term comes back to itself. -/
def AcyclicFrom (s : Substitution) (t : Term) : Prop :=
  ∀ i j, s.ReachesFrom t i → s.Refers i j → ¬ s.Reaches j i

/-- The chain of variables from `x` goes on for ever. -/
def Endless (s : Substitution) (x : Var) : Prop :=
  ∃ chain : Nat → Var, chain 0 = x ∧
    ∀ n, s.get? (chain n) = some (.var (chain (n + 1)))

/-! ## Unfolding -/

/-- The second term is the first with every bound variable replaced by its
    value, and those in the value, too.  The composites are built anew. -/
inductive Unfolds (s : Substitution) : Term → Term → Prop where
  | unbound {x : Var} : s.get? x = none → Unfolds s (.var x) (.var x)
  | bound {x : Var} {t r : Term} : s.get? x = some t → Unfolds s t r →
      Unfolds s (.var x) r
  | atom (a : Atom) : Unfolds s (.atom a) (.atom a)
  | composite {m : Option Mark} {ts rs : List Term} :
      List.Forall₂ (Unfolds s) ts rs →
      Unfolds s (.composite m ts) (.composite none rs)

/-- What the unfoldings of the items hand to that of their composite. -/
theorem Unfolds.induct {s : Substitution} {motive : Term → Term → Prop}
    (unbound : ∀ x, s.get? x = none → motive (.var x) (.var x))
    (bound : ∀ x t r, s.get? x = some t → motive t r → motive (.var x) r)
    (atom : ∀ a, motive (.atom a) (.atom a))
    (composite : ∀ m ts rs, List.Forall₂ motive ts rs →
      motive (.composite m ts) (.composite none rs))
    {t r : Term} (h : s.Unfolds t r) : motive t r := by
  refine @Unfolds.rec s (fun t r _ => motive t r)
    (fun ts rs _ => List.Forall₂ motive ts rs) ?_ ?_ atom ?_ .nil ?_ t r h
  · intro x hx
    exact unbound x hx
  · intro x t r hx _ ih
    exact bound x t r hx ih
  · intro m ts rs _ ih
    exact composite m ts rs ih
  · intro t r ts rs _ _ ih ihs
    exact .cons ih ihs

/-! ## Traversals -/

/-- What a traversal makes of the end of a chain that is no composite, and of
    a term, given what it made of the variables in it.  It looks at no other
    variables, and it fails only where one of them failed. -/
structure Visitor (β : Type) where
  leaf : Term → β
  inside : (Var → Except Error β) → Term → Except Error β
  inside_congr {f g : Var → Except Error β} (t : Term) :
    (∀ x ∈ t.vars, f x = g x) → inside f t = inside g t
  exists_of_error {f : Var → Except Error β} {t : Term} {e : Error} :
    inside f t = .error e → ∃ x ∈ t.vars, f x = .error e

/-- Resolving: the ends of chains stay, and terms are expanded. -/
def Visitor.resolving : Visitor Term where
  leaf := id
  inside := Term.expand
  inside_congr := Term.expand_congr
  exists_of_error := Term.exists_of_expand_error _

/-- The search for a variable among the ends of chains. -/
def Visitor.finding (x : Var) : Visitor Bool where
  leaf t := t.isVar x
  inside := Term.anyVar
  inside_congr := Term.anyVar_congr
  exists_of_error h := Term.exists_of_anyVar _ h fun h => nomatch h

variable {β : Type}

/-- What the traversal makes of a variable met inside the variables of the
    path.  There is no budget: a recursion that did not end would make
    nothing of it. -/
inductive Visits (s : Substitution) (v : Visitor β) :
    List Var → Var → Except Error β → Prop where
  | broken {path : List Var} {x : Var} {e : Error} :
      s.walk (.var x) = .error e → Visits s v path x (.error e)
  | leaf {path : List Var} {x : Var} {u : Term} :
      s.walk (.var x) = .ok u → (∀ m ts, u ≠ .composite m ts) →
      Visits s v path x (.ok (v.leaf u))
  | again {path : List Var} {x : Var} {m : Option Mark} {ts : List Term} :
      s.walk (.var x) = .ok (.composite m ts) → entered path x = true →
      Visits s v path x (.error (.cyclicTerm x))
  | inside {path : List Var} {x : Var} {m : Option Mark} {ts : List Term}
      {f : Var → Except Error β} : s.walk (.var x) = .ok (.composite m ts) →
      entered path x = false →
      (∀ y ∈ (Term.composite m ts).vars, Visits s v (x :: path) y (f y)) →
      Visits s v path x (v.inside f (.composite m ts))

/-- What the traversal of a term comes to. -/
def Traverses (s : Substitution) (v : Visitor β) (t : Term)
    (r : Except Error β) : Prop :=
  ∃ f, (∀ x ∈ t.vars, s.Visits v [] x (f x)) ∧ v.inside f t = r

/-- What is wrong with the values in a term, and the error that says so. -/
inductive Fault (s : Substitution) (t : Term) : Error → Prop where
  /-- The value of a variable that can be reached contains the variable. -/
  | infinite {x : Var} {m : Option Mark} {ts : List Term} :
      s.ReachesFrom t x.id → s.walk (.var x) = .ok (.composite m ts) →
      s.ReachesFrom (.composite m ts) x.id → Fault s t (.cyclicTerm x)
  /-- A chain that can be reached has no end. -/
  | endless {x : Var} : s.ReachesFrom t x.id → s.Endless x →
      Fault s t (.cyclicBinding x (s.size + 1))

/-- Going through the term from left to right, `x` is met before a cycle is
    closed: no variable on the way down to it is entered again, and all that
    lies to the left of the way has a full value. -/
inductive Meets (s : Substitution) (x : Var) : List Var → Term → Prop where
  | here {path : List Var} {y z : Var} : s.walk (.var y) = .ok (.var z) →
      z.same x = true → Meets s x path (.var y)
  | inside {path : List Var} {y : Var} {m : Option Mark} {ts : List Term} :
      s.walk (.var y) = .ok (.composite m ts) → entered path y = false →
      Meets s x (y :: path) (.composite m ts) → Meets s x path (.var y)
  | item {path : List Var} {m : Option Mark} {before after : List Term}
      {t : Term} : (∀ u ∈ before, ∃ r, s.Unfolds u r) → Meets s x path t →
      Meets s x path (.composite m (before ++ t :: after))

end Substitution

end LogicSearch
