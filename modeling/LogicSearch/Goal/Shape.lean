import LogicSearch.Goal.Basic
import LogicSearch.Term.Variables

/-! # Kinds of goals

    Predicates on what a goal is built from: no host goals, no suspensions,
    and a condition on the terms that were built before the search and the
    literals of the goal. -/

namespace LogicSearch

namespace Expr

variable {n : Nat}

mutual

/-- Every given term and every literal value of the expression is as
    asked. -/
def All (given : Term → Prop) (literal : Value → Prop) : Expr n → Prop
  | .bound _ => True
  | .given t => given t
  | .atom _ v => literal v
  | .composite _ es => AllIn given literal es
  | .copies _ _ e => All given literal e

/-- The same for every expression of a list. -/
def AllIn (given : Term → Prop) (literal : Value → Prop) :
    List (Expr n) → Prop
  | [] => True
  | e :: es => All given literal e ∧ AllIn given literal es

end

end Expr

namespace Goal

variable {sg : Signature} {n : Nat}

/-- Every given term and every literal value of the goal is as asked. -/
def All (given : Term → Prop) (literal : Value → Prop) :
    {n : Nat} → Goal sg n → Prop
  | _, .eq u v => u.All given literal ∧ v.All given literal
  | _, .succeed => True
  | _, .fail => True
  | _, .conj g h => g.All given literal ∧ h.All given literal
  | _, .disj g h => g.All given literal ∧ h.All given literal
  | _, .fresh _ body => body.All given literal
  | _, .letTerm e body => e.All given literal ∧ body.All given literal
  | _, .delay body => body.All given literal
  | _, .always => True
  | _, .never => True
  | _, .call _ _ args _ => Expr.AllIn given literal args
  | _, .host _ => True

/-- The goal has no host goals. -/
def HostFree : {n : Nat} → Goal sg n → Prop
  | _, .conj g h => g.HostFree ∧ h.HostFree
  | _, .disj g h => g.HostFree ∧ h.HostFree
  | _, .fresh _ body => body.HostFree
  | _, .letTerm _ body => body.HostFree
  | _, .delay body => body.HostFree
  | _, .host _ => False
  | _, _ => True

/-- The goal writes no value that is not equal to itself.  Its given terms
    may hold such values. -/
def NaNFree (g : Goal sg n) : Prop :=
  g.All (fun _ => True) fun v => v.isNaN = false

/-- Nothing in the goal is suspended. -/
def Immediate : {n : Nat} → Goal sg n → Prop
  | _, .eq _ _ => True
  | _, .succeed => True
  | _, .fail => True
  | _, .conj g h => g.Immediate ∧ h.Immediate
  | _, .disj g h => g.Immediate ∧ h.Immediate
  | _, .fresh _ body => body.Immediate
  | _, .letTerm _ body => body.Immediate
  | _, .delay _ => False
  | _, .always => False
  | _, .never => False
  | _, .call _ _ _ _ => False
  | _, .host _ => True

/-- The goal mentions no variable but those it introduces. -/
def Closed (g : Goal sg n) : Prop :=
  g.All (fun t => t.IsGround) fun _ => True

end Goal

namespace Program

variable {sg : Signature}

/-- No relation uses a host goal. -/
def HostFree (P : Program sg) : Prop := ∀ r, (P.body r).HostFree

/-- No relation writes a value that is not equal to itself. -/
def NaNFree (P : Program sg) : Prop := ∀ r, (P.body r).NaNFree

/-- Relations mention nothing but their parameters and the variables they
    introduce. -/
def Closed (P : Program sg) : Prop := ∀ r, (P.body r).Closed

end Program

end LogicSearch
