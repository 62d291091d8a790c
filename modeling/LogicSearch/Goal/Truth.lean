import LogicSearch.Goal.Basic
import LogicSearch.Substitution.Model

/-! # Truth

    The reading of a goal without any search: under an assignment of terms
    without variables, an equation holds if its sides stand for equal terms,
    and the relations are the least that their bodies make true.  So
    `always` holds and `never` does not. -/

namespace LogicSearch

variable {sg : Signature}

/-- The goal is true under the assignment. -/
inductive Holds (P : Program sg) (θ : Assignment) : {n : Nat} →
    Goal sg n → Scope n → Frame → Prop where
  | eq {n : Nat} {u v : Expr n} {scope : Scope n} {frame : Frame} :
      θ.Equates (u.eval scope frame) (v.eval scope frame) →
      Holds P θ (.eq u v) scope frame
  | succeed {n : Nat} {scope : Scope n} {frame : Frame} :
      Holds P θ .succeed scope frame
  | conj {n : Nat} {g h : Goal sg n} {scope : Scope n}
      {frame : Frame} : Holds P θ g scope frame →
      Holds P θ h scope frame → Holds P θ (.conj g h) scope frame
  | left {n : Nat} {g h : Goal sg n} {scope : Scope n}
      {frame : Frame} : Holds P θ g scope frame →
      Holds P θ (.disj g h) scope frame
  | right {n : Nat} {g h : Goal sg n} {scope : Scope n}
      {frame : Frame} : Holds P θ h scope frame →
      Holds P θ (.disj g h) scope frame
  /-- The body holds of some term without variables. -/
  | fresh {n : Nat} {label : String} {body : Goal sg (n + 1)}
      {scope : Scope n} {frame : Frame} (t : Term) : t.IsGround →
      Holds P θ body (scope.push t) frame →
      Holds P θ (.fresh label body) scope frame
  /-- The body holds of the term. -/
  | letTerm {n : Nat} {e : Expr n} {body : Goal sg (n + 1)}
      {scope : Scope n} {frame : Frame} :
      Holds P θ body (scope.push (e.eval scope frame)) frame →
      Holds P θ (.letTerm e body) scope frame
  | delay {n : Nat} {body : Goal sg n} {scope : Scope n}
      {frame : Frame} : Holds P θ body scope frame →
      Holds P θ (.delay body) scope frame
  | always {n : Nat} {scope : Scope n} {frame : Frame} :
      Holds P θ .always scope frame
  | call {n : Nat} {site : Nat} {r : sg.Rel} {args : List (Expr n)}
      {fits : args.length = sg.arity r} {scope : Scope n}
      {frame : Frame} :
      Holds P θ (P.body r) (scope.evalArgs frame args fits)
        (frame.enter site) →
      Holds P θ (.call site r args fits) scope frame

end LogicSearch
