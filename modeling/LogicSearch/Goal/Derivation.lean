import LogicSearch.Goal.Search
import LogicSearch.Stream.Listed

/-! # Derivations

    The big-step reading of a goal: a derivation takes a state in which a
    goal is started to one of its answers, without any order of search.
    Derivations are data, so that one answer may have several of them. -/

namespace LogicSearch

variable {sg : Signature}

/-- The ways in which a goal takes one state to another. -/
inductive Derivation (P : Program sg) : {n : Nat} → Goal sg n → Scope n →
    Frame → State → State → Type where
  /-- The terms unify. -/
  | eq {n : Nat} {u v : Expr n} {scope : Scope n} {frame : Frame}
      {st : State} {s : Substitution} :
      st.unify (u.eval scope frame) (v.eval scope frame) = .unified s →
      Derivation P (.eq u v) scope frame st (st.withSubstitution s)
  | succeed {n : Nat} {scope : Scope n} {frame : Frame} {st : State} :
      Derivation P .succeed scope frame st st
  /-- The first goal leads to a state from which the second leads on. -/
  | conj {n : Nat} {g h : Goal sg n} {scope : Scope n} {frame : Frame}
      {st b a : State} : Derivation P g scope frame st b →
      Derivation P h scope frame b a →
      Derivation P (.conj g h) scope frame st a
  | left {n : Nat} {g h : Goal sg n} {scope : Scope n} {frame : Frame}
      {st a : State} : Derivation P g scope frame st a →
      Derivation P (.disj g h) scope frame st a
  | right {n : Nat} {g h : Goal sg n} {scope : Scope n} {frame : Frame}
      {st a : State} : Derivation P h scope frame st a →
      Derivation P (.disj g h) scope frame st a
  /-- The body holds of the minted variable. -/
  | fresh {n : Nat} {label : String} {body : Goal sg (n + 1)}
      {scope : Scope n} {frame : Frame} {st a : State} :
      Derivation P body (scope.push (.var (st.fresh label).1)) frame
        (st.fresh label).2 a →
      Derivation P (.fresh label body) scope frame st a
  /-- The body holds of the term. -/
  | letTerm {n : Nat} {e : Expr n} {body : Goal sg (n + 1)}
      {scope : Scope n} {frame : Frame} {st a : State} :
      Derivation P body (scope.push (e.eval scope frame)) frame st a →
      Derivation P (.letTerm e body) scope frame st a
  | delay {n : Nat} {body : Goal sg n} {scope : Scope n}
      {frame : Frame} {st a : State} :
      Derivation P body scope frame st a →
      Derivation P (.delay body) scope frame st a
  | always {n : Nat} {scope : Scope n} {frame : Frame} {st : State} :
      Derivation P .always scope frame st st
  /-- One derivation for every further round. -/
  | again {n : Nat} {scope : Scope n} {frame : Frame} {st a : State} :
      Derivation P .always scope frame st a →
      Derivation P .always scope frame st a
  | call {n : Nat} {site : Nat} {r : sg.Rel} {args : List (Expr n)}
      {fits : args.length = sg.arity r} {scope : Scope n}
      {frame : Frame} {st a : State} :
      Derivation P (P.body r) (scope.evalArgs frame args fits)
        (frame.enter site) st a →
      Derivation P (.call site r args fits) scope frame st a
  /-- One derivation for every place in what a host goal lists. -/
  | host {n : Nat} {h : sg.Host} {scope : Scope n} {frame : Frame}
      {st a : State} {s : Search sg} : P.host h st = .ok s → s.Place a →
      Derivation P (.host h) scope frame st a

/-- The ways in which a goal without free variables takes one state to
    another. -/
abbrev Program.Derives (P : Program sg) (goal : Goal sg 0)
    (st a : State) : Type :=
  Derivation P goal .empty .outermost st a

/-- Host goals give nothing but finished cells and sequences. -/
def Program.Lists (P : Program sg) : Prop :=
  ∀ h st s, P.host h st = .ok s → s.IsListed

end LogicSearch
