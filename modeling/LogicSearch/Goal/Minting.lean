import LogicSearch.Goal.Search
import LogicSearch.Stream.Answer

/-! # Where variables are minted

    A search mints a variable whenever a goal with a fresh variable is
    started in a state, be it when the search starts or in one of its steps.
    `Goal.Mints` and `Search.Mints` say in which state and with which
    label, and `Program.Mints` puts the two together. -/

namespace LogicSearch

variable {sg : Signature}

/-- Starting the goal in the first state mints a variable with the label in
    the second. -/
inductive Goal.Mints (P : Program sg) : {n : Nat} → Goal sg n → Scope n →
    Frame → State → State → String → Prop where
  | here {n : Nat} {label : String} {body : Goal sg (n + 1)}
      {scope : Scope n} {frame : Frame} {st : State} :
      Mints P (.fresh label body) scope frame st st label
  | body {n : Nat} {label other : String} {body : Goal sg (n + 1)}
      {scope : Scope n} {frame : Frame} {st b : State} :
      Mints P body (scope.push (.var (st.fresh label).1)) frame
        (st.fresh label).2 b other →
      Mints P (.fresh label body) scope frame st b other
  /-- The second goal of a conjunction is not started yet. -/
  | conj {n : Nat} {g h : Goal sg n} {scope : Scope n} {frame : Frame}
      {st b : State} {label : String} : Mints P g scope frame st b label →
      Mints P (.conj g h) scope frame st b label
  | left {n : Nat} {g h : Goal sg n} {scope : Scope n} {frame : Frame}
      {st b : State} {label : String} : Mints P g scope frame st b label →
      Mints P (.disj g h) scope frame st b label
  | right {n : Nat} {g h : Goal sg n} {scope : Scope n} {frame : Frame}
      {st b : State} {label : String} : Mints P h scope frame st b label →
      Mints P (.disj g h) scope frame st b label
  | letTerm {n : Nat} {e : Expr n} {body : Goal sg (n + 1)}
      {scope : Scope n} {frame : Frame} {st b : State} {label : String} :
      Mints P body (scope.push (e.eval scope frame)) frame st b label →
      Mints P (.letTerm e body) scope frame st b label

/-- Starting the suspended goal in the first state mints a variable with the
    label in the second. -/
def Closure.Mints (P : Program sg) (c : Closure sg) (st b : State)
    (label : String) : Prop :=
  c.goal.Mints P c.scope c.frame st b label

/-- The next step of the search mints a variable with the label in the
    state: some goal that it starts does. -/
def Search.Mints (P : Program sg) (s : Search sg) (b : State)
    (label : String) : Prop :=
  ∃ c a, s.Starts P.start c a ∧ c.Mints P a b label

/-- The search for the goal mints a variable with the label in the second
    state, when it starts or in some step. -/
def Program.Mints (P : Program sg) (g : Goal sg 0) (st b : State)
    (label : String) : Prop :=
  g.Mints P .empty .outermost st b label ∨
    ∃ s t, P.run g st = .ok s ∧ s.Leads P.start t ∧
      Search.Mints P t b label

end LogicSearch
