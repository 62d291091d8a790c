import LogicSearch.Goal.Basic

/-! # Searching for the states in which a goal holds

    Applying a goal to a state starts a search.  Both sides of a disjunction
    are started at once and take turns; the second goal of a conjunction is
    started on every answer of the first, when that answer is reached.  A
    delayed goal, a call and the two goals without end only leave a piece of
    suspended work behind, so every application ends. -/

namespace LogicSearch

variable {sg : Signature}

/-- An equation answers with the unified state, and gives the search up if
    the substitution is broken. -/
def equate (st : State) (u v : Term) : Except Abort (Search sg) :=
  match st.unify u v with
  | .unified s => .ok (.single (st.withSubstitution s))
  | .clash => .ok .empty
  | .broken e => .error (.error e)
  | .unanswered => .error .unanswered

/-- Start the search for a goal in a state. -/
def Goal.apply (P : Program sg) {n : Nat} (goal : Goal sg n)
    (scope : Scope n) (frame : Frame) (st : State) :
    Except Abort (Search sg) :=
  match goal with
  | .eq u v => equate st (u.eval scope frame) (v.eval scope frame)
  | .succeed => .ok (.single st)
  | .fail => .ok .empty
  | .conj g h =>
      match g.apply P scope frame st with
      | .error e => .error e
      -- the second goal waits for an answer of the first
      | .ok s => .ok (s.bind ⟨n, h, scope, frame⟩)
  | .disj g h =>
      match g.apply P scope frame st with
      | .error e => .error e
      | .ok s =>
          match h.apply P scope frame st with
          | .error e => .error e
          | .ok t => .ok (s.merge t)
  | .fresh label body =>
      let (x, st') := st.fresh label
      body.apply P (scope.push (.var x)) frame st'
  | .letTerm e body =>
      body.apply P (scope.push (e.eval scope frame)) frame st
  | .delay body => .ok (.call ⟨n, body, scope, frame⟩ st)
  | .always => .ok (.call ⟨n, .disj .succeed .always, scope, frame⟩ st)
  | .never => .ok (.call ⟨n, .never, scope, frame⟩ st)
  | .call site r args fits =>
      let inner := scope.evalArgs frame args fits
      .ok (.call ⟨sg.arity r, P.body r, inner, frame.enter site⟩ st)
  | .host h => P.host h st

namespace Program

/-- Start a suspended goal in a state. -/
def start (P : Program sg) (c : Closure sg) (st : State) :
    Except Abort (Search sg) :=
  c.goal.apply P c.scope c.frame st

/-- Start a goal without free variables in a state. -/
def run (P : Program sg) (goal : Goal sg 0) (st : State) :
    Except Abort (Search sg) :=
  goal.apply P .empty .outermost st

/-- Start a goal without free variables in a run of its own.  Two runs of one
    goal write its literals twice, as different objects, so each run has a
    frame; an object that both runs find is a given term of the goal. -/
def runIn (P : Program sg) (frame : Frame) (goal : Goal sg 0) (st : State) :
    Except Abort (Search sg) :=
  goal.apply P .empty frame st

/-- Start a goal in the state in which nothing is bound. -/
def solve (P : Program sg) (goal : Goal sg 0) (config : Config) :
    Except Abort (Search sg) :=
  P.run goal (.initial config)

/-- Up to `count` answers of a search, and how the pulling ended. -/
def harvest (P : Program sg) (fuel count : Nat) (s : Search sg) :
    List State × Harvest State (Closure sg) Abort :=
  s.harvest P.start fuel count

end Program

end LogicSearch
