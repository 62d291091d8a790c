import LogicSearch.Goal.Search

/-! # Host goals

    Goals that stand outside the language: goals that repeat their state,
    from a sequence or as finished answers, a goal that gives the search up,
    and streams of numbered states.  The numbers are signed integers of 32
    bits; counting past the largest gives the search up. -/

namespace LogicSearch

/-- The host goals at hand. -/
inductive HostGoal where
  /-- Gives the search up with a text. -/
  | abort (text : String)
  /-- The state over and over, from an endless sequence. -/
  | endless
  /-- The state `n` times, from a sequence. -/
  | times (n : Nat)
  /-- The state `n` times, as finished answers. -/
  | finished (n : Nat)
  /-- The states numbered `n`, `n + 1` and so on, with a pause before
      each. -/
  | countFrom (n : Int)
  /-- The states numbered `n`, `n + 1` and so on, with a pause after each. -/
  | sequenceFrom (n : Int)
  /-- The state numbered `n` over and over, with a pause before each. -/
  | repeating (n : Int)

/-- The signature of some relations with the host goals at hand. -/
def Signature.hosted (Rel : Type) (arity : Rel → Nat) : Signature :=
  { Rel, arity, Host := HostGoal }

/-- A plain number. -/
def Term.number (n : Int) : Term :=
  .atom ⟨.int .signed32 n, ⟨0, .outermost⟩⟩

/-- The state that binds one variable, labelled `n`, to a plain number. -/
def State.numbered (n : Int) : State :=
  let (x, st) := (State.initial {}).fresh "n"
  match st.unify (.var x) (.number n) with
  | .unified s => st.withSubstitution s
  | _ => st

namespace HostGoal

variable {Rel : Type} {arity : Rel → Nat}

/-- The number after `n`, if it still fits. -/
def successor (n : Int) : Except Abort Int :=
  if n < 2147483647 then .ok (n + 1) else .error .overflow

/-- A host goal as suspended work. -/
def closure (h : HostGoal) : Closure (.hosted Rel arity) :=
  { size := 0, goal := .host h, scope := .empty, frame := .outermost }

/-- A host goal that waits to be started. -/
def suspended (h : HostGoal) : Search (.hosted Rel arity) :=
  .call h.closure (.initial {})

/-- Start a host goal in a state. -/
def apply (h : HostGoal) (st : State) :
    Except Abort (Search (.hosted Rel arity)) :=
  match h with
  | abort text => .error (.host text)
  | endless => .ok (.source (fun _ => some st) 0)
  | times n => .ok (.source (fun i => if i < n then some st else none) 0)
  | finished n => .ok (.cells (List.replicate n st))
  | countFrom n =>
      -- the next number is taken first, so the largest is never answered
      match successor n with
      | .error e => .error e
      | .ok m => .ok (.cons (.numbered n) (.call (countFrom m).closure st))
  | sequenceFrom n =>
      match successor n with
      | .error e => .error e
      | .ok m =>
          -- a single answer starts the rest without a pause of its own
          let rest := .forEach (.single st) (sequenceFrom m).closure
          .ok (.cons (.numbered n) (.pause rest))
  | repeating n =>
      .ok (.cons (.numbered n) (.call (repeating n).closure st))

end HostGoal

/-- The states numbered `a`, `a + 1` and so on, one by one, up to the number
    before the largest; the step after that gives the search up. -/
def Search.numberedFrom {Rel : Type} {arity : Rel → Nat} (a : Int) :
    Search (.hosted Rel arity) :=
  .forEach (.single (.initial {})) (HostGoal.sequenceFrom a).closure

/-- The states numbered `a`, `a + 1` and so on below `b`, one by one. -/
def Search.numberedRange {sg : Signature} (a b : Int) : Search sg :=
  .source (fun i => if a + i < b then some (.numbered (a + i)) else none) 0

end LogicSearch
