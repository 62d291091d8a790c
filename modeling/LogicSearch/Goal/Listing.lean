import LogicSearch.Goal.Search
import LogicSearch.Goal.Shape
import LogicSearch.Stream.Listed

/-! # The list reading of a goal

    A goal without suspensions is read as a function from a state to a list
    of answers: depth first and from left to right, a disjunction being a
    concatenation and a conjunction a bind of lists. -/

namespace LogicSearch

variable {sg : Signature}

/-- Collect the lists that a function gives for the elements of a list. -/
def listBind {α β ε : Type} (f : α → Except ε (List β)) :
    List α → Except ε (List β)
  | [] => .ok []
  | a :: as =>
      match f a with
      | .error e => .error e
      | .ok bs =>
          match listBind f as with
          | .error e => .error e
          | .ok cs => .ok (bs ++ cs)

/-- The answers of a goal without suspensions, in order.  A suspended goal
    has no list. -/
def Goal.listing (P : Program sg) {n : Nat} (goal : Goal sg n)
    (scope : Scope n) (frame : Frame) (st : State) :
    Except Abort (List State) :=
  match goal with
  | .eq u v =>
      match st.unify (u.eval scope frame) (v.eval scope frame) with
      | .unified s => .ok [st.withSubstitution s]
      | .clash => .ok []
      | .broken e => .error (.error e)
      | .unanswered => .error .unanswered
  | .succeed => .ok [st]
  | .fail => .ok []
  | .conj g h =>
      match g.listing P scope frame st with
      | .error e => .error e
      | .ok as => listBind (h.listing P scope frame) as
  | .disj g h =>
      match g.listing P scope frame st with
      | .error e => .error e
      | .ok as =>
          match h.listing P scope frame st with
          | .error e => .error e
          | .ok bs => .ok (as ++ bs)
  | .fresh label body =>
      let (x, st') := st.fresh label
      body.listing P (scope.push (.var x)) frame st'
  | .letTerm e body =>
      body.listing P (scope.push (e.eval scope frame)) frame st
  | .host h =>
      match P.host h st with
      | .error e => .error e
      | .ok s => .ok (s.listed?.getD [])
  | _ => .ok []

/-- Host goals give nothing but finished cells. -/
def Program.Finished (P : Program sg) : Prop :=
  ∀ h st s, P.host h st = .ok s → s.listed?.isSome

end LogicSearch
