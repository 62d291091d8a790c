import LogicSearch.State
import LogicSearch.Stream.Basic

/-! # Goals and programs

    A goal is a tree over a signature of relations.  Variables bound by
    `fresh`, terms named by `letTerm` and the parameters of a relation are
    numbered from the outside in, so a goal of type `Goal sg n` makes sense
    wherever `n` terms are in scope, and a relation's body sees nothing but
    its parameters and what it introduces itself. -/

namespace LogicSearch

/-- `n` terms in scope, the outermost first. -/
structure Scope (n : Nat) where
  terms : List Term
  length_terms : terms.length = n

namespace Scope

/-- No terms in scope. -/
def empty : Scope 0 := ⟨[], rfl⟩

/-- The term with the given number. -/
def get {n : Nat} (scope : Scope n) (i : Fin n) : Term :=
  scope.terms.get (i.cast scope.length_terms.symm)

/-- One more term in scope. -/
def push {n : Nat} (scope : Scope n) (t : Term) : Scope (n + 1) :=
  ⟨scope.terms ++ [t], by simp [scope.length_terms]⟩

theorem get_eq_getElem {n : Nat} (scope : Scope n) (i : Fin n)
    (h : i.val < scope.terms.length) : scope.get i = scope.terms[i.val] :=
  rfl

/-- A pushed term has the highest number. -/
theorem get_push_last {n : Nat} (scope : Scope n) (t : Term) :
    (scope.push t).get (Fin.last n) = t := by
  have hn : n < (scope.push t).terms.length := by
    rw [(scope.push t).length_terms]
    exact Nat.lt_succ_self n
  rw [get_eq_getElem _ _ hn]
  exact List.getElem_concat_length scope.length_terms.symm hn

/-- The other terms keep their numbers. -/
theorem get_push_castSucc {n : Nat} (scope : Scope n) (t : Term)
    (i : Fin n) : (scope.push t).get i.castSucc = scope.get i := by
  have hi : i.val < scope.terms.length := by
    rw [scope.length_terms]
    exact i.isLt
  have hi' : i.castSucc.val < (scope.push t).terms.length := by
    rw [(scope.push t).length_terms]
    exact i.castSucc.isLt
  rw [get_eq_getElem _ _ hi', get_eq_getElem _ _ hi]
  exact List.getElem_append_left hi

end Scope

/-- A term as it is written in a goal with `n` terms in scope. -/
inductive Expr (n : Nat) where
  /-- A term in scope. -/
  | bound (i : Fin n)
  /-- A term that was built before the search. -/
  | given (t : Term)
  /-- A literal value. -/
  | atom (site : Nat) (v : Value)
  /-- A literal composite. -/
  | composite (site : Nat) (items : List (Expr n))
  /-- A composite that holds one term `count` times. -/
  | copies (site count : Nat) (item : Expr n)

namespace Expr

variable {n : Nat}

mutual

/-- The term that is meant, given the terms in scope and the calls on the
    way, which start in the frame of the run. -/
def eval (scope : Scope n) (frame : Frame) : Expr n → Term
  | .bound i => scope.get i
  | .given t => t
  | .atom site v => .atom ⟨v, ⟨site, frame⟩⟩
  | .composite site es =>
      .composite (some ⟨site, frame⟩) (evalAll scope frame es)
  | .copies site count e =>
      .composite (some ⟨site, frame⟩)
        (List.replicate count (eval scope frame e))

/-- The terms that are meant by a list. -/
def evalAll (scope : Scope n) (frame : Frame) :
    List (Expr n) → List Term
  | [] => []
  | e :: es => eval scope frame e :: evalAll scope frame es

end

theorem length_evalAll (scope : Scope n) (frame : Frame)
    (es : List (Expr n)) : (evalAll scope frame es).length = es.length := by
  induction es with
  | nil => rfl
  | cons e es ih => rw [evalAll, List.length_cons, ih, List.length_cons]

end Expr

/-- The scope of a relation's body: the arguments of a call. -/
def Scope.evalArgs {n k : Nat} (scope : Scope n) (frame : Frame)
    (args : List (Expr n)) (fits : args.length = k) : Scope k :=
  ⟨Expr.evalAll scope frame args, by rw [Expr.length_evalAll, fits]⟩

/-- The relations of a program with their numbers of parameters, and the
    names of its host goals. -/
structure Signature where
  Rel : Type
  arity : Rel → Nat
  Host : Type

/-- A goal with `n` terms in scope. -/
inductive Goal (sg : Signature) : Nat → Type where
  /-- The two terms are equal. -/
  | eq {n : Nat} (u v : Expr n) : Goal sg n
  | succeed {n : Nat} : Goal sg n
  | fail {n : Nat} : Goal sg n
  /-- Both goals hold. -/
  | conj {n : Nat} (g h : Goal sg n) : Goal sg n
  /-- One of the goals holds. -/
  | disj {n : Nat} (g h : Goal sg n) : Goal sg n
  /-- The body holds of a new variable. -/
  | fresh {n : Nat} (label : String) (body : Goal sg (n + 1)) : Goal sg n
  /-- The body holds of the term, which is built once. -/
  | letTerm {n : Nat} (e : Expr n) (body : Goal sg (n + 1)) : Goal sg n
  /-- The body, after a pause. -/
  | delay {n : Nat} (body : Goal sg n) : Goal sg n
  /-- Holds without end. -/
  | always {n : Nat} : Goal sg n
  /-- Neither holds nor comes to an end. -/
  | never {n : Nat} : Goal sg n
  /-- The relation holds of the arguments; its body starts after a pause. -/
  | call {n : Nat} (site : Nat) (r : sg.Rel) (args : List (Expr n))
      (fits : args.length = sg.arity r) : Goal sg n
  /-- A goal that the host program supplies. -/
  | host {n : Nat} (h : sg.Host) : Goal sg n

namespace Goal

variable {sg : Signature} {n : Nat}

/-- All goals of a list hold, nested to the right. -/
def conjAll : List (Goal sg n) → Goal sg n
  | [] => .succeed
  | [g] => g
  | g :: h :: gs => .conj g (conjAll (h :: gs))

/-- The written form of a goal says nothing about its inside. -/
def text (_ : Goal sg n) : String := "<goal>"

/-- Some goal of a list holds, nested to the right. -/
def disjAll : List (Goal sg n) → Goal sg n
  | [] => .fail
  | [g] => g
  | g :: h :: gs => .disj g (disjAll (h :: gs))

end Goal

/-- A goal that waits for a state, with the terms in its scope and the calls
    on the way to it, innermost first. -/
structure Closure (sg : Signature) where
  size : Nat
  goal : Goal sg size
  scope : Scope size
  frame : Frame

/-- A search over a signature. -/
abbrev Search (sg : Signature) := Stream State (Closure sg)

/-- What the relations and the host goals of a signature mean. -/
structure Program (sg : Signature) where
  body : (r : sg.Rel) → Goal sg (sg.arity r)
  host : sg.Host → State → Except Abort (Search sg)

end LogicSearch
