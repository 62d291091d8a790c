import LogicSearch.Goal.Search
import LogicSearch.Stream.Answer
import LogicSearch.Stream.Turn
import Mathlib.Data.List.Basic
import Mathlib.Logic.Equiv.Defs

/-! # What goals have in common when they are pulled

    Two goals may be pulled alike in several ways: turn by turn
    (`SameTurns`), answer by answer where nothing pauses (`SameLists`), or up
    to the order of their answers (`SameAnswers`).  The goals may be of any
    kind, host goals among them, so they stand for arbitrary functions from
    states to streams; `Timely` and `Prompt` say what is asked of them.

    `nest` nests the goals of a list to the right, and `foldBack` does so
    from the last goal to the first (`foldBack_eq_nest`). -/

namespace LogicSearch.Goal

variable {sg : Signature} {n : Nat}

/-! ## Pulling a goal -/

section Pulling

variable (P : Program sg) (scope : Scope n) (frame : Frame)

/-- The search for the goal is started in the state, and its turns are those
    of `T`. -/
def Takes (g : Goal sg n) (st : State) (T : Stream.Turns State) : Prop :=
  ∃ s, g.apply P scope frame st = .ok s ∧ s.HasTurns P.start T

/-- The search for the goal comes to its end without a pause, with these
    answers. -/
def Finishes (g : Goal sg n) (st : State) (as : List State) : Prop :=
  ∃ s, g.apply P scope frame st = .ok s ∧ s.Turn P.start as none

/-- In every state the search for the goal can be started, and each of its
    turns comes to its end.  There may be turns without end. -/
def Timely (g : Goal sg n) : Prop :=
  ∀ st, ∃ T, g.Takes P scope frame st T

/-- In no state does the search for the goal pause. -/
def Prompt (g : Goal sg n) : Prop :=
  ∀ st, ∃ as, g.Finishes P scope frame st as

/-- The pulls of the search for the goal that answer `a`, by their
    numbers. -/
def Pulls (g : Goal sg n) (st a : State) : Type :=
  {k : Nat // ∃ s, g.apply P scope frame st = .ok s ∧ s.Nth P.start k a}

/-- Every answer of the one goal is an answer of the other, as often. -/
def SameAnswers (g h : Goal sg n) : Prop :=
  ∀ st a, Nonempty (g.Pulls P scope frame st a ≃ h.Pulls P scope frame st a)

/-- The goals have the same turns. -/
def SameTurns (g h : Goal sg n) : Prop :=
  ∀ st T, g.Takes P scope frame st T ↔ h.Takes P scope frame st T

/-- The goals come to their end with the same answers, in the same order. -/
def SameLists (g h : Goal sg n) : Prop :=
  ∀ st as, g.Finishes P scope frame st as ↔ h.Finishes P scope frame st as

end Pulling

/-! ## Nests -/

section Nests

variable (unit : Goal sg n) (op : Goal sg n → Goal sg n → Goal sg n)

/-- The goals of a list, nested to the right. -/
def nest : List (Goal sg n) → Goal sg n
  | [] => unit
  | [g] => g
  | g :: h :: gs => op g (nest (h :: gs))

/-- The goals of a list, put before the last one by one, from behind. -/
def foldBack (gs : List (Goal sg n)) : Goal sg n :=
  match gs.getLast? with
  | none => unit
  | some last => gs.dropLast.reverse.foldl (fun acc g => op g acc) last

/-- A nest has its last goal innermost. -/
theorem nest_concat (gs : List (Goal sg n)) (last : Goal sg n) :
    nest unit op (gs ++ [last]) = gs.foldr op last := by
  induction gs with
  | nil => rfl
  | cons g gs ih =>
      rw [List.foldr_cons, ← ih]
      cases gs <;> rfl

/-- **FOLDING FROM BEHIND NESTS TO THE RIGHT.** -/
theorem foldBack_eq_nest (gs : List (Goal sg n)) :
    foldBack unit op gs = nest unit op gs := by
  rcases gs.eq_nil_or_concat' with rfl | ⟨init, last, rfl⟩
  · rfl
  · rw [foldBack, List.getLast?_concat, List.dropLast_concat, nest_concat]
    exact List.foldl_reverse

theorem conjAll_eq_nest (gs : List (Goal sg n)) :
    conjAll gs = nest .succeed .conj gs := by
  induction gs using conjAll.induct with
  | case1 => rfl
  | case2 g => rfl
  | case3 g h gs ih => rw [conjAll, nest, ih]

theorem disjAll_eq_nest (gs : List (Goal sg n)) :
    disjAll gs = nest .fail .disj gs := by
  induction gs using disjAll.induct with
  | case1 => rfl
  | case2 g => rfl
  | case3 g h gs ih => rw [disjAll, nest, ih]

end Nests

end LogicSearch.Goal
