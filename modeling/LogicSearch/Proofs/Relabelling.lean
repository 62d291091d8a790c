import LogicSearch.Proofs.RelatedGoals
import LogicSearch.Proofs.TruthSearch
import LogicSearch.Proofs.UnifyInStep

/-! # Labels and absolute ids do not matter

    Under an exact correspondence every state that corresponds to another is
    searched in step with it, with or without the occurs check, and also
    where the search fails or does not end (`Correspondence.Exact.kept`).
    The labels of variables play no part in a correspondence, and shifting
    all ids by one number is exact. -/

namespace LogicSearch

/-- Corresponding states stay so, whatever the settings. -/
theorem Correspondence.Exact.kept {c : Correspondence} (hc : c.Exact) :
    c.Kept (State.Corresponds c) where
  corresponds h := h
  fresh label label' h := h.fresh label label'
  inStep {st st' u u' v v'} h hu hv := by
    rw [State.unify, State.unify, h.config]
    exact hc.unify_corresponds st'.config h.substitution hu hv
  unified h hs _ _ := h.withSubstitution hs

open Correspondence

variable {sg : Signature} {P P' : Program sg}

/-- **LABELS AND ABSOLUTE IDS ARE COSMETIC.**  Shift the ids of all variables
    of a state and of the given terms of a goal and its program by `k`, and
    the counter with them, and give all variables any other labels: both runs
    fail alike when they start, or they are pulled in step, whatever the
    fuel, to states that differ by that shift and in labels, until both come
    to the same kind of end. -/
theorem Program.run_shift (k : Nat)
    (hP : ∀ r, (P.body r).Related (Term.Corresponds (shift k)) (P'.body r))
    {g g' : Goal sg 0} (hg : g.Related (Term.Corresponds (shift k)) g')
    {st st' : State} (hst : st.Corresponds (shift k) st') :
    InStep (Abort.Corresponds (shift k))
      (fun s s' => ∀ fuel count,
        List.Forall₂ (State.Corresponds (shift k))
          (P.harvest fuel count s).1 (P'.harvest fuel count s').1 ∧
        (P.harvest fuel count s).2.Related (Abort.Corresponds (shift k))
          (State.Corresponds (shift k))
          (Closure.Related (Term.Corresponds (shift k)))
          (P'.harvest fuel count s').2)
      (P.run g st) (P'.run g' st') := by
  have hkept := (exact_shift k).kept
  have hF := (shift k).alongside_eq
  have hPl : ∀ r, (P.body r).All (fun _ => True) fun _ => True :=
    fun r => Goal.all_of_forall (fun _ => trivial) (fun _ => trivial) _
  have hgl : g.All (fun _ => True) fun _ => True :=
    Goal.all_of_forall (fun _ => trivial) (fun _ => trivial) g
  have hframe : Frame.outermost = .outermost := rfl
  rcases (hkept.apply hF hP hPl hg hgl Scope.related_empty hframe hst).cases
    with
    ⟨s, s', hs, hs', hss⟩ | ⟨e, e', he, he', hee⟩
  · rw [Program.run, Program.run, hs, hs']
    exact .ok fun fuel count => hkept.harvest hF hP hPl hss fuel count
  · rw [Program.run, Program.run, he, he']
    exact .error hee

/-- The unary numbers with another label inside, searched for a variable
    below another one: five ids further up everything is the same. -/
theorem Program.run_shift_unary :
    let s : Substitution := ⟨(∅ : Std.ExtTreeMap Nat Entry).insert 0
      ⟨"x", .composite none [.var ⟨1, "y"⟩]⟩⟩
    let s' : Substitution := ⟨(∅ : Std.ExtTreeMap Nat Entry).insert 5
      ⟨"", .composite none [.var ⟨6, "x"⟩]⟩⟩
    let st : State := ⟨s, 2, [⟨1, "y"⟩, ⟨0, "x"⟩], .unchecked⟩
    let st' : State := ⟨s', 7, [⟨6, "z"⟩, ⟨5, "z"⟩], .unchecked⟩
    let g : Goal ⟨Unit, fun _ => 1, Empty⟩ 0 :=
      .call 3 () [.given (.var ⟨0, "x"⟩)] rfl
    let g' : Goal ⟨Unit, fun _ => 1, Empty⟩ 0 :=
      .call 3 () [.given (.var ⟨5, "y"⟩)] rfl
    let P' : Program ⟨Unit, fun _ => 1, Empty⟩ :=
      { body := fun _ =>
          .disj (.eq (.bound 0) (.composite 0 []))
            (.fresh "" (.conj (.eq (.bound 0) (.composite 1 [.bound 1]))
              (.call 2 () [.bound 1] rfl)))
        host := fun h => h.elim }
    st.Corresponds (shift 5) st' ∧
    InStep (Abort.Corresponds (shift 5))
      (fun s s' => ∀ fuel count,
        List.Forall₂ (State.Corresponds (shift 5))
          (Program.unary.harvest fuel count s).1
          (P'.harvest fuel count s').1 ∧
        (Program.unary.harvest fuel count s).2.Related
          (Abort.Corresponds (shift 5)) (State.Corresponds (shift 5))
          (Closure.Related (Term.Corresponds (shift 5)))
          (P'.harvest fuel count s').2)
      (Program.unary.run g st) (P'.run g' st') := by
  intro s s' st st' g g' P'
  have hstep : InStep (Error.Corresponds (shift 5))
      (Substitution.Corresponds (shift 5)) (.ok s) (.ok s') :=
    (Substitution.corresponds_empty (shift 5)).extend
      (x := ⟨0, "x"⟩) (y := ⟨5, ""⟩) rfl
      (.composite rfl (.cons (.var rfl) .nil))
  have hs : s.Corresponds (shift 5) s' := by
    cases hstep with
    | ok h => exact h
  have hst : st.Corresponds (shift 5) st' :=
    ⟨hs, rfl, .cons rfl (.cons rfl .nil), rfl⟩
  have hP : ∀ r, (Program.unary.body r).Related (Term.Corresponds (shift 5))
      (P'.body r) := by
    intro r
    refine .disj (.eq (.bound 0) (.composite 0 .nil))
      (.fresh "m" "" (.conj (.eq (.bound 0) ?_) ?_))
    · exact .composite 1 (.cons (.bound 1) .nil)
    · constructor
      exact .cons (.bound 1) .nil
  have hx : (Term.var ⟨0, "x"⟩).Corresponds (shift 5) (.var ⟨5, "y"⟩) :=
    .var rfl
  have hg : g.Related (Term.Corresponds (shift 5)) g' := by
    constructor
    exact .cons (.given hx) .nil
  exact ⟨hst, Program.run_shift 5 hP hg hst⟩

end LogicSearch
