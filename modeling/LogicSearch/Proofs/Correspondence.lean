import LogicSearch.Proofs.Chain
import LogicSearch.Proofs.InStep
import LogicSearch.Substitution.Unify
import LogicSearch.Term.Correspondence

/-! # Corresponding substitutions

    Two substitutions correspond if they bind equally many variables and
    corresponding variables have corresponding values.  Then chains, full
    values and the occurs check run in step from corresponding terms, errors
    included, and corresponding bindings lead to corresponding substitutions
    again. -/

namespace LogicSearch

variable {c : Correspondence}

/-! ## Corresponding errors, substitutions and outcomes -/

/-- The same error of corresponding variables. -/
inductive Error.Corresponds (c : Correspondence) : Error → Error → Prop where
  | cyclicBinding {x y : Var} (steps : Nat) : c.id x.id y.id →
      Corresponds c (.cyclicBinding x steps) (.cyclicBinding y steps)
  | alreadyBound {x y : Var} : c.id x.id y.id →
      Corresponds c (.alreadyBound x) (.alreadyBound y)
  | cyclicTerm {x y : Var} : c.id x.id y.id →
      Corresponds c (.cyclicTerm x) (.cyclicTerm y)

/-- As many variables are bound, and corresponding variables are bound to
    corresponding terms. -/
structure Substitution.Corresponds (c : Correspondence)
    (s s' : Substitution) : Prop where
  size : s.size = s'.size
  value {i j : Nat} : c.id i j →
    Option.Rel (Term.Corresponds c) (s.value? i) (s'.value? j)

/-- The same outcome with corresponding substitutions. -/
inductive Outcome.Corresponds (c : Correspondence) :
    Outcome → Outcome → Prop where
  | unified {s s' : Substitution} : s.Corresponds c s' →
      Corresponds c (.unified s) (.unified s')
  | clash : Corresponds c .clash .clash
  | broken {e e' : Error} : e.Corresponds c e' →
      Corresponds c (.broken e) (.broken e')
  | unanswered : Corresponds c .unanswered .unanswered

/-! ## Traversals in step -/

namespace Term

variable {ε ε' : Type} {E : ε → ε' → Prop}

section Expand

variable {f : Var → Except ε Term} {g : Var → Except ε' Term}

mutual

/-- Expansions run in step if those of the variables do. -/
theorem Corresponds.expand
    (hfg : ∀ x y, c.id x.id y.id → InStep E (Corresponds c) (f x) (g y)) :
    ∀ {t u : Term}, Corresponds c t u →
      InStep E (Corresponds c) (t.expand f) (u.expand g)
  | _, _, .var hxy => hfg _ _ hxy
  | _, _, .atom hab => .ok (.atom hab)
  | _, _, .composite _ hts => by
      rw [Term.expand, Term.expand]
      rcases (hts.expandAll hfg).cases with
        ⟨vs, ws, hv, hw, hvw⟩ | ⟨e, e', hv, hw, he⟩
      · rw [hv, hw]
        exact .ok (.composite (c.mark_refl none) hvw)
      · rw [hv, hw]
        exact .error he

theorem CorrespondAll.expandAll
    (hfg : ∀ x y, c.id x.id y.id → InStep E (Corresponds c) (f x) (g y)) :
    ∀ {ts us : List Term}, CorrespondAll c ts us →
      InStep E (CorrespondAll c) (expandAll f ts) (expandAll g us)
  | _, _, .nil => .ok .nil
  | _, _, .cons ht hts => by
      rw [Term.expandAll, Term.expandAll]
      rcases (ht.expand hfg).cases with
        ⟨v, w, hv, hw, hvw⟩ | ⟨e, e', hv, hw, he⟩
      · rw [hv, hw]
        rcases (hts.expandAll hfg).cases with
          ⟨vs, ws, hvs, hws, hall⟩ | ⟨e, e', hvs, hws, he⟩
        · rw [hvs, hws]
          exact .ok (.cons hvw hall)
        · rw [hvs, hws]
          exact .error he
      · rw [hv, hw]
        exact .error he

end

end Expand

section AnyVar

variable {f : Var → Except ε Bool} {g : Var → Except ε' Bool}

mutual

/-- Searches among the variables run in step if the tests do. -/
theorem Corresponds.anyVar
    (hfg : ∀ x y, c.id x.id y.id → InStep E Eq (f x) (g y)) :
    ∀ {t u : Term}, Corresponds c t u →
      InStep E Eq (t.anyVar f) (u.anyVar g)
  | _, _, .var hxy => hfg _ _ hxy
  | _, _, .atom _ => .ok rfl
  | _, _, .composite _ hts => hts.anyVarAll hfg

theorem CorrespondAll.anyVarAll
    (hfg : ∀ x y, c.id x.id y.id → InStep E Eq (f x) (g y)) :
    ∀ {ts us : List Term}, CorrespondAll c ts us →
      InStep E Eq (anyVarAll f ts) (anyVarAll g us)
  | _, _, .nil => .ok rfl
  | _, _, .cons ht hts => by
      rw [Term.anyVarAll, Term.anyVarAll]
      rcases (ht.anyVar hfg).cases with
        ⟨found, _, hv, hw, rfl⟩ | ⟨e, e', hv, hw, he⟩
      · rw [hv, hw]
        cases found with
        | true => exact .ok rfl
        | false => exact hts.anyVarAll hfg
      · rw [hv, hw]
        exact .error he

end

end AnyVar

end Term

namespace Substitution

variable {s s' : Substitution}

/-- Corresponding variables are both unbound or bound to corresponding
    terms. -/
theorem Corresponds.get?_cases (h : s.Corresponds c s') {x y : Var}
    (hxy : c.id x.id y.id) :
    (s.get? x = none ∧ s'.get? y = none) ∨
    ∃ t u, s.get? x = some t ∧ s'.get? y = some u ∧ t.Corresponds c u := by
  have hval := h.value hxy
  rw [get?, get?]
  generalize s.value? x.id = v at hval ⊢
  generalize s'.value? y.id = w at hval ⊢
  cases hval with
  | none => exact .inl ⟨rfl, rfl⟩
  | some htu => exact .inr ⟨_, _, rfl, rfl, htu⟩

theorem Corresponds.symm (h : s.Corresponds c s') :
    s'.Corresponds c.symm s := by
  refine ⟨h.size.symm, ?_⟩
  intro i j hij
  rcases h.get?_cases (x := ⟨j, ""⟩) (y := ⟨i, ""⟩) hij with
    ⟨hj, hi⟩ | ⟨t, u, hj, hi, htu⟩
  · rw [show s.value? j = none from hj, show s'.value? i = none from hi]
    exact .none
  · rw [show s.value? j = some t from hj, show s'.value? i = some u from hi]
    exact .some htu.symm

theorem corresponds_empty (c : Correspondence) :
    empty.Corresponds c empty := by
  refine ⟨rfl, ?_⟩
  intro i j _
  rw [value?_empty, value?_empty]
  exact .none

/-! ## Chains in step -/

theorem Corresponds.chase (h : s.Corresponds c s') (n : Nat) {t u : Term}
    (htu : t.Corresponds c u) :
    Option.Rel (Term.Corresponds c) (s.chase n t) (s'.chase n u) := by
  induction n generalizing t u with
  | zero => cases htu with
    | var hxy =>
        rcases h.get?_cases hxy with ⟨hx, hy⟩ | ⟨v, w, hx, hy, hvw⟩
        · rw [chase_unbound hx, chase_unbound hy]
          exact .some (.var hxy)
        · rw [chase_zero hx, chase_zero hy]
          exact .none
    | atom hab => exact .some (.atom hab)
    | composite hm hts => exact .some (.composite hm hts)
  | succ n ih => cases htu with
    | var hxy =>
        rcases h.get?_cases hxy with ⟨hx, hy⟩ | ⟨v, w, hx, hy, hvw⟩
        · rw [chase_unbound hx, chase_unbound hy]
          exact .some (.var hxy)
        · rw [chase_succ hx, chase_succ hy]
          exact ih hvw
    | atom hab => exact .some (.atom hab)
    | composite hm hts => exact .some (.composite hm hts)

/-- **WALKS RUN IN STEP.** -/
theorem Corresponds.walk (h : s.Corresponds c s') {t u : Term}
    (htu : t.Corresponds c u) :
    InStep (Error.Corresponds c) (Term.Corresponds c) (s.walk t)
      (s'.walk u) := by
  have hends := h.chase s.size htu
  cases htu with
  | @var x y hxy =>
      rw [Substitution.walk, Substitution.walk, ← h.size]
      generalize s.chase s.size (.var x) = v at hends ⊢
      generalize s'.chase s.size (.var y) = w at hends ⊢
      cases hends with
      | none => exact .error (.cyclicBinding _ hxy)
      | some hvw => exact .ok hvw
  | atom hab => exact .ok (.atom hab)
  | composite hm hts => exact .ok (.composite hm hts)

/-! ## Full values and occurrence in step -/

/-- Two paths of corresponding variables. -/
abbrev PathsCorrespond (c : Correspondence) : List Var → List Var → Prop :=
  List.Forall₂ fun x y => c.id x.id y.id

theorem entered_eq {path path' : List Var}
    (hpath : PathsCorrespond c path path') {x y : Var}
    (hxy : c.id x.id y.id) : entered path x = entered path' y := by
  induction hpath with
  | nil => rfl
  | cons hp _ ih =>
      rw [entered, entered, List.any_cons, List.any_cons, c.same_eq hp hxy]
      exact congrArg _ ih

theorem Corresponds.resolveVar (h : s.Corresponds c s') (budget : Nat)
    {path path' : List Var} (hpath : PathsCorrespond c path path')
    {x y : Var} (hxy : c.id x.id y.id) :
    InStep (Error.Corresponds c) (Term.Corresponds c)
      (s.resolveVar budget path x) (s'.resolveVar budget path' y) := by
  induction budget using Nat.strong_induction_on generalizing path path' x y
    with
  | _ budget ih =>
      rw [resolveVar.eq_def, resolveVar.eq_def]
      rcases (h.walk (.var hxy)).cases with
        ⟨v, w, hv, hw, hvw⟩ | ⟨e, e', hv, hw, he⟩
      · rw [hv, hw]
        cases hvw with
        | var hz => exact .ok (.var hz)
        | atom hab => exact .ok (.atom hab)
        | composite hm hts =>
            simp only [entered_eq hpath hxy]
            split
            · exact .error (.cyclicTerm hxy)
            · cases budget with
              | zero => exact .error (.cyclicTerm hxy)
              | succ budget =>
                  refine Term.Corresponds.expand ?_ (.composite hm hts)
                  intro z z' hz
                  exact ih budget (Nat.lt_succ_self budget)
                    (.cons hxy hpath) hz
      · rw [hv, hw]
        exact .error he

/-- **FULL VALUES CORRESPOND.** -/
theorem Corresponds.resolve (h : s.Corresponds c s') {t u : Term}
    (htu : t.Corresponds c u) :
    InStep (Error.Corresponds c) (Term.Corresponds c) (s.resolve t)
      (s'.resolve u) := by
  rw [Substitution.resolve, Substitution.resolve, ← h.size]
  exact htu.expand fun x y hxy => h.resolveVar s.size .nil hxy

theorem Corresponds.occursVar (h : s.Corresponds c s') {x x' : Var}
    (hx : c.id x.id x'.id) (budget : Nat) {path path' : List Var}
    (hpath : PathsCorrespond c path path') {y y' : Var}
    (hy : c.id y.id y'.id) :
    InStep (Error.Corresponds c) Eq (s.occursVar x budget path y)
      (s'.occursVar x' budget path' y') := by
  induction budget using Nat.strong_induction_on generalizing path path' y y'
    with
  | _ budget ih =>
      rw [occursVar.eq_def, occursVar.eq_def]
      rcases (h.walk (.var hy)).cases with
        ⟨v, w, hv, hw, hvw⟩ | ⟨e, e', hv, hw, he⟩
      · rw [hv, hw]
        cases hvw with
        | var hz => exact .ok (c.same_eq hz hx)
        | atom hab => exact .ok rfl
        | composite hm hts =>
            simp only [entered_eq hpath hy]
            split
            · exact .error (.cyclicTerm hy)
            · cases budget with
              | zero => exact .error (.cyclicTerm hy)
              | succ budget =>
                  refine Term.Corresponds.anyVar ?_ (.composite hm hts)
                  intro z z' hz
                  exact ih budget (Nat.lt_succ_self budget) (.cons hy hpath)
                    hz
      · rw [hv, hw]
        exact .error he

/-- **THE OCCURS CHECK FINDS THE SAME.** -/
theorem Corresponds.occurs (h : s.Corresponds c s') {x x' : Var}
    (hx : c.id x.id x'.id) {t u : Term} (htu : t.Corresponds c u) :
    InStep (Error.Corresponds c) Eq (s.occurs x t) (s'.occurs x' u) := by
  rw [Substitution.occurs, Substitution.occurs, ← h.size]
  exact htu.anyVar fun y y' hy => h.occursVar hx s.size .nil hy

/-! ## Bindings in step -/

theorem Corresponds.extend (h : s.Corresponds c s') {x y : Var}
    (hxy : c.id x.id y.id) {t u : Term} (htu : t.Corresponds c u) :
    InStep (Error.Corresponds c) (Substitution.Corresponds c) (s.extend x t)
      (s'.extend y u) := by
  rcases h.get?_cases hxy with ⟨hx, hy⟩ | ⟨v, w, hx, hy, -⟩
  · have hs : s.extend x t = .ok _ := extend_eq_ok_iff.mpr ⟨hx, rfl⟩
    have hs' : s'.extend y u = .ok _ := extend_eq_ok_iff.mpr ⟨hy, rfl⟩
    rw [hs, hs']
    refine .ok ⟨?_, ?_⟩
    · rw [size_extend hs, size_extend hs', h.size]
    · intro i j hij
      have hget := get?_extend hs ⟨i, ""⟩
      have hget' := get?_extend hs' ⟨j, ""⟩
      rw [get?, get?] at hget hget'
      rw [hget, hget']
      by_cases hi : i = x.id
      · rw [if_pos hi, if_pos ((c.eq_iff hij hxy).mp hi)]
        exact .some htu
      · rw [if_neg hi, if_neg fun hj => hi ((c.eq_iff hij hxy).mpr hj)]
        exact h.value hij
  · rw [Substitution.extend, Substitution.extend, hx, hy]
    exact .error (.alreadyBound hxy)

theorem Corresponds.assign (h : s.Corresponds c s') {x y : Var}
    (hxy : c.id x.id y.id) {t u : Term} (htu : t.Corresponds c u) :
    (s.assign x t).Corresponds c (s'.assign y u) := by
  rw [Substitution.assign, Substitution.assign]
  rcases (h.extend hxy htu).cases with
    ⟨r, r', hr, hr', hrr⟩ | ⟨e, e', hr, hr', he⟩
  · rw [hr, hr']
    exact .unified hrr
  · rw [hr, hr']
    exact .broken he

/-- **CORRESPONDING BINDINGS COME TO THE SAME.** -/
theorem Corresponds.bind (h : s.Corresponds c s') (config : Config)
    {x y : Var} (hxy : c.id x.id y.id) {t u : Term}
    (htu : t.Corresponds c u) :
    (s.bind config x t).Corresponds c (s'.bind config y u) := by
  rw [Substitution.bind, Substitution.bind]
  split
  · rcases (h.occurs hxy htu).cases with
      ⟨found, _, hf, hf', rfl⟩ | ⟨e, e', hf, hf', he⟩
    · rw [hf, hf']
      cases found with
      | true => exact .clash
      | false => exact h.assign hxy htu
    · rw [hf, hf']
      exact .broken he
  · exact h.assign hxy htu

end Substitution

end LogicSearch
