import LogicSearch.Proofs.Settings

/-! # What a checked unification makes of its terms

    After a checked unification the two terms have equal full values, because
    the full values of the result are one of its solutions
    (`Acyclic.equal_fullValues`).  Terms that have equal full values before
    it are unified as they are, and no others
    (`Acyclic.unify_eq_self_iff`).

    The variables that it binds are among those left in the two full values
    under the old substitution (`Acyclic.mem_vars_of_unify`).  To be made of
    those variables only is what the terms start with; it passes from
    composites to their items and from variables to their values, so no
    binding made on the way leads out of them. -/

namespace LogicSearch.Substitution

variable {s s' : Substitution}

/-! ## Equal full values -/

/-- **UNIFIED TERMS ARE EQUAL** in full. -/
theorem Acyclic.equal_fullValues (hs' : s'.Acyclic) {config : Config}
    {u v : Term} (h : s.unify config u v = .unified s') :
    (u.instantiate s'.fullValue).equal (v.instantiate s'.fullValue)
      = true := by
  have hkeeps := unify_keeps config s u v
  rw [h] at hkeeps
  have hequates : s'.solution.Equates u v :=
    ((hkeeps s'.solution).mp hs'.satisfies_solution).2
  have hu : (s'.solution.value u).equal (u.instantiate s'.fullValue) = true :=
    hs'.value_solution u
  rw [Term.equal_comm] at hu
  exact Term.equal_trans hu
    (Term.equal_trans hequates (hs'.value_solution v))

/-- An unbound variable in the full values stands for itself. -/
theorem solution_unbound {x : Var} (hx : s.get? x = none) :
    s.solution.value (.var x) = .var ⟨x.id, ""⟩ :=
  fullValue_unbound (x := ⟨x.id, ""⟩) hx

/-- So it is equal to no end that it could be bound to. -/
theorem not_equates_of_older {x : Var} {t : Term} (hx : s.get? x = none)
    (ht : s.IsEnd t) (holder : ∀ y, t = .var y → y.id < x.id) :
    ¬ s.solution.Equates (.var x) t := by
  intro h
  rw [Assignment.Equates, solution_unbound hx] at h
  cases t with
  | var y =>
      rw [solution_unbound (ht y rfl)] at h
      have hlt := holder y rfl
      have heq : x.id = y.id := beq_iff_eq.mp h
      omega
  | atom a => cases h
  | composite m ts => cases h

/-- **EQUAL TERMS NEED NO BINDING**: what has equal full values already is
    unified as it is. -/
theorem Acyclic.unify_eq_self (hs : s.Acyclic) {u v : Term}
    (h : (u.instantiate s.fullValue).equal (v.instantiate s.fullValue)
      = true) : s.unify .checked u v = .unified s := by
  have hkeeps := unify_keeps .checked s u v
  have hsolves : s.Solves u v s.solution := by
    have hv := hs.value_solution v
    rw [Term.equal_comm] at hv
    exact ⟨hs.satisfies_solution,
      Term.equal_trans (hs.value_solution u) (Term.equal_trans h hv)⟩
  rcases hs.unify_cases u v with hclash | ⟨s', hunify⟩
  · rw [hclash] at hkeeps
    exact absurd hsolves (hkeeps _)
  · rw [hunify] at hkeeps ⊢
    have hsolution : s.solution.Satisfies s' := (hkeeps _).mpr hsolves
    -- a first binding would not be satisfied by the old full values
    cases grows_of_unify hunify with
    | refl => rfl
    | @add _ s₁ _ x t hadd hgrows =>
        have hx : s₁.get? x = some t := by
          rw [get?, hadd.value?, if_pos rfl]
        exact absurd (hsolution x t (hgrows.value? hx))
          (not_equates_of_older hadd.unbound hadd.isEnd hadd.older)

theorem Acyclic.unify_of_equal (hs : s.Acyclic) {u v : Term}
    (h : u.equal v = true) : s.unify .checked u v = .unified s :=
  hs.unify_eq_self
    (Term.equal_instantiate_of_equal (fun _ _ => hs.fullValue_congr) h)

/-- And only such terms are unified as they are, under all settings. -/
theorem Acyclic.unify_eq_self_iff (hs : s.Acyclic) {config : Config}
    {u v : Term} : s.unify config u v = .unified s ↔
      (u.instantiate s.fullValue).equal (v.instantiate s.fullValue)
        = true := by
  constructor
  · intro h
    exact hs.equal_fullValues h
  · intro h
    exact hs.unify_config config (hs.unify_eq_self h)

/-- **NOTHING IS ADDED EXACTLY IF NOTHING IS MISSING.**  From an acyclic
    substitution and under all settings, unification leaves the substitution
    as it is if and only if the two terms have full values that are equal.
    So what a checked unification has unified, unifies again as it is. -/
theorem Acyclic.unify_adds_nothing (hs : s.Acyclic) (config : Config)
    (u v : Term) :
    (s.unify config u v = .unified s ↔
      ∃ u' v', s.resolve u = .ok u' ∧ s.resolve v = .ok v'
        ∧ u'.equal v' = true) ∧
    ∀ s', s.unify .checked u v = .unified s' →
      s'.unify config u v = .unified s' := by
  refine ⟨?_, ?_⟩
  · rw [hs.unify_eq_self_iff]
    constructor
    · intro hequal
      exact ⟨_, _, hs.resolve_eq u, hs.resolve_eq v, hequal⟩
    · rintro ⟨u', v', hu, hv, hequal⟩
      cases (hs.resolve_eq u).symm.trans hu
      cases (hs.resolve_eq v).symm.trans hv
      exact hequal
  · intro s' h
    have hs' := hs.unify h
    exact hs'.unify_eq_self_iff.mpr (hs'.equal_fullValues h)

/-- The pairs `(x y)` and `(y NaN)` make `x` and `y` one NaN.  It is not equal
    to another NaN, but to itself, so the pairs unify again as they are. -/
theorem Acyclic.unify_adds_nothing_nan :
    let x : Term := .var ⟨0, "x"⟩
    let y : Term := .var ⟨1, "y"⟩
    let nan : Term := .atom ⟨.float64 0x7ff8000000000000, ⟨0, .outermost⟩⟩
    let u : Term := .composite none [x, y]
    let v : Term := .composite none [y, nan]
    ∃ s, Substitution.empty.unify .checked u v = .unified s ∧
      s.Acyclic ∧ s.unify .unchecked u v = .unified s ∧
      ∃ u' v', s.resolve u = .ok u' ∧ s.resolve v = .ok v'
        ∧ u'.equal v' = true := by
  intro x y nan u v
  obtain ⟨s, hs⟩ : ∃ s,
      Substitution.empty.unify .checked u v = .unified s := ⟨_, rfl⟩
  have hagain : s.unify .unchecked u v = .unified s :=
    (acyclic_empty.unify_adds_nothing .unchecked u v).2 s hs
  have hacyclic := acyclic_empty.unify hs
  exact ⟨s, hs, hacyclic, hagain,
    (hacyclic.unify_adds_nothing .unchecked u v).1.mp hagain⟩

/-! ## The variables that are left -/

/-- What is left of the term under the substitution are some of the given
    variables. -/
def Leaves (s : Substitution) (left : List Var) (t : Term) : Prop :=
  ∀ x ∈ (t.instantiate s.fullValue).vars, x ∈ left

theorem itemClosed_leaves (s : Substitution) (left : List Var) :
    ItemClosed (s.Leaves left) := by
  intro m ts h t ht x hx
  obtain ⟨y, hy, hyx⟩ := (Term.mem_vars_instantiate t).mp hx
  refine h x ((Term.mem_vars_instantiate _).mpr ⟨y, ?_, hyx⟩)
  exact Term.mem_vars_composite.mpr ⟨t, ht, hy⟩

/-- A variable and its value leave the same. -/
theorem Acyclic.valueClosed_leaves (hs : s.Acyclic) (left : List Var) :
    s.ValueClosed (s.Leaves left) := by
  intro x t hx h
  rw [Leaves, Term.instantiate, hs.fullValue_bound hx] at h
  exact h

/-- An unbound variable leaves itself. -/
theorem Leaves.mem {left : List Var} {x : Var}
    (h : s.Leaves left (.var x)) (hx : s.get? x = none) : x ∈ left := by
  refine h x ?_
  rw [Term.instantiate, fullValue_unbound hx]
  exact List.mem_singleton_self x

/-- **ONLY WHAT IS LEFT GETS BOUND.** -/
theorem Acyclic.mem_vars_of_unify (hs : s.Acyclic) {config : Config}
    {u v : Term} (h : s.unify config u v = .unified s') {b : Binding}
    (hb : b ∈ s'.bindings) (hnew : s.get? b.key = none) :
    b.key ∈ (u.instantiate s.fullValue).vars
      ∨ b.key ∈ (v.instantiate s.fullValue).vars := by
  rw [← List.mem_append]
  have hgrows := unify_grows (itemClosed_leaves s _)
    (hs.valueClosed_leaves _) (fun x hx => List.mem_append_left _ hx)
    (fun x hx => List.mem_append_right _ hx) h
  rcases hgrows.of_mem_bindings hb with hold | ⟨hkey, -⟩
  · -- an old binding has an old key
    have hget := get?_of_mem_bindings hold
    rw [hnew] at hget
    cases hget
  · exact hkey.mem hnew

/-- **THE EFFECT OF A CHECKED UNIFICATION.**  Both terms have full values
    under the result, and these are equal; every binding there was is there
    unchanged; and a variable that is bound now and was not before is one of
    those left in the full value of one of the terms. -/
theorem unify_checked_effect (hs : s.Acyclic) (u v : Term)
    (h : s.unify .checked u v = .unified s') :
    (∃ u' v', s'.resolve u = .ok u' ∧ s'.resolve v = .ok v'
      ∧ u'.equal v' = true) ∧
    (∀ b ∈ s.bindings, b ∈ s'.bindings) ∧
    ∃ u₀ v₀, s.resolve u = .ok u₀ ∧ s.resolve v = .ok v₀ ∧
      ∀ b ∈ s'.bindings, s.get? b.key = none →
        b.key ∈ u₀.vars ∨ b.key ∈ v₀.vars := by
  have hs' := hs.unify h
  refine ⟨?_, ?_, ?_⟩
  · exact ⟨_, _, hs'.resolve_eq u, hs'.resolve_eq v, hs'.equal_fullValues h⟩
  · intro b hb
    exact (grows_of_unify h).mem_bindings hb
  · refine ⟨_, _, hs.resolve_eq u, hs.resolve_eq v, ?_⟩
    intro b hb hnew
    exact hs.mem_vars_of_unify h hb hnew

/-- With `y` bound to `(x)`, the pairs `(y x)` and `(z NaN)` unify: `z` gets
    the value of `y` before `x` becomes the NaN, so the one NaN stands in
    both full values twice. -/
theorem unify_checked_effect_nan :
    let x : Term := .var ⟨0, "x"⟩
    let nan : Term := .atom ⟨.float64 0x7ff8000000000000, ⟨0, .outermost⟩⟩
    let s : Substitution := ⟨(∅ : Std.ExtTreeMap Nat Entry).insert 1
      ⟨"y", .composite none [x]⟩⟩
    let u : Term := .composite none [.var ⟨1, "y"⟩, x]
    let v : Term := .composite none [.var ⟨2, "z"⟩, nan]
    s.Acyclic ∧ ∃ s', s.unify .checked u v = .unified s' ∧
      (∃ u' v', s'.resolve u = .ok u' ∧ s'.resolve v = .ok v'
        ∧ u'.equal v' = true) ∧
      (∀ b ∈ s.bindings, b ∈ s'.bindings) ∧
      ∃ u₀ v₀, s.resolve u = .ok u₀ ∧ s.resolve v = .ok v₀ ∧
        ∀ b ∈ s'.bindings, s.get? b.key = none →
          b.key ∈ u₀.vars ∨ b.key ∈ v₀.vars := by
  intro x nan s u v
  have hbuilt : Built (· = .checked) s :=
    .unify (u := .var ⟨1, "y"⟩) (v := .composite none [x]) .empty rfl rfl
  have hunify : s.unify .checked u v = .unified
      ⟨(s.entries.insert 2 ⟨"z", .composite none [x]⟩).insert 0
        ⟨"x", nan⟩⟩ := rfl
  exact ⟨hbuilt.acyclic, _, hunify,
    unify_checked_effect hbuilt.acyclic u v hunify⟩

end LogicSearch.Substitution
