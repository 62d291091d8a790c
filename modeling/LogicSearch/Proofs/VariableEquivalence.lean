import LogicSearch.Proofs.CheckedUnification
import LogicSearch.Proofs.FullValues

/-! # Occurrence up to equivalence of variables

    Variables whose chains end in one unbound variable stand for the same, so
    a search for a variable is a search for all that are equivalent to it.
    `occurs` follows the variables of the term to the ends of their chains,
    but compares them with the variable as it is given.  An unbound variable
    is found wherever an equivalent one is contained.  A bound one is never
    found, not even in itself (`Acyclic.occurs_bound`).

    What is missing is a walk: the end of the chain is found where the
    variable should be (`Acyclic.occurs_equivalent`). -/

namespace LogicSearch.Substitution

variable {s : Substitution}

/-- The two are one variable, or their chains end in one unbound variable. -/
def Equivalent (s : Substitution) (x y : Var) : Prop :=
  x.same y = true ∨ ∃ z w, s.walk (.var x) = .ok (.var z) ∧
    s.walk (.var y) = .ok (.var w) ∧ z.same w = true

/-- The term contains, directly or through bindings, a variable equivalent to
    `x`. -/
def ContainsEquivalent (s : Substitution) (x : Var) (t : Term) : Prop :=
  ∃ y : Var, s.ReachesFrom t y.id ∧ s.Equivalent x y

theorem Equivalent.refl (s : Substitution) (x : Var) : s.Equivalent x x :=
  .inl (beq_iff_eq.mpr rfl)

/-- The end of a chain can be reached from all its variables. -/
theorem reaches_of_walk {x z : Var} (h : s.walk (.var x) = .ok (.var z)) :
    s.Reaches x.id z.id := by
  have hz : s.value? z.id = none := isEnd_of_walk h z rfl
  rw [← reachesFrom_var, reachesFrom_walk h hz, reachesFrom_var]
  exact .refl _

/-- An equivalent variable is contained exactly if the end of the chain is. -/
theorem containsEquivalent_iff_of_walk {x z : Var} {t : Term}
    (hx : s.walk (.var x) = .ok (.var z)) :
    s.ContainsEquivalent x t ↔ s.ReachesFrom t z.id := by
  constructor
  · rintro ⟨y, hy, hxy | ⟨z', w, hz', hw, hzw⟩⟩
    · rw [← beq_iff_eq.mp hxy] at hy
      exact hy.trans (reaches_of_walk hx)
    · cases hx.symm.trans hz'
      rw [beq_iff_eq.mp hzw]
      exact hy.trans (reaches_of_walk hw)
  · intro hz
    have hend : s.walk (.var z) = .ok (.var z) :=
      walk_of_isEnd (isEnd_of_walk hx)
    exact ⟨z, hz, .inr ⟨z, z, hx, hend, beq_iff_eq.mpr rfl⟩⟩

/-- **A BOUND VARIABLE IS NEVER FOUND**: what is left in a full value is
    unbound. -/
theorem Acyclic.occurs_bound (hs : s.Acyclic) {x : Var} {u : Term}
    (hx : s.get? x = some u) (t : Term) : s.occurs x t = .ok false := by
  rw [occurs_of_resolve x (hs.resolve_eq t)]
  refine congrArg Except.ok (Bool.eq_false_iff.mpr ?_)
  intro hany
  obtain ⟨y, hy, hyx⟩ := List.any_eq_true.mp hany
  have hunbound := hs.unbound_of_mem t hy
  rw [get?_congr (beq_iff_eq.mp hyx), hx] at hunbound
  cases hunbound

/-- **AN UNBOUND VARIABLE IS FOUND** where an equivalent one is contained. -/
theorem Acyclic.occurs_unbound (hs : s.Acyclic) {x : Var}
    (hx : s.get? x = none) (t : Term) :
    s.occurs x t = .ok true ↔ s.ContainsEquivalent x t := by
  rw [containsEquivalent_iff_of_walk (walk_of_isEnd (isEnd_var hx))]
  rcases hs.occurs_cases hx t with ⟨hfound, hreach⟩ | ⟨hfound, hno⟩
  · exact iff_of_true hfound hreach
  · refine iff_of_false ?_ hno
    rw [hfound]
    intro h
    cases h

/-- **WHAT OCCURS, UP TO EQUIVALENCE.**  Under an acyclic substitution the
    search for a variable in a term has an answer, and

    - the answer is yes if and only if the variable is unbound and the term
      contains a variable that is equivalent to it;
    - if the chain of the variable ends in a variable, the search for that one
      finds exactly what is equivalent to the first. -/
theorem Acyclic.occurs_equivalent (hs : s.Acyclic) (x : Var) (t : Term) :
    (∃ found, s.occurs x t = .ok found) ∧
    (s.occurs x t = .ok true ↔
      s.get? x = none ∧ s.ContainsEquivalent x t) ∧
    ∀ z, s.walk (.var x) = .ok (.var z) →
      (s.occurs z t = .ok true ↔ s.ContainsEquivalent x t) := by
  refine ⟨⟨_, occurs_of_resolve x (hs.resolve_eq t)⟩, ?_, ?_⟩
  · cases hx : s.get? x with
    | none =>
        rw [hs.occurs_unbound hx]
        exact (and_iff_right rfl).symm
    | some u =>
        rw [hs.occurs_bound hx]
        constructor
        · intro h
          cases h
        · rintro ⟨h, -⟩
          cases h
  · intro z hz
    have hend := isEnd_of_walk hz
    rw [hs.occurs_unbound (hend z rfl), containsEquivalent_iff_of_walk hz,
      containsEquivalent_iff_of_walk (walk_of_isEnd hend)]

/-- With `y` bound to `x` and `z` to `(y)`, the variable `x` is found in `z`,
    and so is what is equivalent to `y`, if one looks for the end of the
    chain. -/
theorem Acyclic.occurs_equivalent_nested :
    let x : Var := ⟨0, "x"⟩
    let y : Var := ⟨1, "y"⟩
    let z : Var := ⟨2, "z"⟩
    let s : Substitution := ⟨((∅ : Std.ExtTreeMap Nat Entry).insert 1
      ⟨"y", .var x⟩).insert 2 ⟨"z", .composite none [.var y]⟩⟩
    s.Acyclic ∧ s.walk (.var y) = .ok (.var x) ∧
    s.ContainsEquivalent x (.var z) ∧ s.ContainsEquivalent y (.var z) := by
  intro x y z s
  have hbuilt : Built (· = .checked) s :=
    .unify (u := .var z) (v := .composite none [.var y])
      (.unify (u := .var y) (v := .var x) .empty rfl rfl) rfl rfl
  have hy : s.walk (.var y) = .ok (.var x) := rfl
  have hfound : s.occurs x (.var z) = .ok true := rfl
  obtain ⟨-, hx, -⟩ := hbuilt.acyclic.occurs_equivalent x (.var z)
  obtain ⟨-, -, hwalked⟩ := hbuilt.acyclic.occurs_equivalent y (.var z)
  exact ⟨hbuilt.acyclic, hy, (hx.mp hfound).2, (hwalked x hy).mp hfound⟩

/-- With `y` bound to `x`, the variable `y` is neither found in `x`, which is
    equivalent to it, nor in itself. -/
theorem occurs_misses_bound :
    let x : Var := ⟨0, "x"⟩
    let y : Var := ⟨1, "y"⟩
    let s : Substitution := ⟨(∅ : Std.ExtTreeMap Nat Entry).insert 1
      ⟨"y", .var x⟩⟩
    s.Acyclic ∧
    s.ContainsEquivalent y (.var x) ∧ s.occurs y (.var x) = .ok false ∧
    s.ContainsEquivalent y (.var y) ∧ s.occurs y (.var y) = .ok false := by
  intro x y s
  have hbuilt : Built (· = .checked) s :=
    .unify (u := .var y) (v := .var x) .empty rfl rfl
  have hequivalent : s.Equivalent y x := .inr ⟨x, x, rfl, rfl, rfl⟩
  refine ⟨hbuilt.acyclic, ⟨x, ?_, hequivalent⟩, rfl, ⟨y, ?_, .refl s y⟩, rfl⟩
  · exact reachesFrom_var.mpr (.refl _)
  · exact reachesFrom_var.mpr (.refl _)

end LogicSearch.Substitution
