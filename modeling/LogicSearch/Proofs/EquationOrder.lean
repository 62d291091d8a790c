import LogicSearch.Proofs.CheckedUnification
import LogicSearch.Proofs.FullValues

/-! # The order of equations does not matter

    Equations are unified one after the other.  In another order other
    variables are bound, and to other terms, but from an acyclic
    substitution and with the occurs check, every term comes to the same
    full value (`Acyclic.unifyEquations_perm`).

    Both orders have the same solutions, so the results are instances of
    each other.  That they do not differ in their variables is due to the
    direction of bindings: a variable is only ever bound to an older one
    (`Grows.descends`), so of those that come to be equal the oldest is
    left. -/

namespace LogicSearch.Substitution

variable {config : Config} {s s' : Substitution}

/-- Unify the sides of the equations, one after the other. -/
def unifyEquations (config : Config) :
    Substitution → List (Term × Term) → Outcome
  | s, [] => .unified s
  | s, (u, v) :: es =>
      match s.unify config u v with
      | .unified s' => unifyEquations config s' es
      | stopped => stopped

/-! ## What the equations come to -/

/-- The assignment satisfies the substitution and all equations. -/
def SolvesAll (s : Substitution) (es : List (Term × Term))
    (θ : Assignment) : Prop :=
  θ.Satisfies s ∧ ∀ e ∈ es, θ.Equates e.1 e.2

theorem SolvesAll.perm {es fs : List (Term × Term)} (h : es.Perm fs)
    {θ : Assignment} (hθ : s.SolvesAll es θ) : s.SolvesAll fs θ :=
  ⟨hθ.1, fun e he => hθ.2 e (h.mem_iff.mpr he)⟩

/-- No solution is lost or added. -/
theorem unifyEquations_keeps (es : List (Term × Term)) :
    (unifyEquations config s es).Keeps (s.SolvesAll es) := by
  induction es generalizing s with
  | nil => exact fun θ => (and_iff_left nofun).symm
  | cons e es ih =>
      have hkeeps := unify_keeps config s e.1 e.2
      rw [unifyEquations]
      cases h : s.unify config e.1 e.2 with
      | unified s' =>
          rw [h] at hkeeps
          refine (ih (s := s')).congr ?_
          intro θ
          rw [SolvesAll, hkeeps θ, SolvesAll, Solves, List.forall_mem_cons,
            and_assoc]
      | clash =>
          rw [h] at hkeeps
          rintro θ ⟨hθ, hall⟩
          exact hkeeps θ ⟨hθ, hall e (List.mem_cons_self ..)⟩
      | broken _ => trivial
      | unanswered => trivial

/-- The second substitution is acyclic, came from the first one by
    bindings, and has the solutions of the first one and the equations. -/
structure Settles (s : Substitution) (es : List (Term × Term))
    (s' : Substitution) : Prop where
  acyclic : s'.Acyclic
  grows : Grows .checked (fun _ => True) s s'
  solutions : ∀ θ : Assignment, θ.Satisfies s' ↔ s.SolvesAll es θ

theorem Settles.perm {es fs : List (Term × Term)} (h : es.Perm fs)
    (hs' : s.Settles es s') : s.Settles fs s' where
  acyclic := hs'.acyclic
  grows := hs'.grows
  solutions θ := (hs'.solutions θ).trans ⟨.perm h, .perm h.symm⟩

/-- From an acyclic substitution and with the occurs check, the equations
    clash or lead to a larger acyclic substitution. -/
theorem Acyclic.exists_unifyEquations (hs : s.Acyclic)
    (es : List (Term × Term)) :
    unifyEquations .checked s es = .clash ∨
    ∃ s', unifyEquations .checked s es = .unified s' ∧ s'.Acyclic ∧
      Grows .checked (fun _ => True) s s' := by
  induction es generalizing s with
  | nil => exact .inr ⟨s, rfl, hs, .refl s⟩
  | cons e es ih =>
      rw [unifyEquations]
      rcases hs.unify_cases e.1 e.2 with h | ⟨s₁, h⟩
      · rw [h]
        exact .inl rfl
      · rw [h]
        rcases ih (hs.unify h) with hclash | ⟨s', hs', hacyclic, hgrow⟩
        · exact .inl hclash
        · exact .inr ⟨s', hs', hacyclic, (grows_of_unify h).trans hgrow⟩

/-- The equations have no solution, or are settled. -/
theorem Acyclic.unifyEquations_cases (hs : s.Acyclic)
    (es : List (Term × Term)) :
    (unifyEquations .checked s es = .clash ∧ ∀ θ, ¬ s.SolvesAll es θ) ∨
    ∃ s', unifyEquations .checked s es = .unified s' ∧
      s.Settles es s' := by
  have hkeeps : (unifyEquations .checked s es).Keeps (s.SolvesAll es) :=
    unifyEquations_keeps es
  rcases hs.exists_unifyEquations es with h | ⟨s', h, hacyclic, hgrow⟩
  · rw [h] at hkeeps
    exact .inl ⟨h, hkeeps⟩
  · rw [h] at hkeeps
    exact .inr ⟨s', h, hacyclic, hgrow, hkeeps⟩

/-! ## Only the oldest variables are left -/

/-- Every new binding of a variable to a variable is to an older one without
    a value. -/
def Descends (s s' : Substitution) : Prop :=
  ∀ x y, s.get? x = none → s'.get? x = some (.var y) →
    y.id < x.id ∧ s.get? y = none

/-- **BINDINGS ARE TO OLDER VARIABLES.** -/
theorem Grows.descends {good : Term → Prop} (h : Grows config good s s') :
    s.Descends s' := by
  induction h with
  | refl s =>
      intro x y hx hxy
      exact nomatch hx.symm.trans hxy
  | @add s s' _ z t hadd hgrow ih =>
      intro x y hx hxy
      have hget := get?_extend hadd.extend
      by_cases hxz : x.id = z.id
      · -- the first binding is that of `x`, and it stays
        have hxt : s'.get? x = some t := by rw [hget, if_pos hxz]
        cases (hgrow.value? hxt).symm.trans hxy
        exact ⟨hxz ▸ hadd.older y rfl, hadd.isEnd y rfl⟩
      · have hx' : s'.get? x = none := by rw [hget, if_neg hxz, hx]
        obtain ⟨hlt, hy⟩ := ih x y hx' hxy
        refine ⟨hlt, ?_⟩
        by_cases hyz : y.id = z.id
        · rw [hget, if_pos hyz] at hy
          exact nomatch hy
        · rw [hget, if_neg hyz] at hy
          exact hy

/-- What is unbound after was unbound before. -/
theorem Grows.unbound {good : Term → Prop} (h : Grows config good s s')
    {x : Var} (hx : s'.get? x = none) : s.get? x = none := by
  cases hs : s.get? x with
  | none => rfl
  | some t => exact nomatch hx.symm.trans (h.value? hs)

/-- A variable whose full value is a variable is followed to it. -/
theorem Acyclic.walk_of_fullValue (hs : s.Acyclic) {x y : Var}
    (h : s.fullValue x = .var y) : s.walk (.var x) = .ok (.var y) := by
  obtain ⟨u, hu⟩ := hs.walk (.var x)
  rw [hs.fullValue_walk hu] at h
  cases u with
  | var z =>
      rw [Term.instantiate, fullValue_unbound (isEnd_of_walk hu z rfl)] at h
      rw [hu, h]
  | atom a => cases h
  | composite m ts => cases h

/-- A variable is followed to older variables only, which had no values. -/
theorem Descends.le_of_walk (h : s.Descends s') {x y : Var}
    (hx : s.get? x = none) (hxy : s'.walk (.var x) = .ok (.var y)) :
    y.id ≤ x.id ∧ s.get? y = none := by
  refine walk_induct
    (motive := fun v => ∀ y, v = .var y → y.id ≤ x.id ∧ s.get? y = none)
    hxy ?_ ?_ y rfl
  · intro y hy
    cases hy
    exact ⟨Nat.le_refl _, hx⟩
  · rintro w _ hw ih y rfl
    obtain ⟨hle, hnone⟩ := ih w rfl
    obtain ⟨hlt, hy⟩ := h w y hnone hw
    exact ⟨hlt.le.trans hle, hy⟩

theorem Descends.le_of_fullValue (h : s.Descends s') (hs' : s'.Acyclic)
    {x y : Var} (hx : s.get? x = none) (hxy : s'.fullValue x = .var y) :
    y.id ≤ x.id ∧ s.get? y = none :=
  h.le_of_walk hx (hs'.walk_of_fullValue hxy)

/-! ## Two results with the same solutions -/

variable {es : List (Term × Term)} {s₁ s₂ : Substitution}

/-- **WHAT IS UNBOUND IN ONE RESULT IS ITSELF IN THE OTHER.**  Its full value
    there is a variable that leads back to it, and both ways lead to older
    variables only. -/
theorem Settles.equal_var (h₁ : s.Settles es s₁) (h₂ : s.Settles es s₂)
    {x : Var} (hx : s₂.get? x = none) :
    (s₁.fullValue x).equal (.var x) = true := by
  have hsat : s₂.solution.Satisfies s₁ :=
    (h₁.solutions _).mpr ((h₂.solutions _).mp h₂.acyclic.satisfies_solution)
  -- `x` stands for its full value in the other result
  have hback : (s₂.solution.value (.var x)).equal
      (s₂.solution.value (s₁.fullValue x)) = true :=
    h₁.acyclic.equates_fullValue hsat (.var x)
  have hself : s₂.solution.value (.var x) = .var ⟨x.id, ""⟩ :=
    fullValue_unbound hx
  rw [hself] at hback
  cases hy : s₁.fullValue x with
  | atom a => rw [hy] at hback; exact nomatch hback
  | composite m ts => rw [hy] at hback; exact nomatch hback
  | var y =>
      rw [hy] at hback
      have hvalue : s₂.solution.value (.var y) = s₂.fullValue ⟨y.id, ""⟩ :=
        rfl
      rw [hvalue] at hback
      cases hz : s₂.fullValue ⟨y.id, ""⟩ with
      | atom a => rw [hz] at hback; exact nomatch hback
      | composite m ts => rw [hz] at hback; exact nomatch hback
      | var z =>
          rw [hz] at hback
          have hxz : x.id = z.id := beq_iff_eq.mp hback
          obtain ⟨hyx, hnone⟩ := h₁.grows.descends.le_of_fullValue h₁.acyclic
            (h₂.grows.unbound hx) hy
          obtain ⟨hzy, -⟩ := h₂.grows.descends.le_of_fullValue
            (x := ⟨y.id, ""⟩) h₂.acyclic hnone hz
          have hyx' : y.id = x.id :=
            Nat.le_antisymm hyx (hxz.le.trans hzy)
          exact beq_iff_eq.mpr hyx'

/-- **BOTH RESULTS HAVE THE SAME FULL VALUES.** -/
theorem Settles.equal_fullValue (h₁ : s.Settles es s₁)
    (h₂ : s.Settles es s₂) (t : Term) :
    (t.instantiate s₁.fullValue).equal (t.instantiate s₂.fullValue)
      = true := by
  have hsat : s₁.solution.Satisfies s₂ :=
    (h₂.solutions _).mpr ((h₁.solutions _).mp h₁.acyclic.satisfies_solution)
  have hleft := h₁.acyclic.value_solution t
  -- the first result makes a term equal to its full value in the second
  have hsame : (s₁.solution.value t).equal
      (s₁.solution.value (t.instantiate s₂.fullValue)) = true :=
    h₂.acyclic.equates_fullValue hsat t
  have hright := h₁.acyclic.value_solution (t.instantiate s₂.fullValue)
  -- and changes nothing in that
  have hnothing : ((t.instantiate s₂.fullValue).instantiate
      s₁.fullValue).equal ((t.instantiate s₂.fullValue).instantiate .var)
      = true :=
    Term.equal_instantiate _ fun x hx =>
      h₁.equal_var h₂ (h₂.acyclic.unbound_of_mem t hx)
  rw [Term.equal_comm] at hleft
  exact Term.equal_trans hleft (Term.equal_trans hsame
    (Term.equal_trans hright (Term.equal_trans hnothing
      (Term.equal_instantiate_var _))))

/-- **THE ORDER OF EQUATIONS DOES NOT MATTER.**  From an acyclic
    substitution and with the occurs check, equations clash in every order
    or in none, and every term has equal full values under the results:
    the very same variables are left in them. -/
theorem Acyclic.unifyEquations_perm (hs : s.Acyclic)
    {es fs : List (Term × Term)} (h : es.Perm fs) :
    (unifyEquations .checked s es = .clash ∧
      unifyEquations .checked s fs = .clash) ∨
    ∃ s₁ s₂, unifyEquations .checked s es = .unified s₁ ∧
      unifyEquations .checked s fs = .unified s₂ ∧
      ∀ t, ∃ t₁ t₂, s₁.resolve t = .ok t₁ ∧ s₂.resolve t = .ok t₂ ∧
        t₁.equal t₂ = true := by
  rcases hs.unifyEquations_cases es with ⟨hes, hno⟩ | ⟨s₁, hes, h₁⟩
  · rcases hs.unifyEquations_cases fs with ⟨hfs, -⟩ | ⟨s₂, hfs, h₂⟩
    · exact .inl ⟨hes, hfs⟩
    · have hθ := (h₂.solutions _).mp h₂.acyclic.satisfies_solution
      exact absurd (hθ.perm h.symm) (hno _)
  · rcases hs.unifyEquations_cases fs with ⟨hfs, hno⟩ | ⟨s₂, hfs, h₂⟩
    · have hθ := (h₁.solutions _).mp h₁.acyclic.satisfies_solution
      exact absurd (hθ.perm h) (hno _)
    · exact .inr ⟨s₁, s₂, hes, hfs, fun t => ⟨_, _,
        h₁.acyclic.resolve_eq t, h₂.acyclic.resolve_eq t,
        h₁.equal_fullValue (h₂.perm h.symm) t⟩⟩

/-- With `x` bound to `w`, the equations `y = x` and `y = z` bind `z` to `w`,
    and in the other order to `y`.  All full values are equal. -/
theorem Acyclic.unifyEquations_perm_alias :
    let x : Var := ⟨0, "x"⟩
    let w : Var := ⟨1, "w"⟩
    let y : Var := ⟨2, "y"⟩
    let z : Var := ⟨3, "z"⟩
    let s : Substitution := ⟨(∅ : Std.ExtTreeMap Nat Entry).insert 0
      ⟨"x", .var w⟩⟩
    let es : List (Term × Term) := [(.var y, .var x), (.var y, .var z)]
    let fs : List (Term × Term) := [(.var y, .var z), (.var y, .var x)]
    s.Acyclic ∧ es.Perm fs ∧
    ∃ s₁ s₂, unifyEquations .checked s es = .unified s₁ ∧
      unifyEquations .checked s fs = .unified s₂ ∧
      s₁.get? z = some (.var w) ∧ s₂.get? z = some (.var y) ∧
      ∀ t, ∃ t₁ t₂, s₁.resolve t = .ok t₁ ∧ s₂.resolve t = .ok t₂ ∧
        t₁.equal t₂ = true := by
  intro x w y z s es fs
  have hs : s.Acyclic := by
    refine Acyclic.extend acyclic_empty (x := x) (t := .var w) rfl ?_
    rw [reachesFrom_var]
    intro hreach
    exact nomatch hreach.eq_of_value?_eq_none (value?_empty 1)
  have hperm : es.Perm fs := .swap ..
  have hes : unifyEquations .checked s es = .unified
      ⟨(s.entries.insert 2 ⟨"y", .var w⟩).insert 3 ⟨"z", .var w⟩⟩ := rfl
  have hfs : unifyEquations .checked s fs = .unified
      ⟨(s.entries.insert 3 ⟨"z", .var y⟩).insert 2 ⟨"y", .var w⟩⟩ := rfl
  rcases hs.unifyEquations_perm hperm with ⟨h, -⟩ | ⟨s₁, s₂, h₁, h₂, h⟩
  · exact nomatch hes.symm.trans h
  · cases hes.symm.trans h₁
    cases hfs.symm.trans h₂
    exact ⟨hs, hperm, _, _, hes, hfs, rfl, rfl, h⟩

end LogicSearch.Substitution
