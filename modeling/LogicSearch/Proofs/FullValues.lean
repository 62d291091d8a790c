import LogicSearch.Proofs.Solution

/-! # Full values

    Under an acyclic substitution every term has a full value: what is left
    when all variables are replaced by their full values
    (`Acyclic.resolve_eq`).  Its variables are unbound
    (`Acyclic.unbound_of_mem`).

    Full values are the most general solution: as an assignment they satisfy
    the substitution (`Acyclic.satisfies_solution`), and to every assignment
    that satisfies it, a term and its full value are the same
    (`Acyclic.equates_fullValue`). -/

namespace LogicSearch

/-! ## Equal terms in the place of variables -/

namespace Term

theorem equal_composite {m n : Option Mark} {ts us : List Term} :
    (composite m ts).equal (composite n us) = true
      ↔ List.Forall₂ (fun t u => t.equal u = true) ts us := by
  rw [equal_eq_alike, alike, ← equalAll_eq_alikeAll, equalAll_iff]

/-- Equal terms in the place of every variable give equal terms. -/
theorem equal_instantiate {f g : Var → Term} (t : Term)
    (h : ∀ x ∈ t.vars, (f x).equal (g x) = true) :
    (t.instantiate f).equal (t.instantiate g) = true := by
  induction t with
  | var x => exact h x (List.mem_singleton_self x)
  | atom a => exact equal_self _
  | composite m ts ih =>
      rw [instantiate, instantiate, equal_composite, instantiateAll_eq_map,
        instantiateAll_eq_map, List.forall₂_map_left_iff,
        List.forall₂_map_right_iff, List.forall₂_same]
      intro t ht
      exact ih t ht fun x hx => h x (mem_vars_composite.mpr ⟨t, ht, hx⟩)

/-- Variables in their own place change nothing but marks. -/
theorem equal_instantiate_var (t : Term) :
    (t.instantiate .var).equal t = true := by
  induction t with
  | var x => exact equal_self _
  | atom a => exact equal_self _
  | composite m ts ih =>
      rw [instantiate, equal_composite, instantiateAll_eq_map,
        List.forall₂_map_left_iff, List.forall₂_same]
      exact ih

end Term

namespace Substitution

variable {s : Substitution}

/-- The full value of a variable, if it has one, and else the variable. -/
def fullValue (s : Substitution) (x : Var) : Term :=
  match s.resolve (.var x) with
  | .ok t => t
  | .error _ => .var x

theorem fullValue_of_resolveVar {x : Var} {t : Term}
    (h : s.resolveVar s.size [] x = .ok t) : s.fullValue x = t := by
  rw [fullValue, resolve, Term.expand, h]

theorem fullValue_unbound {x : Var} (hx : s.get? x = none) :
    s.fullValue x = .var x := by
  refine fullValue_of_resolveVar ?_
  rw [resolveVar.eq_def, walk_of_isEnd (isEnd_var hx)]

/-- The full value of a variable, met inside variables that lie properly
    above it and with a budget for all that lies below it. -/
theorem Acyclic.resolveVar_eq (hs : s.Acyclic) {y : Var} {u : Term}
    (hu : s.walk (.var y) = .ok u) (budget : Nat) (path : List Var)
    (hbudget : s.rank y.id ≤ budget)
    (hpath : ∀ p ∈ path, ∃ j, s.Refers p.id j ∧ s.Reaches j y.id) :
    s.resolveVar budget path y = .ok (u.instantiate s.fullValue) := by
  induction hn : s.rank y.id using Nat.strong_induction_on
    generalizing budget path y u with
  | _ n ih =>
      rw [resolveVar.eq_def, hu]
      cases u with
      | var z =>
          show Except.ok (Term.var z) = .ok (s.fullValue z)
          rw [fullValue_unbound (isEnd_of_walk hu z rfl)]
      | atom a => rfl
      | composite m ts =>
          have hnew := hs.not_entered hpath
          have hpos := rank_pos_of_walk hu
          obtain ⟨budget, rfl⟩ : ∃ k, budget = k + 1 :=
            ⟨budget - 1, by omega⟩
          -- the variables inside come to the same with the rest of the
          -- budget and with all of it
          have hitems : ∀ w ∈ (Term.composite m ts).vars,
              s.resolveVar budget (y :: path) w = .ok (s.fullValue w) := by
            intro w hw
            obtain ⟨hlt, habove⟩ := hs.enter hu hw hpath
            obtain ⟨t, ht⟩ := hs.walk (.var w)
            have hall := ih _ (by omega) ht s.size [] (s.rank_le_size w.id)
              (List.forall_mem_nil _) rfl
            rw [fullValue_of_resolveVar hall]
            exact ih _ (by omega) ht budget (y :: path) (by omega) habove rfl
          simp only [hnew]
          exact Term.expand_eq_ok _ hitems

/-- A variable has the full value of the end of its chain. -/
theorem Acyclic.fullValue_walk (hs : s.Acyclic) {x : Var} {u : Term}
    (hu : s.walk (.var x) = .ok u) :
    s.fullValue x = u.instantiate s.fullValue :=
  fullValue_of_resolveVar
    (hs.resolveVar_eq hu s.size [] (s.rank_le_size x.id)
      (List.forall_mem_nil _))

/-- And that of its value. -/
theorem Acyclic.fullValue_bound (hs : s.Acyclic) {x : Var} {t : Term}
    (hx : s.get? x = some t) : s.fullValue x = t.instantiate s.fullValue := by
  obtain ⟨u, hu⟩ := hs.walk t
  rw [hs.fullValue_walk ((walk_bound hx).mpr hu)]
  cases t with
  | var y => exact (hs.fullValue_walk hu).symm
  | atom a => cases hu; rfl
  | composite m ts => cases hu; rfl

/-- **EVERY TERM HAS A FULL VALUE.** -/
theorem Acyclic.resolve_eq (hs : s.Acyclic) (t : Term) :
    s.resolve t = .ok (t.instantiate s.fullValue) := by
  refine Term.expand_eq_ok t fun x _ => ?_
  obtain ⟨u, hu⟩ := hs.walk (.var x)
  rw [hs.fullValue_walk hu]
  exact hs.resolveVar_eq hu s.size [] (s.rank_le_size x.id)
    (List.forall_mem_nil _)

/-- What is left in a full value is unbound. -/
theorem Acyclic.unbound_of_mem (hs : s.Acyclic) (t : Term) {y : Var}
    (hy : y ∈ (t.instantiate s.fullValue).vars) : s.get? y = none := by
  induction t using hs.induct with
  | unbound x hx =>
      rw [Term.instantiate, fullValue_unbound hx] at hy
      rw [List.mem_singleton.mp hy]
      exact hx
  | bound x t hx ih =>
      rw [Term.instantiate, hs.fullValue_bound hx] at hy
      exact ih hy
  | atom a => cases hy
  | composite m ts ih =>
      obtain ⟨x, hx, hyx⟩ := (Term.mem_vars_instantiate _).mp hy
      obtain ⟨t, ht, hxt⟩ := Term.mem_vars_composite.mp hx
      exact ih t ht ((Term.mem_vars_instantiate t).mpr ⟨x, hxt, hyx⟩)

/-! ## The most general solution -/

/-- Only the id of a variable matters. -/
theorem Acyclic.fullValue_congr (hs : s.Acyclic) {x y : Var}
    (h : x.id = y.id) : (s.fullValue x).equal (s.fullValue y) = true := by
  cases hx : s.get? x with
  | none =>
      rw [fullValue_unbound hx, fullValue_unbound (get?_congr h ▸ hx)]
      exact beq_iff_eq.mpr h
  | some t =>
      rw [hs.fullValue_bound hx, hs.fullValue_bound (get?_congr h ▸ hx)]
      exact Term.equal_self _

/-- The full values as an assignment. -/
def solution (s : Substitution) : Assignment :=
  fun i => s.fullValue ⟨i, ""⟩

/-- A term stands for its full value. -/
theorem Acyclic.value_solution (hs : s.Acyclic) (t : Term) :
    (s.solution.value t).equal (t.instantiate s.fullValue) = true :=
  Term.equal_instantiate t fun _ _ => hs.fullValue_congr rfl

/-- **FULL VALUES ARE A SOLUTION.** -/
theorem Acyclic.satisfies_solution (hs : s.Acyclic) :
    s.solution.Satisfies s := by
  intro x t hx
  have hvalue : (s.solution.value (.var x)).equal (s.fullValue x) = true :=
    hs.value_solution (.var x)
  rw [hs.fullValue_bound hx] at hvalue
  refine Term.equal_trans hvalue ?_
  rw [Term.equal_comm]
  exact hs.value_solution t

/-- **AND THE MOST GENERAL ONE**: every solution makes a term equal to its
    full value. -/
theorem Acyclic.equates_fullValue (hs : s.Acyclic) {θ : Assignment}
    (hθ : θ.Satisfies s) (t : Term) :
    θ.Equates t (t.instantiate s.fullValue) := by
  induction t using hs.induct with
  | unbound x hx =>
      rw [Term.instantiate, fullValue_unbound hx]
      exact Assignment.equates_self _
  | bound x t hx ih =>
      rw [Term.instantiate, hs.fullValue_bound hx]
      exact (hθ x t hx).trans ih
  | atom a => exact Assignment.equates_self _
  | composite m ts ih =>
      rw [Term.instantiate, Assignment.equates_composite,
        Term.instantiateAll_eq_map, List.forall₂_map_right_iff,
        List.forall₂_same]
      exact ih

end Substitution

end LogicSearch
