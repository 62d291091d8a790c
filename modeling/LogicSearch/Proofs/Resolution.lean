import LogicSearch.Proofs.Traversal

/-! # Resolution finds the full values and the infinite ones

    `resolve` has an answer for every term under every substitution, also
    under one with cycles.  Where no cycle can be reached, the answer is the
    term with its bound variables replaced by their values, over and over
    (`Unfolds`).  Otherwise it is an error that names a variable on the way
    to a cycle, or on one; a variable that only occurs more than once is
    never named.

    That an unfolding exists keeps cycles away (`Unfolds.acyclicFrom`), and
    that there is no cycle makes `resolve` succeed, since its errors are
    about cycles. -/

namespace LogicSearch

namespace Substitution

variable {s : Substitution}

/-! ## Terms from which no cycle can be reached -/

theorem acyclicFrom_unbound {x : Var} (hx : s.get? x = none) :
    s.AcyclicFrom (.var x) := by
  intro i j hi href
  rw [reachesFrom_var] at hi
  rw [hi.eq_of_value?_eq_none hx] at href
  obtain ⟨t, ht, -⟩ := href
  rw [← get?, hx] at ht
  cases ht

/-- A variable of a value without cycles does not lie on one, since it could
    be reached from its value. -/
theorem AcyclicFrom.bound {x : Var} {t : Term} (h : s.AcyclicFrom t)
    (hx : s.get? x = some t) : s.AcyclicFrom (.var x) := by
  intro i j hi href hback
  rw [reachesFrom_var, reaches_bound hx] at hi
  rcases hi with rfl | hi
  · obtain ⟨v, hv, y, hy, rfl⟩ := href
    rw [← get?, hx] at hv
    cases hv
    exact h x.id y.id ⟨y, hy, hback⟩ ⟨t, hx, y, hy, rfl⟩ hback
  · exact h i j hi href hback

theorem acyclicFrom_atom (a : Atom) : s.AcyclicFrom (.atom a) := by
  rintro i j ⟨x, hx, -⟩
  cases hx

/-- Which cycles can be reached is decided by the variables. -/
theorem acyclicFrom_iff {t : Term} :
    s.AcyclicFrom t ↔ ∀ x ∈ t.vars, s.AcyclicFrom (.var x) := by
  constructor
  · intro h x hx i j hi
    exact h i j ⟨x, hx, reachesFrom_var.mp hi⟩
  · rintro h i j ⟨x, hx, hi⟩
    exact h x hx i j (reachesFrom_var.mpr hi)

theorem acyclicFrom_composite {m : Option Mark} {ts : List Term}
    (h : ∀ t ∈ ts, s.AcyclicFrom t) : s.AcyclicFrom (.composite m ts) := by
  refine acyclicFrom_iff.mpr fun x hx => ?_
  obtain ⟨t, ht, hxt⟩ := Term.mem_vars_composite.mp hx
  exact acyclicFrom_iff.mp (h t ht) x hxt

theorem AcyclicFrom.of_walk {t u : Term} (h : s.AcyclicFrom u)
    (hwalk : s.walk t = .ok u) : s.AcyclicFrom t := by
  obtain ⟨n, hn⟩ := walk_eq_ok_iff.mp hwalk
  exact chase_back_induct (motive := fun _ t => s.AcyclicFrom t)
    (fun _ _ => h) (fun _ _ _ hx ht => ht.bound hx) hn

/-! ## Unfoldings -/

/-- A term has one unfolding. -/
theorem Unfolds.unique {t r r' : Term} (h : s.Unfolds t r)
    (h' : s.Unfolds t r') : r = r' := by
  refine Unfolds.induct (motive := fun t r => ∀ r', s.Unfolds t r' → r = r')
    ?_ ?_ ?_ ?_ h r' h'
  · intro x hx r' h'
    cases h' with
    | unbound _ => rfl
    | bound hx' _ => rw [hx] at hx'; cases hx'
  · intro x t r hx ih r' h'
    cases h' with
    | unbound hx' => rw [hx] at hx'; cases hx'
    | bound hx' ht' =>
        rw [hx] at hx'
        cases hx'
        exact ih r' ht'
  · intro a r' h'
    cases h'
    rfl
  · intro m ts rs ih r' h'
    cases h' with
    | @composite _ _ rs' hts' =>
        congr 1
        induction ih generalizing rs' with
        | nil => cases hts'; rfl
        | cons iht _ ihs =>
            cases hts' with
            | cons ht' hts' => rw [iht _ ht', ihs hts']

/-- **NO BOUND VARIABLE IS LEFT** in an unfolding. -/
theorem Unfolds.unbound_of_mem_vars {t r : Term} (h : s.Unfolds t r) :
    ∀ x ∈ r.vars, s.get? x = none := by
  refine Unfolds.induct (motive := fun _ r => ∀ x ∈ r.vars, s.get? x = none)
    ?_ ?_ ?_ ?_ h
  · intro x hx y hy
    rw [List.mem_singleton.mp hy]
    exact hx
  · intro _ _ _ _ ih
    exact ih
  · intro a x hx
    cases hx
  · intro m ts rs ih x hx
    rw [Term.vars] at hx
    induction ih with
    | nil => cases hx
    | cons iht _ ihs =>
        rcases List.mem_append.mp hx with hx | hx
        · exact iht x hx
        · exact ihs hx

/-- **AN UNFOLDING KEEPS CYCLES AWAY**: on a cycle it would not come to an
    end. -/
theorem Unfolds.acyclicFrom {t r : Term} (h : s.Unfolds t r) :
    s.AcyclicFrom t := by
  refine Unfolds.induct (motive := fun t _ => s.AcyclicFrom t) ?_ ?_ ?_ ?_ h
  · intro x hx
    exact acyclicFrom_unbound hx
  · intro x t _ hx ih
    exact ih.bound hx
  · intro a
    exact acyclicFrom_atom a
  · intro m ts rs ih
    refine acyclicFrom_composite fun t ht => ?_
    induction ih with
    | nil => cases ht
    | cons iht _ ihs =>
        rcases List.mem_cons.mp ht with rfl | ht
        · exact iht
        · exact ihs ht

/-- What the end of a chain unfolds to, its variables unfold to. -/
theorem Unfolds.of_walk {t u r : Term} (h : s.Unfolds u r)
    (hwalk : s.walk t = .ok u) : s.Unfolds t r := by
  obtain ⟨n, hn⟩ := walk_eq_ok_iff.mp hwalk
  exact chase_back_induct (motive := fun _ t => s.Unfolds t r)
    (fun _ _ => h) (fun _ _ _ hx ht => .bound hx ht) hn

/-! ## What `resolve` comes to -/

section Expansion

variable {f : Var → Except Error Term}

mutual

/-- A term is unfolded by unfolding its variables. -/
theorem unfolds_of_expand (t : Term) {r : Term} (h : t.expand f = .ok r)
    (hf : ∀ x ∈ t.vars, ∀ u, f x = .ok u → s.Unfolds (.var x) u) :
    s.Unfolds t r := by
  match t with
  | .var x => exact hf x (List.mem_singleton_self x) r h
  | .atom a =>
      cases h
      exact .atom a
  | .composite m ts =>
      rw [Term.expand] at h
      cases hts : Term.expandAll f ts with
      | error e => rw [hts] at h; cases h
      | ok us =>
          rw [hts] at h
          cases h
          exact .composite (unfolds_of_expandAll ts hts hf)

theorem unfolds_of_expandAll (ts : List Term) {rs : List Term}
    (h : Term.expandAll f ts = .ok rs)
    (hf : ∀ x ∈ Term.varsAll ts, ∀ u, f x = .ok u → s.Unfolds (.var x) u) :
    List.Forall₂ s.Unfolds ts rs := by
  match ts with
  | [] =>
      cases h
      exact .nil
  | t :: ts =>
      rw [Term.expandAll] at h
      cases ht : t.expand f with
      | error e => rw [ht] at h; cases h
      | ok u =>
          rw [ht] at h
          cases hts : Term.expandAll f ts with
          | error e => rw [hts] at h; cases h
          | ok us =>
              rw [hts] at h
              cases h
              exact .cons
                (unfolds_of_expand t ht fun x hx =>
                  hf x (List.mem_append_left _ hx))
                (unfolds_of_expandAll ts hts fun x hx =>
                  hf x (List.mem_append_right _ hx))

end

end Expansion

/-- A variable is unfolded where its traversal succeeds. -/
theorem Visits.unfolds {path : List Var} {y : Var} {r : Term}
    (h : s.Visits .resolving path y (.ok r)) : s.Unfolds (.var y) r := by
  generalize hres : (.ok r : Except Error Term) = res at h
  induction h generalizing r with
  | broken _ => cases hres
  | @leaf _ _ u hy hu =>
      cases hres
      refine Unfolds.of_walk ?_ hy
      cases u with
      | var z => exact .unbound (isEnd_of_walk hy z rfl)
      | atom a => exact .atom a
      | composite m ts => exact absurd rfl (hu m ts)
  | again _ _ => cases hres
  | inside hy _ _ ih =>
      exact (unfolds_of_expand _ hres.symm fun w hw _ hu =>
        ih w hw hu.symm).of_walk hy

theorem unfolds_of_resolve {t r : Term} (h : s.resolve t = .ok r) :
    s.Unfolds t r := by
  obtain ⟨f, hf, hr⟩ := (s.budgeted_resolveVar.traverses t (.ok r)).mpr h
  refine unfolds_of_expand t hr fun x hx u hu => ?_
  have hvisits := hf x hx
  rw [hu] at hvisits
  exact hvisits.unfolds

theorem fault_of_resolve {t : Term} {e : Error}
    (h : s.resolve t = .error e) : s.Fault t e :=
  Traverses.fault ((s.budgeted_resolveVar.traverses t (.error e)).mpr h)

/-- Where no cycle can be reached, no error is left. -/
theorem AcyclicFrom.exists_resolve {t : Term} (h : s.AcyclicFrom t) :
    ∃ r, s.resolve t = .ok r := by
  cases hr : s.resolve t with
  | ok r => exact ⟨r, rfl⟩
  | error e => exact absurd h (fault_of_resolve hr).not_acyclicFrom

/-- **EXACTLY THE TERMS WITHOUT A CYCLE UNFOLD.** -/
theorem exists_unfolds_iff {t : Term} :
    (∃ r, s.Unfolds t r) ↔ s.AcyclicFrom t := by
  constructor
  · rintro ⟨r, hr⟩
    exact hr.acyclicFrom
  · intro h
    obtain ⟨r, hr⟩ := h.exists_resolve
    exact ⟨r, unfolds_of_resolve hr⟩

theorem resolve_eq_ok_iff {t r : Term} :
    s.resolve t = .ok r ↔ s.Unfolds t r := by
  refine ⟨unfolds_of_resolve, fun h => ?_⟩
  obtain ⟨r', hr'⟩ := h.acyclicFrom.exists_resolve
  rw [hr', h.unique (unfolds_of_resolve hr')]

/-- **RESOLUTION FINDS THE FULL VALUE OR THE CYCLE**, under every
    substitution:

    - the recursion ends, and the budget of `resolve` does not change what
      it comes to;
    - it succeeds for the terms from which no cycle can be reached;
    - then no bound variable is left, and the result is the term with its
      bound variables replaced by their values, over and over;
    - an error names a variable that can be reached and whose value contains
      it, or one that can be reached and whose chain has no end;
    - a variable that cannot be reached from its own value is not named,
      however often it occurs. -/
theorem resolve_spec (s : Substitution) (t : Term) :
    (∀ r, s.Traverses .resolving t r ↔ s.resolve t = r) ∧
    ((∃ r, s.resolve t = .ok r) ↔ s.AcyclicFrom t) ∧
    (∀ r, s.resolve t = .ok r ↔ s.Unfolds t r) ∧
    (∀ r, s.resolve t = .ok r → ∀ x ∈ r.vars, s.get? x = none) ∧
    (∀ e, s.resolve t = .error e → s.Fault t e) ∧
    ∀ y, (∀ j, s.Refers y.id j → ¬ s.Reaches j y.id) →
      s.resolve t ≠ .error (.cyclicTerm y) := by
  refine ⟨s.budgeted_resolveVar.traverses t, ⟨?_, ?_⟩, fun r =>
    resolve_eq_ok_iff, ?_, fun e => fault_of_resolve, ?_⟩
  · rintro ⟨r, hr⟩
    exact (unfolds_of_resolve hr).acyclicFrom
  · exact AcyclicFrom.exists_resolve
  · intro r hr x hx
    exact (unfolds_of_resolve hr).unbound_of_mem_vars x hx
  · intro y hy herr
    cases fault_of_resolve herr with
    | infinite _ hwalk hback =>
        obtain ⟨w, hw, hwy⟩ := hback
        obtain ⟨j, href, hjw⟩ := refers_of_walk hwalk hw
        exact hy j href (hjw.trans hwy)

end Substitution

end LogicSearch
