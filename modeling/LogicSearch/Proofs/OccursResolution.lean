import LogicSearch.Proofs.Resolution

/-! # The occurs check and resolution, on every substitution

    The two traversals meet the same variables in the same order, and the
    occurs check stops at the first occurrence.  So, on a term with a full
    value, the check looks through that value, and on a term without one it
    fails where resolution fails, unless it stopped before
    (`occurs_of_resolve_error`).

    `Meets` says which variables it can stop at.  A variable that is met has
    only terms with full values to its left, and there the check does not
    fail (`Meets.anyVar_eq_true`).  Conversely, what the check goes by has a full
    value (`Visits.acyclicFrom`). -/

namespace LogicSearch

/-! ## Searches in a term -/

namespace Term

variable {ε : Type} {f : Var → Except ε Bool}

/-- A search that finds nothing has been through all variables. -/
theorem anyVar_eq_false (t : Term) (h : t.anyVar f = .ok false) :
    ∀ x ∈ t.vars, f x = .ok false := by
  induction t with
  | var x =>
      intro y hy
      rw [List.mem_singleton.mp hy]
      exact h
  | atom a =>
      intro x hx
      cases hx
  | composite m ts ih =>
      rw [anyVar] at h
      rw [vars]
      induction ts with
      | nil =>
          intro x hx
          cases hx
      | cons t ts ihts =>
          rw [anyVarAll] at h
          cases ht : t.anyVar f with
          | error e => rw [ht] at h; cases h
          | ok found =>
              rw [ht] at h
              cases found with
              | true => cases h
              | false =>
                  intro x hx
                  rcases List.mem_append.mp hx with hx | hx
                  · exact ih t (List.mem_cons_self ..) ht x hx
                  · exact ihts (fun u hu => ih u (List.mem_cons_of_mem _ hu))
                      h x hx

/-- A search does not fail if none of its tests does. -/
theorem exists_anyVar_eq_ok (t : Term)
    (h : ∀ x ∈ t.vars, ∃ b, f x = .ok b) : ∃ b, t.anyVar f = .ok b := by
  cases ht : t.anyVar f with
  | ok b => exact ⟨b, rfl⟩
  | error e =>
      obtain ⟨x, hx, hfx⟩ := exists_of_anyVar t ht fun he => by cases he
      obtain ⟨b, hb⟩ := h x hx
      rw [hfx] at hb
      cases hb

/-- A search among items comes to the first that has something, past items
    that were searched in vain. -/
theorem exists_of_anyVarAll_eq_true {ts : List Term}
    (h : anyVarAll f ts = .ok true) :
    ∃ before t after, ts = before ++ t :: after ∧
      (∀ u ∈ before, u.anyVar f = .ok false) ∧ t.anyVar f = .ok true := by
  induction ts with
  | nil => cases h
  | cons t ts ih =>
      rw [anyVarAll] at h
      cases ht : t.anyVar f with
      | error e => rw [ht] at h; cases h
      | ok found =>
          rw [ht] at h
          cases found with
          | true =>
              exact ⟨[], t, ts, rfl, by simp, ht⟩
          | false =>
              obtain ⟨before, u, after, rfl, hbefore, hu⟩ := ih h
              refine ⟨t :: before, u, after, rfl, ?_, hu⟩
              intro w hw
              rcases List.mem_cons.mp hw with rfl | hw
              · exact ht
              · exact hbefore w hw

theorem anyVarAll_append_eq_true {before after : List Term} {t : Term}
    (hbefore : ∀ u ∈ before, ∃ b, u.anyVar f = .ok b)
    (ht : t.anyVar f = .ok true) :
    anyVarAll f (before ++ t :: after) = .ok true := by
  induction before with
  | nil => rw [List.nil_append, anyVarAll, ht]
  | cons u us ih =>
      have hus := ih fun w hw => hbefore w (List.mem_cons_of_mem _ hw)
      obtain ⟨found, hu⟩ := hbefore u (List.mem_cons_self ..)
      rw [List.cons_append, anyVarAll, hu]
      cases found with
      | true => rfl
      | false => exact hus

mutual

/-- A search among the variables of what a term was to be expanded to: where
    the expansion fails, the search has found something before, or fails,
    too. -/
theorem anyVar_of_expand_error {g : Var → Except ε Term} {p : Var → Bool}
    {e : ε} (t : Term) (h : t.expand g = .error e)
    (hok : ∀ x u, g x = .ok u → f x = .ok (u.vars.any p))
    (herr : ∀ x, g x = .error e → f x = .ok true ∨ f x = .error e) :
    t.anyVar f = .ok true ∨ t.anyVar f = .error e := by
  match t with
  | .var x => exact herr x h
  | .atom a => cases h
  | .composite m ts =>
      rw [expand] at h
      cases hts : expandAll g ts with
      | error e' =>
          rw [hts] at h
          cases h
          exact anyVarAll_of_expandAll_error ts hts hok herr
      | ok us => rw [hts] at h; cases h

theorem anyVarAll_of_expandAll_error {g : Var → Except ε Term}
    {p : Var → Bool} {e : ε} (ts : List Term)
    (h : expandAll g ts = .error e)
    (hok : ∀ x u, g x = .ok u → f x = .ok (u.vars.any p))
    (herr : ∀ x, g x = .error e → f x = .ok true ∨ f x = .error e) :
    anyVarAll f ts = .ok true ∨ anyVarAll f ts = .error e := by
  match ts with
  | [] => cases h
  | t :: ts =>
      rw [expandAll] at h
      rw [anyVarAll]
      cases ht : t.expand g with
      | error e' =>
          rw [ht] at h
          cases h
          rcases anyVar_of_expand_error t ht hok herr with hf | hf
          · rw [hf]
            exact .inl rfl
          · rw [hf]
            exact .inr rfl
      | ok u =>
          rw [ht] at h
          cases hts : expandAll g ts with
          | error e' =>
              rw [hts] at h
              cases h
              rw [anyVar_of_expand t ht hok]
              cases u.vars.any p with
              | true => exact .inl rfl
              | false => exact anyVarAll_of_expandAll_error ts hts hok herr
          | ok us => rw [hts] at h; cases h

end

end Term

namespace Substitution

variable {s : Substitution} {x : Var}

/-! ## Where resolution fails -/

theorem occursVar_of_resolveVar_error (x : Var) (budget : Nat)
    {path : List Var} {y : Var} {e : Error}
    (h : s.resolveVar budget path y = .error e) :
    s.occursVar x budget path y = .ok true ∨
      s.occursVar x budget path y = .error e := by
  induction budget using Nat.strong_induction_on generalizing path y with
  | _ budget ih =>
      rw [resolveVar.eq_def] at h
      rw [occursVar.eq_def]
      cases hy : s.walk (.var y) with
      | error e' => rw [hy] at h; cases h; exact .inr rfl
      | ok u =>
          rw [hy] at h
          cases u with
          | var z => cases h
          | atom a => cases h
          | composite m ts =>
              by_cases hentered : entered path y = true
              · simp only [if_pos hentered] at h ⊢
                cases h
                exact .inr rfl
              · simp only [if_neg hentered] at h ⊢
                cases budget with
                | zero => cases h; exact .inr rfl
                | succ left =>
                    refine Term.anyVar_of_expand_error _ h
                      (fun z u hz => occursVar_of_resolveVar x left hz) ?_
                    intro z hz
                    exact ih left (Nat.lt_succ_self left) hz

/-- **THE CHECK FAILS AS RESOLUTION DOES**, unless it has found the variable
    before. -/
theorem occurs_of_resolve_error (x : Var) {t : Term} {e : Error}
    (h : s.resolve t = .error e) :
    s.occurs x t = .ok true ∨ s.occurs x t = .error e :=
  Term.anyVar_of_expand_error t h
    (fun _ _ hy => occursVar_of_resolveVar x _ hy)
    (fun _ hy => occursVar_of_resolveVar_error x _ hy)

/-! ## What the check stops at -/

variable {path : List Var} {y : Var}

/-- **WHAT THE CHECK GOES BY HAS A FULL VALUE**: no cycle can be reached from
    it. -/
theorem Visits.acyclicFrom
    (h : s.Visits (.finding x) path y (.ok false)) :
    s.AcyclicFrom (.var y) := by
  generalize hres : (.ok false : Except Error Bool) = res at h
  induction h with
  | broken _ => cases hres
  | @leaf _ _ u hy hu =>
      refine AcyclicFrom.of_walk ?_ hy
      cases u with
      | var z => exact acyclicFrom_unbound (isEnd_of_walk hy z rfl)
      | atom a => exact acyclicFrom_atom a
      | composite m ts => exact absurd rfl (hu m ts)
  | again _ _ => cases hres
  | inside hy _ _ ih =>
      refine AcyclicFrom.of_walk (acyclicFrom_iff.mpr fun w hw => ?_) hy
      exact ih w hw (Term.anyVar_eq_false _ hres.symm w hw).symm

/-- A search that finds something: what it looked at in vain has a full
    value, and the rest is the way to the variable. -/
theorem meets_of_anyVar {f : Var → Except Error Bool} (t : Term)
    (ht : t.anyVar f = .ok true)
    (hpassed : ∀ y ∈ t.vars, f y = .ok false → s.AcyclicFrom (.var y))
    (hfound : ∀ y ∈ t.vars, f y = .ok true → s.Meets x path (.var y)) :
    s.Meets x path t := by
  induction t with
  | var y => exact hfound y (List.mem_singleton_self y) ht
  | atom a => cases ht
  | composite m ts ih =>
      rw [Term.anyVar] at ht
      obtain ⟨before, t, after, rfl, hbefore, ht⟩ :=
        Term.exists_of_anyVarAll_eq_true ht
      have hmem : t ∈ before ++ t :: after := List.mem_append_cons_self
      refine .item (fun u hu => ?_) (ih t hmem ht
        (fun y hy => hpassed y (Term.mem_vars_item hmem hy))
        (fun y hy => hfound y (Term.mem_vars_item hmem hy)))
      refine exists_unfolds_iff.mpr (acyclicFrom_iff.mpr fun y hy => ?_)
      have hitem : u ∈ before ++ t :: after := List.mem_append_left _ hu
      exact hpassed y (Term.mem_vars_item hitem hy)
        (Term.anyVar_eq_false u (hbefore u hu) y hy)

theorem Visits.meets (h : s.Visits (.finding x) path y (.ok true)) :
    s.Meets x path (.var y) := by
  generalize hres : (.ok true : Except Error Bool) = res at h
  induction h with
  | broken _ => cases hres
  | @leaf _ _ u hy hu =>
      have hux : u.isVar x = true := (Except.ok.inj hres).symm
      cases u with
      | var z => exact .here hy hux
      | atom a => cases hux
      | composite m ts => exact absurd rfl (hu m ts)
  | again _ _ => cases hres
  | inside hy hnew hf ih =>
      refine .inside hy hnew (meets_of_anyVar _ hres.symm ?_ ?_)
      · intro w hw hfw
        have hvisits := hf w hw
        rw [hfw] at hvisits
        exact hvisits.acyclicFrom
      · intro w hw hfw
        exact ih w hw hfw.symm

/-- **WHAT IS MET IS FOUND**, since the check does not fail at what has a
    full value. -/
theorem Meets.anyVar_eq_true {t : Term} (h : s.Meets x path t)
    {f : Var → Except Error Bool}
    (hf : ∀ y ∈ t.vars, s.Visits (.finding x) path y (f y))
    (hin : ∀ y ∈ t.vars, s.Inside path y) : t.anyVar f = .ok true := by
  induction h generalizing f with
  | @here path y z hy hz =>
      have hvisits := hf y (List.mem_singleton_self y)
      have hfy : f y = .ok (z.same x) :=
        hvisits.of_leaf hy fun _ _ hcomposite => by cases hcomposite
      rw [Term.anyVar, hfy, hz]
  | @inside path y m ts hy hnew _ ih =>
      have hvisits := hf y (List.mem_singleton_self y)
      have hpath := hin y (List.mem_singleton_self y)
      obtain ⟨g, hfy, hg⟩ := hvisits.of_inside hy hnew
      rw [Term.anyVar, hfy]
      exact ih hg fun w hw => hpath.enter hy hnew hw
  | @item path m before after t hbefore _ ih =>
      have hmem : t ∈ before ++ t :: after := List.mem_append_cons_self
      rw [Term.anyVar]
      refine Term.anyVarAll_append_eq_true (fun u hu => ?_)
        (ih (fun y hy => hf y (Term.mem_vars_item hmem hy))
          fun y hy => hin y (Term.mem_vars_item hmem hy))
      refine Term.exists_anyVar_eq_ok u fun y hy => ?_
      cases hfy : f y with
      | ok b => exact ⟨b, rfl⟩
      | error e =>
          -- an error would be about a cycle that can be reached from `u`
          have hitem : u ∈ before ++ t :: after := List.mem_append_left _ hu
          have hyvars := Term.mem_vars_item (m := m) hitem hy
          have hvisits := hf y hyvars
          rw [hfy] at hvisits
          have hfault := hvisits.fault (hin y hyvars) ⟨y, hy, .refl _⟩
          exact absurd (exists_unfolds_iff.mp (hbefore u hu))
            hfault.not_acyclicFrom

/-- **THE CHECK FINDS WHAT IS MET** before a cycle is closed, and nothing
    else. -/
theorem occurs_eq_true_iff {t : Term} :
    s.occurs x t = .ok true ↔ s.Meets x [] t := by
  rw [occurs]
  have hvisits := (s.budgeted_occursVar x).visits_nil
  constructor
  · intro h
    refine meets_of_anyVar t h (fun y _ hy => ?_) fun y _ hy => ?_
    · have hpassed := hvisits y
      rw [hy] at hpassed
      exact hpassed.acyclicFrom
    · have hfound := hvisits y
      rw [hy] at hfound
      exact hfound.meets
  · intro h
    exact h.anyVar_eq_true (fun y _ => hvisits y) fun y _ => s.inside_nil y

/-! ## Agreement -/

/-- **THE CHECK AGREES WITH RESOLUTION**, under every substitution:

    - the recursion ends, and the budget of `occurs` does not change what it
      comes to;
    - on a term with a full value, the check says whether the variable
      occurs in it;
    - on a term without one, it says that the variable occurs if the
      variable is met before a cycle is closed, and fails with the error of
      the resolution otherwise;
    - so it says no only of terms with a full value. -/
theorem occurs_agrees_with_resolve (s : Substitution) (x : Var) (t : Term) :
    (∀ r, s.Traverses (.finding x) t r ↔ s.occurs x t = r) ∧
    (∀ r, s.resolve t = .ok r →
      s.occurs x t = .ok (r.vars.any (·.same x))) ∧
    (∀ e, s.resolve t = .error e →
      s.occurs x t = .ok true ∧ s.Meets x [] t ∨
        s.occurs x t = .error e ∧ ¬ s.Meets x [] t) ∧
    (s.occurs x t = .ok false → ∃ r, s.resolve t = .ok r) := by
  refine ⟨(s.budgeted_occursVar x).traverses t,
    fun r => occurs_of_resolve x, ?_, ?_⟩
  · intro e he
    rcases occurs_of_resolve_error x he with hfound | herror
    · exact .inl ⟨hfound, occurs_eq_true_iff.mp hfound⟩
    · refine .inr ⟨herror, fun hmeets => ?_⟩
      rw [occurs_eq_true_iff.mpr hmeets] at herror
      cases herror
  · intro hno
    cases hr : s.resolve t with
    | ok r => exact ⟨r, rfl⟩
    | error e =>
        rcases occurs_of_resolve_error x hr with h | h
        · rw [hno] at h
          cases h
        · rw [hno] at h
          cases h

end Substitution

end LogicSearch
