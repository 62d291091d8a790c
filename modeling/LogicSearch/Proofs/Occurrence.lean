import LogicSearch.Proofs.Acyclicity
import LogicSearch.Substitution.Resolve

/-! # What the occurs check finds

    Under an acyclic substitution the occurs check has an answer, and the
    answer says whether the unbound variable can be reached from the term
    (`Acyclic.occurs_eq`).  The budget of the check is enough, because the
    rank of a variable is the longest way there is below it, and no variable
    is met inside itself.

    Under other substitutions the check can fail, at a chain without an end
    or at an infinite value (`occurs_eq_error`). -/

namespace LogicSearch

namespace Term

variable {ε : Type} {f : Var → Except ε Bool}

/-- A search among variables that all pass or fail the test without an
    error. -/
theorem anyVar_eq_ok {g : Var → Bool} (t : Term)
    (h : ∀ x ∈ t.vars, f x = .ok (g x)) :
    t.anyVar f = .ok (t.vars.any g) := by
  induction t with
  | var x =>
      rw [anyVar, h x (List.mem_singleton_self x), vars, List.any_cons,
        List.any_nil, Bool.or_false]
  | atom a => rfl
  | composite m ts ih =>
      rw [anyVar, vars]
      rw [vars] at h
      induction ts with
      | nil => rfl
      | cons t ts ihts =>
          have ht := ih t (List.mem_cons_self ..) fun x hx =>
            h x (List.mem_append_left _ hx)
          have hts := ihts (fun u hu => ih u (List.mem_cons_of_mem _ hu))
            fun x hx => h x (List.mem_append_right _ hx)
          rw [anyVarAll, varsAll, List.any_append, ht]
          cases ht' : t.vars.any g with
          | true => rfl
          | false =>
              rw [Bool.false_or]
              exact hts

mutual

/-- A search among the variables of what a term was expanded to, if the test
    of every variable is such a search. -/
theorem anyVar_of_expand {g : Var → Except ε Term} {p : Var → Bool}
    (t : Term) {r : Term} (h : t.expand g = .ok r)
    (hfg : ∀ x u, g x = .ok u → f x = .ok (u.vars.any p)) :
    t.anyVar f = .ok (r.vars.any p) := by
  match t with
  | .var x => exact hfg x r h
  | .atom a => cases h; rfl
  | .composite m ts =>
      rw [expand] at h
      cases hts : expandAll g ts with
      | error e => rw [hts] at h; cases h
      | ok us =>
          rw [hts] at h
          cases h
          rw [anyVar, vars]
          exact anyVarAll_of_expandAll ts hts hfg

theorem anyVarAll_of_expandAll {g : Var → Except ε Term} {p : Var → Bool}
    (ts : List Term) {us : List Term} (h : expandAll g ts = .ok us)
    (hfg : ∀ x u, g x = .ok u → f x = .ok (u.vars.any p)) :
    anyVarAll f ts = .ok ((varsAll us).any p) := by
  match ts with
  | [] => cases h; rfl
  | t :: ts =>
      rw [expandAll] at h
      cases ht : expand g t with
      | error e => rw [ht] at h; cases h
      | ok u =>
          rw [ht] at h
          cases hrest : expandAll g ts with
          | error e => rw [hrest] at h; cases h
          | ok us =>
              rw [hrest] at h
              cases h
              rw [anyVarAll, varsAll, List.any_append,
                anyVar_of_expand t ht hfg]
              cases u.vars.any p with
              | true => rfl
              | false =>
                  rw [Bool.false_or]
                  exact anyVarAll_of_expandAll ts hrest hfg

end

end Term

namespace Substitution

variable {s : Substitution}

/-! ## How the check comes to its answer -/

/-- An answer other than no comes from the end of a chain, from a variable
    met inside itself, or from further down in the value of the variable,
    with a smaller budget. -/
theorem occursVar_ne_false {x : Var} {budget : Nat} {path : List Var}
    {y : Var} {r : Except Error Bool}
    (h : s.occursVar x budget path y = r) (hr : r ≠ .ok false) :
    (∃ e, s.walk (.var y) = .error e ∧ r = .error e) ∨
    (∃ z, s.walk (.var y) = .ok (.var z) ∧ z.same x = true ∧ r = .ok true) ∨
    r = .error (.cyclicTerm y) ∨
    ∃ m ts w left, s.walk (.var y) = .ok (.composite m ts)
      ∧ w ∈ (Term.composite m ts).vars ∧ budget = left + 1
      ∧ s.occursVar x left (y :: path) w = r := by
  rw [occursVar.eq_def] at h
  cases hy : s.walk (.var y) with
  | error e =>
      rw [hy] at h
      exact .inl ⟨e, rfl, h.symm⟩
  | ok u =>
      rw [hy] at h
      cases u with
      | var z =>
          have hzr : (.ok (z.same x) : Except Error Bool) = r := h
          cases hzx : z.same x with
          | true =>
              rw [hzx] at hzr
              exact .inr (.inl ⟨z, rfl, hzx, hzr.symm⟩)
          | false =>
              rw [hzx] at hzr
              exact absurd hzr.symm hr
      | atom a => exact absurd h.symm hr
      | composite m ts =>
          by_cases hentered : entered path y = true
          · simp only [if_pos hentered] at h
            exact .inr (.inr (.inl h.symm))
          · simp only [if_neg hentered] at h
            cases budget with
            | zero => exact .inr (.inr (.inl h.symm))
            | succ left =>
                obtain ⟨w, hw, hwx⟩ := Term.exists_of_anyVar _ h hr
                exact .inr (.inr (.inr ⟨m, ts, w, left, rfl, hw, rfl, hwx⟩))

/-- An occurrence is found at the end of a chain, or further down. -/
theorem occursVar_eq_true {x : Var} {budget : Nat} {path : List Var}
    {y : Var} (h : s.occursVar x budget path y = .ok true) :
    (∃ z, s.walk (.var y) = .ok (.var z) ∧ z.same x = true) ∨
    ∃ m ts w left, s.walk (.var y) = .ok (.composite m ts)
      ∧ w ∈ (Term.composite m ts).vars ∧ budget = left + 1
      ∧ s.occursVar x left (y :: path) w = .ok true := by
  have hyes : (.ok true : Except Error Bool) ≠ .ok false := by decide
  rcases occursVar_ne_false h hyes with
    ⟨e, -, he⟩ | ⟨z, hz, hzx, -⟩ | he | hfurther
  · cases he
  · exact .inl ⟨z, hz, hzx⟩
  · cases he
  · exact .inr hfurther

/-- The check fails at a chain without an end or at an infinite value. -/
theorem occursVar_eq_error {x : Var} {e : Error} (budget : Nat)
    {path : List Var} {y : Var}
    (h : s.occursVar x budget path y = .error e) :
    (∃ z, s.walk (.var z) = .error e) ∨ ∃ z, e = .cyclicTerm z := by
  induction budget using Nat.strong_induction_on generalizing path y with
  | _ budget ih =>
      have hfails : (.error e : Except Error Bool) ≠ .ok false := by
        intro he
        cases he
      rcases occursVar_ne_false h hfails with
        ⟨e', hy, he⟩ | ⟨z, -, -, he⟩ | he | ⟨m, ts, w, left, -, -, rfl, hw⟩
      · cases he
        exact .inl ⟨y, hy⟩
      · cases he
      · cases he
        exact .inr ⟨y, rfl⟩
      · exact ih left (Nat.lt_succ_self left) hw

theorem occurs_eq_error {x : Var} {t : Term} {e : Error}
    (h : s.occurs x t = .error e) :
    (∃ y, s.walk (.var y) = .error e) ∨ ∃ y, e = .cyclicTerm y := by
  have hfails : (.error e : Except Error Bool) ≠ .ok false := by
    intro he
    cases he
  obtain ⟨y, -, hy⟩ := Term.exists_of_anyVar t h hfails
  exact occursVar_eq_error s.size hy

/-! ## The check and the full value -/

theorem occursVar_of_resolveVar (x : Var) (budget : Nat) {path : List Var}
    {y : Var} {r : Term} (h : s.resolveVar budget path y = .ok r) :
    s.occursVar x budget path y = .ok (r.vars.any (·.same x)) := by
  induction budget using Nat.strong_induction_on generalizing path y r with
  | _ budget ih =>
      rw [resolveVar.eq_def] at h
      rw [occursVar.eq_def]
      cases hy : s.walk (.var y) with
      | error e => rw [hy] at h; cases h
      | ok u =>
          rw [hy] at h
          cases u with
          | var z => cases h; simp [Term.vars]
          | atom a => cases h; rfl
          | composite m ts =>
              by_cases hentered : entered path y = true
              · simp only [if_pos hentered] at h
                cases h
              · simp only [if_neg hentered] at h ⊢
                cases budget with
                | zero => cases h
                | succ left =>
                    refine Term.anyVar_of_expand _ h ?_
                    intro z t hz
                    exact ih left (Nat.lt_succ_self left) hz

/-- **WHAT OCCURS IS WHAT IS LEFT** in the full value, if there is one. -/
theorem occurs_of_resolve (x : Var) {t r : Term}
    (h : s.resolve t = .ok r) :
    s.occurs x t = .ok (r.vars.any (·.same x)) :=
  Term.anyVar_of_expand t h fun _ _ hy => occursVar_of_resolveVar x _ hy

/-! ## Under an acyclic substitution -/

/-- A variable whose chain ends in a composite is bound. -/
theorem exists_get?_of_walk {y : Var} {m : Option Mark} {ts : List Term}
    (h : s.walk (.var y) = .ok (.composite m ts)) :
    ∃ v, s.get? y = some v := by
  cases hy : s.get? y with
  | none =>
      rw [walk_of_isEnd (isEnd_var hy)] at h
      exact nomatch h
  | some v => exact ⟨v, rfl⟩

/-- And it refers to something from which all variables of that composite
    can be reached. -/
theorem refers_of_walk {y w : Var} {m : Option Mark} {ts : List Term}
    (h : s.walk (.var y) = .ok (.composite m ts))
    (hw : w ∈ (Term.composite m ts).vars) :
    ∃ j, s.Refers y.id j ∧ s.Reaches j w.id := by
  obtain ⟨v, hy⟩ := exists_get?_of_walk h
  rw [walk_bound hy] at h
  have hback : ∀ w ∈ (Term.composite m ts).vars, ∃ z ∈ v.vars,
      s.Reaches z.id w.id := by
    refine walk_induct (motive := fun u => ∀ w ∈ u.vars, ∃ z ∈ v.vars,
      s.Reaches z.id w.id) h (fun w hw => ⟨w, hw, .refl _⟩) ?_
    intro x u hx ih w hw
    obtain ⟨z, hz, hzx⟩ := ih x (List.mem_singleton_self x)
    exact ⟨z, hz, hzx.trans (.step ⟨u, hx, w, hw, rfl⟩ (.refl _))⟩
  obtain ⟨z, hz, hzw⟩ := hback w hw
  exact ⟨z.id, ⟨v, hy, z, hz, rfl⟩, hzw⟩

theorem rank_pos {i : Nat} (h : (s.value? i).isSome) : 0 < s.rank i :=
  Finset.card_pos.mpr ⟨i, mem_reachable.mpr ⟨h, .refl i⟩⟩

theorem rank_pos_of_walk {y : Var} {m : Option Mark} {ts : List Term}
    (h : s.walk (.var y) = .ok (.composite m ts)) : 0 < s.rank y.id := by
  obtain ⟨v, hy⟩ := exists_get?_of_walk h
  refine rank_pos ?_
  rw [← get?, hy]
  rfl

open Classical in
/-- Asking all variables of a term is asking the term. -/
theorem any_reaches (s : Substitution) (t : Term) (j : Nat) :
    (t.vars.any fun y => decide (s.Reaches y.id j))
      = decide (s.ReachesFrom t j) := by
  rw [Bool.eq_iff_iff, List.any_eq_true, decide_eq_true_iff]
  simp only [decide_eq_true_eq, ReachesFrom]

/-- The variables properly above `y` do not have `y` among them. -/
theorem Acyclic.not_entered (hs : s.Acyclic) {path : List Var} {y : Var}
    (hpath : ∀ p ∈ path, ∃ j, s.Refers p.id j ∧ s.Reaches j y.id) :
    entered path y = false := by
  refine Bool.eq_false_iff.mpr ?_
  intro hmem
  obtain ⟨p, hp, hpy⟩ := List.any_eq_true.mp hmem
  obtain ⟨j, href, hjy⟩ := hpath p hp
  rw [← beq_iff_eq.mp hpy] at hjy
  exact hs _ _ href hjy

/-- On the way into the value of a variable the rank drops, and the variable
    joins those that lie properly above. -/
theorem Acyclic.enter (hs : s.Acyclic) {path : List Var} {y w : Var}
    {m : Option Mark} {ts : List Term}
    (h : s.walk (.var y) = .ok (.composite m ts))
    (hw : w ∈ (Term.composite m ts).vars)
    (hpath : ∀ p ∈ path, ∃ j, s.Refers p.id j ∧ s.Reaches j y.id) :
    s.rank w.id < s.rank y.id ∧
      ∀ p ∈ y :: path, ∃ j, s.Refers p.id j ∧ s.Reaches j w.id := by
  obtain ⟨j, href, hjw⟩ := refers_of_walk h hw
  refine ⟨(rank_le hjw).trans_lt (hs.rank_lt href), ?_⟩
  intro p hp
  rcases List.mem_cons.mp hp with rfl | hp
  · exact ⟨j, href, hjw⟩
  · obtain ⟨i, hpi, hiy⟩ := hpath p hp
    exact ⟨i, hpi, hiy.trans (.step href hjw)⟩

open Classical in
/-- The check of one variable, inside variables that lie properly above it
    and with a budget for all that lies below it. -/
theorem Acyclic.occursVar_eq (hs : s.Acyclic) {x : Var}
    (hx : s.get? x = none) (budget : Nat) (path : List Var) (y : Var)
    (hbudget : s.rank y.id ≤ budget)
    (hpath : ∀ p ∈ path, ∃ j, s.Refers p.id j ∧ s.Reaches j y.id) :
    s.occursVar x budget path y = .ok (decide (s.Reaches y.id x.id)) := by
  induction hn : s.rank y.id using Nat.strong_induction_on
    generalizing budget path y with
  | _ n ih =>
      -- the answer depends on where the chain of `y` ends
      obtain ⟨u, hu⟩ := hs.walk (.var y)
      have hyx : s.Reaches y.id x.id ↔ s.ReachesFrom u x.id := by
        rw [← reachesFrom_var, reachesFrom_walk hu hx]
      rw [occursVar.eq_def, hu]
      cases u with
      | var z =>
          have hz : s.value? z.id = none := isEnd_of_walk hu z rfl
          have hzx : s.Reaches y.id x.id ↔ z.same x = true := by
            rw [hyx, reachesFrom_var, Var.same, beq_iff_eq]
            refine ⟨fun h => (h.eq_of_value?_eq_none hz).symm, fun h => ?_⟩
            rw [h]
            exact .refl _
          simp only [hzx, Bool.decide_eq_true]
      | atom a =>
          have hno : ¬ s.Reaches y.id x.id := by
            rw [hyx]
            rintro ⟨w, hw, -⟩
            exact nomatch hw
          simp only [hno, decide_false]
      | composite m ts =>
          have hnew := hs.not_entered hpath
          have hpos := rank_pos_of_walk hu
          obtain ⟨budget, rfl⟩ : ∃ k, budget = k + 1 :=
            ⟨budget - 1, by omega⟩
          -- The variables inside have a smaller rank, so the rest of the
          -- budget serves them, and `y` joins what lies above them.
          have hitems : ∀ w ∈ (Term.composite m ts).vars,
              s.occursVar x budget (y :: path) w
                = .ok (decide (s.Reaches w.id x.id)) := by
            intro w hw
            obtain ⟨hlt, habove⟩ := hs.enter hu hw hpath
            exact ih _ (by omega) budget (y :: path) w (by omega) habove rfl
          simp only [hnew]
          show Term.anyVar _ _ = _
          rw [Term.anyVar_eq_ok _ hitems, any_reaches]
          simp only [hyx]

open Classical in
/-- **THE OCCURS CHECK IS REACHABILITY** of an unbound variable, and it always
    has an answer. -/
theorem Acyclic.occurs_eq (hs : s.Acyclic) {x : Var}
    (hx : s.get? x = none) (t : Term) :
    s.occurs x t = .ok (decide (s.ReachesFrom t x.id)) := by
  rw [occurs, Term.anyVar_eq_ok t fun y _ =>
    hs.occursVar_eq hx s.size [] y (s.rank_le_size y.id) nofun,
    any_reaches]

/-- The check finds what can be reached and misses what cannot. -/
theorem Acyclic.occurs_cases (hs : s.Acyclic) {x : Var}
    (hx : s.get? x = none) (t : Term) :
    s.occurs x t = .ok true ∧ s.ReachesFrom t x.id
      ∨ s.occurs x t = .ok false ∧ ¬ s.ReachesFrom t x.id := by
  classical
  rw [hs.occurs_eq hx]
  by_cases h : s.ReachesFrom t x.id
  · rw [decide_eq_true h]
    exact .inl ⟨rfl, h⟩
  · rw [decide_eq_false h]
    exact .inr ⟨rfl, h⟩

end Substitution

end LogicSearch
