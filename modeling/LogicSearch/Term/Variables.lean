import LogicSearch.Term.Traverse

/-! # The variables of a term, and terms put in their place

    `vars` lists the variables of a term from left to right.
    `instantiate` puts a term in the place of every variable at once; it
    looks at nothing but the variables that occur
    (`instantiate_congr`), and what remains are the variables of what was
    put in (`mem_vars_instantiate`).

    The two traversals look at no other variables, either (`expand_congr`,
    `anyVar_congr`), and fail only at one of them (`exists_of_expand_error`,
    `exists_of_anyVar`). -/

namespace LogicSearch.Term

mutual

/-- The variables of a term, from left to right, as often as they occur. -/
def vars : Term → List Var
  | .var x => [x]
  | .atom _ => []
  | .composite _ ts => varsAll ts

/-- The variables of the terms of a list. -/
def varsAll : List Term → List Var
  | [] => []
  | t :: ts => vars t ++ varsAll ts

end

theorem mem_varsAll {x : Var} {ts : List Term} :
    x ∈ varsAll ts ↔ ∃ t ∈ ts, x ∈ t.vars := by
  induction ts with
  | nil => simp [varsAll]
  | cons t ts ih => simp [varsAll, ih]

/-- A composite has the variables of its items. -/
theorem mem_vars_composite {x : Var} {m : Option Mark} {ts : List Term} :
    x ∈ (composite m ts).vars ↔ ∃ t ∈ ts, x ∈ t.vars := by
  rw [vars]
  exact mem_varsAll

/-- A variable of an item is one of the composite. -/
theorem mem_vars_item {x : Var} {m : Option Mark} {ts : List Term} {t : Term}
    (ht : t ∈ ts) (hx : x ∈ t.vars) : x ∈ (composite m ts).vars :=
  mem_vars_composite.mpr ⟨t, ht, hx⟩

/-- The term has no variables. -/
def IsGround (t : Term) : Prop := t.vars = []

mutual

/-- The term with `f x` in the place of every variable `x`. -/
def instantiate (f : Var → Term) : Term → Term
  | .var x => f x
  | .atom a => .atom a
  | .composite _ ts => .composite none (instantiateAll f ts)

/-- The same for every term of a list. -/
def instantiateAll (f : Var → Term) : List Term → List Term
  | [] => []
  | t :: ts => instantiate f t :: instantiateAll f ts

end

theorem instantiateAll_eq_map (f : Var → Term) (ts : List Term) :
    instantiateAll f ts = ts.map (instantiate f) := by
  induction ts with
  | nil => rfl
  | cons t ts ih => rw [instantiateAll, ih, List.map_cons]

/-- **LOCALITY**: only the variables that occur matter. -/
theorem instantiate_congr {f g : Var → Term} (t : Term)
    (h : ∀ x ∈ t.vars, f x = g x) : t.instantiate f = t.instantiate g := by
  induction t with
  | var x => exact h x (List.mem_singleton_self x)
  | atom a => rfl
  | composite m ts ih =>
      rw [instantiate, instantiate, instantiateAll_eq_map,
        instantiateAll_eq_map]
      congr 1
      apply List.map_congr_left
      intro t ht
      exact ih t ht fun x hx => h x (mem_vars_composite.mpr ⟨t, ht, hx⟩)

/-- The variables that remain are those of the terms put in. -/
theorem mem_vars_instantiate {f : Var → Term} {y : Var} (t : Term) :
    y ∈ (t.instantiate f).vars ↔ ∃ x ∈ t.vars, y ∈ (f x).vars := by
  induction t with
  | var x => simp [instantiate, vars]
  | atom a => simp [instantiate, vars]
  | composite m ts ih =>
      rw [instantiate, mem_vars_composite, instantiateAll_eq_map]
      constructor
      · rintro ⟨u, hu, hy⟩
        obtain ⟨t, ht, rfl⟩ := List.mem_map.mp hu
        obtain ⟨x, hx, hxy⟩ := (ih t ht).mp hy
        exact ⟨x, mem_vars_composite.mpr ⟨t, ht, hx⟩, hxy⟩
      · rintro ⟨x, hx, hxy⟩
        obtain ⟨t, ht, hxt⟩ := mem_vars_composite.mp hx
        exact ⟨t.instantiate f, List.mem_map_of_mem ht,
          (ih t ht).mpr ⟨x, hxt, hxy⟩⟩

/-- Expanding every variable without a failure is instantiation. -/
theorem expand_eq_ok {ε : Type} {f : Var → Except ε Term} {g : Var → Term}
    (t : Term) (h : ∀ x ∈ t.vars, f x = .ok (g x)) :
    t.expand f = .ok (t.instantiate g) := by
  induction t with
  | var x => exact h x (List.mem_singleton_self x)
  | atom a => rfl
  | composite m ts ih =>
      have hall : ∀ us : List Term, (∀ u ∈ us, u ∈ ts) →
          expandAll f us = .ok (instantiateAll g us) := by
        intro us
        induction us with
        | nil => intro _; rfl
        | cons u us ihus =>
            intro hus
            have hu : u ∈ ts := hus u (List.mem_cons_self ..)
            have h1 := ih u hu fun x hx =>
              h x (mem_vars_composite.mpr ⟨u, hu, hx⟩)
            have h2 := ihus fun v hv => hus v (List.mem_cons_of_mem _ hv)
            rw [expandAll, h1, h2]
            rfl
      rw [expand, hall ts fun u hu => hu]
      rfl

/-! ## Traversals look at the variables that occur -/

section Traversals

variable {ε : Type}

mutual

theorem expand_congr {f g : Var → Except ε Term} :
    ∀ t : Term, (∀ x ∈ t.vars, f x = g x) → t.expand f = t.expand g
  | .var x, h => h x (List.mem_singleton_self x)
  | .atom _, _ => rfl
  | .composite _ ts, h => by
      rw [expand, expand, expandAll_congr ts h]

theorem expandAll_congr {f g : Var → Except ε Term} :
    ∀ ts : List Term, (∀ x ∈ varsAll ts, f x = g x) →
      expandAll f ts = expandAll g ts
  | [], _ => rfl
  | t :: ts, h => by
      rw [expandAll, expandAll,
        expand_congr t fun x hx => h x (List.mem_append_left _ hx),
        expandAll_congr ts fun x hx => h x (List.mem_append_right _ hx)]

end

mutual

theorem anyVar_congr {f g : Var → Except ε Bool} :
    ∀ t : Term, (∀ x ∈ t.vars, f x = g x) → t.anyVar f = t.anyVar g
  | .var x, h => h x (List.mem_singleton_self x)
  | .atom _, _ => rfl
  | .composite _ ts, h => anyVarAll_congr ts h

theorem anyVarAll_congr {f g : Var → Except ε Bool} :
    ∀ ts : List Term, (∀ x ∈ varsAll ts, f x = g x) →
      anyVarAll f ts = anyVarAll g ts
  | [], _ => rfl
  | t :: ts, h => by
      rw [anyVarAll, anyVarAll,
        anyVar_congr t fun x hx => h x (List.mem_append_left _ hx),
        anyVarAll_congr ts fun x hx => h x (List.mem_append_right _ hx)]

end

mutual

/-- An expansion that fails does so at one of the variables. -/
theorem exists_of_expand_error {f : Var → Except ε Term} {e : ε} :
    ∀ t : Term, t.expand f = .error e → ∃ x ∈ t.vars, f x = .error e
  | .var x, h => ⟨x, List.mem_singleton_self x, h⟩
  | .atom _, h => by cases h
  | .composite _ ts, h => by
      rw [expand] at h
      cases hts : expandAll f ts with
      | error e' =>
          rw [hts] at h
          cases h
          exact exists_of_expandAll_error ts hts
      | ok us => rw [hts] at h; cases h

theorem exists_of_expandAll_error {f : Var → Except ε Term} {e : ε} :
    ∀ ts : List Term, expandAll f ts = .error e →
      ∃ x ∈ varsAll ts, f x = .error e
  | [], h => by cases h
  | t :: ts, h => by
      rw [expandAll] at h
      cases ht : t.expand f with
      | error e' =>
          rw [ht] at h
          cases h
          obtain ⟨x, hx, hfx⟩ := exists_of_expand_error t ht
          exact ⟨x, List.mem_append_left _ hx, hfx⟩
      | ok u =>
          rw [ht] at h
          cases hts : expandAll f ts with
          | error e' =>
              rw [hts] at h
              cases h
              obtain ⟨x, hx, hfx⟩ := exists_of_expandAll_error ts hts
              exact ⟨x, List.mem_append_right _ hx, hfx⟩
          | ok us => rw [hts] at h; cases h

end

/-- A search that finds something, or fails, does so at one of the
    variables. -/
theorem exists_of_anyVar {f : Var → Except ε Bool} {r : Except ε Bool}
    (t : Term) (h : t.anyVar f = r) (hr : r ≠ .ok false) :
    ∃ x ∈ t.vars, f x = r := by
  induction t with
  | var x => exact ⟨x, List.mem_singleton_self x, h⟩
  | atom a => exact absurd h.symm hr
  | composite m ts ih =>
      rw [anyVar] at h
      rw [vars]
      induction ts with
      | nil => exact absurd h.symm hr
      | cons t ts ihts =>
          rw [anyVarAll] at h
          cases ht : t.anyVar f with
          | error e =>
              rw [ht] at h
              obtain ⟨x, hx, hfx⟩ := ih t (List.mem_cons_self ..) (ht.trans h)
              exact ⟨x, List.mem_append_left _ hx, hfx⟩
          | ok found =>
              rw [ht] at h
              cases found with
              | true =>
                  obtain ⟨x, hx, hfx⟩ :=
                    ih t (List.mem_cons_self ..) (ht.trans h)
                  exact ⟨x, List.mem_append_left _ hx, hfx⟩
              | false =>
                  obtain ⟨x, hx, hfx⟩ := ihts
                    (fun u hu => ih u (List.mem_cons_of_mem _ hu)) h
                  exact ⟨x, List.mem_append_right _ hx, hfx⟩

end Traversals

end LogicSearch.Term
