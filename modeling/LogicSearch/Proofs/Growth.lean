import LogicSearch.Proofs.Chain
import LogicSearch.Substitution.Depth

/-! # What a unification adds

    Two ends of chains meet in one of a few ways (`Meeting`), and all that
    unification ever does to a substitution is to bind unbound variables, one
    after the other (`unifyAt_grows`).  Whatever a single binding keeps, a
    unification keeps; this module has what depends on nothing but the
    bindings made:

    - old bindings stay (`Grows.value?`);
    - the values stay among the terms that the unification works on
      (`Grows.over`), or at least the values of the variables among them do
      (`Grows.valueClosed`). -/

namespace LogicSearch.Substitution

variable {config : Config}

/-! ## How two ends meet -/

/-- What comes of two terms at the ends of their chains.  Of two variables
    the older one is never bound. -/
inductive Meeting (config : Config)
    (unify : Substitution → Term → Term → Outcome) (s : Substitution) :
    Term → Term → Outcome → Prop where
  | shared {u v : Term} : u.shared v = true →
      Meeting config unify s u v (.unified s)
  | left {x : Var} {t : Term} : (Term.var x).shared t = false →
      (∀ y, t = .var y → y.id < x.id) →
      Meeting config unify s (.var x) t (s.bind config x t)
  | right {x : Var} {t : Term} : (Term.var x).shared t = false →
      (∀ y, t = .var y → y.id < x.id) →
      Meeting config unify s t (.var x) (s.bind config x t)
  | items {m n : Option Mark} {ts us : List Term} : ts.length = us.length →
      Meeting config unify s (.composite m ts) (.composite n us)
        (unifyAll unify s ts us)
  | lengths {m n : Option Mark} {ts us : List Term} :
      ts.length ≠ us.length →
      Meeting config unify s (.composite m ts) (.composite n us) .clash
  | atoms {a b : Atom} : a.equal b = true →
      Meeting config unify s (.atom a) (.atom b) (.unified s)
  | values {a b : Atom} : a.equal b = false →
      Meeting config unify s (.atom a) (.atom b) .clash
  | atomComposite {a : Atom} {m : Option Mark} {ts : List Term} :
      Meeting config unify s (.atom a) (.composite m ts) .clash
  | compositeAtom {a : Atom} {m : Option Mark} {ts : List Term} :
      Meeting config unify s (.composite m ts) (.atom a) .clash

theorem unifyEnds_meeting (config : Config)
    (unify : Substitution → Term → Term → Outcome) (s : Substitution)
    (u v : Term) :
    Meeting config unify s u v (unifyEnds config unify s u v) := by
  unfold unifyEnds
  by_cases huv : u.shared v = true
  · rw [if_pos huv]
    exact .shared huv
  · rw [if_neg huv]
    have huv' : u.shared v = false := Bool.eq_false_iff.mpr huv
    cases u with
    | var x =>
        cases v with
        | var y =>
            have hne : x.id ≠ y.id := fun h => huv (beq_iff_eq.mpr h)
            by_cases hxy : y.id < x.id
            · simp only [if_pos hxy]
              exact .left huv' fun z hz => by cases hz; exact hxy
            · simp only [if_neg hxy]
              refine .right ?_ fun z hz => by cases hz; omega
              exact Bool.eq_false_iff.mpr fun h => hne (beq_iff_eq.mp h).symm
        | atom b => exact .left huv' nofun
        | composite n us => exact .left huv' nofun
    | atom a =>
        cases v with
        | var y => exact .right rfl nofun
        | atom b =>
            by_cases hab : a.equal b = true
            · simp only [if_pos hab]
              exact .atoms hab
            · simp only [if_neg hab]
              exact .values (Bool.eq_false_iff.mpr hab)
        | composite n us => exact .atomComposite
    | composite m ts =>
        cases v with
        | var y => exact .right rfl nofun
        | atom b => exact .compositeAtom
        | composite n us =>
            by_cases hlen : ts.length = us.length
            · simp only [if_pos hlen]
              exact .items hlen
            · simp only [if_neg hlen]
              exact .lengths hlen

/-- Unification breaks off at a chain without an end, or two ends meet. -/
theorem unifyAt_succ (config : Config) (n : Nat) (s : Substitution)
    (u v : Term) :
    (∃ e, unifyAt config (n + 1) s u v = .broken e
      ∧ (s.walk u = .error e ∨ s.walk v = .error e)) ∨
    ∃ u' v', s.walk u = .ok u' ∧ s.walk v = .ok v'
      ∧ Meeting config (unifyAt config n) s u' v'
        (unifyAt config (n + 1) s u v) := by
  rw [unifyAt]
  cases hu : s.walk u with
  | error e => exact .inl ⟨e, rfl, .inl rfl⟩
  | ok u' =>
      cases hv : s.walk v with
      | error e => exact .inl ⟨e, rfl, .inr rfl⟩
      | ok v' =>
          exact .inr ⟨u', v', rfl, rfl,
            unifyEnds_meeting config (unifyAt config n) s u' v'⟩

/-! ## Bindings, one after the other -/

/-- `good` passes from composites to their items. -/
def ItemClosed (good : Term → Prop) : Prop :=
  ∀ m ts, good (.composite m ts) → ∀ t ∈ ts, good t

/-- All values are as asked. -/
def Over (s : Substitution) (good : Term → Prop) : Prop :=
  ∀ i t, s.value? i = some t → good t

/-- `good` passes from variables to their values. -/
def ValueClosed (s : Substitution) (good : Term → Prop) : Prop :=
  ∀ x t, s.get? x = some t → good (.var x) → good t

theorem Over.valueClosed {s : Substitution} {good : Term → Prop}
    (hs : s.Over good) : s.ValueClosed good :=
  fun x t hx _ => hs x.id t hx

/-- One binding that a unification over good terms may make. -/
structure Addition (config : Config) (good : Term → Prop)
    (s : Substitution) (x : Var) (t : Term) (s' : Substitution) : Prop where
  key : good (.var x)
  value : good t
  isEnd : s.IsEnd t
  /-- Of two variables the younger is bound. -/
  older : ∀ y, t = .var y → y.id < x.id
  /-- The occurs check, if it is on, found nothing. -/
  absent : config.occursCheck = true → s.occurs x t = .ok false
  extend : s.extend x t = .ok s'

/-- Some bindings lead from one substitution to the other. -/
inductive Grows (config : Config) (good : Term → Prop) :
    Substitution → Substitution → Prop where
  | refl (s : Substitution) : Grows config good s s
  | add {s s' s'' : Substitution} {x : Var} {t : Term} :
      Addition config good s x t s' → Grows config good s' s'' →
      Grows config good s s''

variable {good : Term → Prop}

theorem Grows.trans {a b c : Substitution} (hab : Grows config good a b)
    (hbc : Grows config good b c) : Grows config good a c := by
  induction hab with
  | refl s => exact hbc
  | add hadd _ ih => exact .add hadd (ih hbc)

/-- The new variable was unbound. -/
theorem Addition.unbound {s s' : Substitution} {x : Var} {t : Term}
    (h : Addition config good s x t s') : s.get? x = none :=
  (extend_eq_ok_iff.mp h.extend).1

theorem Addition.value? {s s' : Substitution} {x : Var} {t : Term}
    (h : Addition config good s x t s') (i : Nat) :
    s'.value? i = if i = x.id then some t else s.value? i :=
  get?_extend h.extend ⟨i, ""⟩

/-- Old bindings stay. -/
theorem Grows.value? {s s' : Substitution} (h : Grows config good s s')
    {i : Nat} {t : Term} (hi : s.value? i = some t) :
    s'.value? i = some t := by
  induction h with
  | refl s => exact hi
  | @add s s' _ x v hadd _ ih =>
      refine ih ?_
      rw [hadd.value?]
      by_cases hix : i = x.id
      · have hnone := hadd.unbound
        rw [get?, ← hix, hi] at hnone
        cases hnone
      · rw [if_neg hix]
        exact hi

/-- The values stay good. -/
theorem Grows.over {s s' : Substitution} (h : Grows config good s s')
    (hs : s.Over good) : s'.Over good := by
  induction h with
  | refl s => exact hs
  | add hadd _ ih =>
      refine ih ?_
      intro i t hi
      rw [hadd.value?] at hi
      split at hi
      · cases hi
        exact hadd.value
      · exact hs i t hi

/-- Good variables keep good values. -/
theorem Grows.valueClosed {s s' : Substitution}
    (h : Grows config good s s') (hs : s.ValueClosed good) :
    s'.ValueClosed good := by
  induction h with
  | refl s => exact hs
  | add hadd _ ih =>
      refine ih ?_
      intro y v hy hgood
      rw [get?, hadd.value?] at hy
      split at hy
      · cases hy
        exact hadd.value
      · exact hs y v hy hgood

/-- Old bindings stay, labels included. -/
theorem Grows.mem_bindings {s s' : Substitution}
    (h : Grows config good s s') {b : Binding} (hb : b ∈ s.bindings) :
    b ∈ s'.bindings := by
  induction h with
  | refl s => exact hb
  | add hadd _ ih => exact ih ((mem_bindings_extend hadd.extend).mpr (.inr hb))

/-- Only good variables are bound, and only to good terms. -/
theorem Grows.of_mem_bindings {s s' : Substitution}
    (h : Grows config good s s') {b : Binding} (hb : b ∈ s'.bindings) :
    b ∈ s.bindings ∨ good (.var b.key) ∧ good b.value := by
  induction h with
  | refl s => exact .inl hb
  | add hadd _ ih =>
      rcases ih hb with hb | hgood
      · rcases (mem_bindings_extend hadd.extend).mp hb with rfl | hb
        · exact .inr ⟨hadd.key, hadd.value⟩
        · exact .inl hb
      · exact .inr hgood

/-- The end of the chain of a good term is good. -/
theorem ValueClosed.walk {s : Substitution} (hs : s.ValueClosed good)
    {t u : Term} (ht : good t) (h : s.walk t = .ok u) : good u :=
  walk_induct h ht hs

theorem Over.walk {s : Substitution} (hs : s.Over good) {t u : Term}
    (ht : good t) (h : s.walk t = .ok u) : good u :=
  hs.valueClosed.walk ht h

/-! ## Unification adds bindings -/

theorem assign_cases (s : Substitution) (x : Var) (t : Term) :
    (∃ s', s.extend x t = .ok s' ∧ s.assign x t = .unified s') ∨
    ∃ e, s.extend x t = .error e ∧ s.assign x t = .broken e := by
  rw [assign]
  cases h : s.extend x t with
  | ok s' => exact .inl ⟨s', rfl, rfl⟩
  | error e => exact .inr ⟨e, rfl, rfl⟩

/-- An unbound variable can be bound. -/
theorem exists_assign {s : Substitution} {x : Var} (t : Term)
    (hx : s.get? x = none) :
    ∃ s', s.extend x t = .ok s' ∧ s.assign x t = .unified s' := by
  rcases s.assign_cases x t with h | ⟨e, h, -⟩
  · exact h
  · rw [Substitution.extend, hx] at h
    cases h

/-- The occurs check, if it is on, fails or forbids the binding; else the
    variable is bound. -/
theorem bind_cases (config : Config) (s : Substitution) (x : Var)
    (t : Term) :
    (∃ e, config.occursCheck = true ∧ s.occurs x t = .error e
      ∧ s.bind config x t = .broken e) ∨
    (config.occursCheck = true ∧ s.occurs x t = .ok true
      ∧ s.bind config x t = .clash) ∨
    (config.occursCheck = true → s.occurs x t = .ok false)
      ∧ s.bind config x t = s.assign x t := by
  unfold bind
  by_cases hc : config.occursCheck = true
  · rw [if_pos hc]
    cases ho : s.occurs x t with
    | error e => exact .inl ⟨e, hc, rfl, rfl⟩
    | ok found => cases found with
      | true => exact .inr (.inl ⟨hc, rfl, rfl⟩)
      | false => exact .inr (.inr ⟨fun _ => rfl, rfl⟩)
  · rw [if_neg hc]
    exact .inr (.inr ⟨fun h => absurd h hc, rfl⟩)

/-- A binding that was made. -/
theorem bind_eq_unified {s s' : Substitution} {x : Var} {t : Term}
    (h : s.bind config x t = .unified s') :
    (config.occursCheck = true → s.occurs x t = .ok false)
      ∧ s.extend x t = .ok s' := by
  rcases bind_cases config s x t with
    ⟨e, -, -, hbind⟩ | ⟨-, -, hbind⟩ | ⟨habsent, hbind⟩
  · cases h.symm.trans hbind
  · cases h.symm.trans hbind
  · refine ⟨habsent, ?_⟩
    rcases s.assign_cases x t with ⟨r, hr, hassign⟩ | ⟨e, -, hassign⟩
    · cases (h.symm.trans hbind).trans hassign
      exact hr
    · cases (h.symm.trans hbind).trans hassign

theorem bind_grows {s s' : Substitution} {x : Var} {t : Term}
    (hx : good (.var x)) (ht : good t) (hend : s.IsEnd t)
    (holder : ∀ y, t = .var y → y.id < x.id)
    (h : s.bind config x t = .unified s') : Grows config good s s' := by
  obtain ⟨habsent, hextend⟩ := bind_eq_unified h
  exact .add ⟨hx, ht, hend, holder, habsent, hextend⟩ (.refl s')

theorem unifyAll_grows {unify : Substitution → Term → Term → Outcome}
    (hunify : ∀ s s' t u, s.ValueClosed good → good t → good u →
      unify s t u = .unified s' → Grows config good s s') :
    ∀ (ts us : List Term) (s s' : Substitution), s.ValueClosed good →
      (∀ t ∈ ts, good t) → (∀ u ∈ us, good u) →
      unifyAll unify s ts us = .unified s' → Grows config good s s' := by
  intro ts
  induction ts with
  | nil =>
      intro us s s' _ _ _ h
      rw [unifyAll.eq_def] at h
      cases h
      exact .refl s
  | cons t ts ih =>
      intro us s s' hs hts hus h
      cases us with
      | nil =>
          rw [unifyAll.eq_def] at h
          cases h
          exact .refl s
      | cons u us =>
          rcases unifyAll_cons unify s t u ts us with
            ⟨s₁, htu, hall⟩ | ⟨hstop, hall⟩
          · have h₁ := hunify s s₁ t u hs (hts t (List.mem_cons_self ..))
              (hus u (List.mem_cons_self ..)) htu
            exact h₁.trans (ih us s₁ s' (h₁.valueClosed hs)
              (fun t ht => hts t (List.mem_cons_of_mem _ ht))
              (fun u hu => hus u (List.mem_cons_of_mem _ hu))
              (hall.symm.trans h))
          · exact absurd (hall.symm.trans h) (hstop s')

/-- **ALL THAT UNIFICATION DOES** is to bind unbound variables that it met,
    to terms that it met. -/
theorem unifyAt_grows (hgood : ItemClosed good) (n : Nat) :
    ∀ (s s' : Substitution) (u v : Term), s.ValueClosed good → good u →
      good v →
      unifyAt config n s u v = .unified s' → Grows config good s s' := by
  induction n with
  | zero => intro s s' u v _ _ _ h; exact nomatch h
  | succ n ih =>
      intro s s' u v hs hu hv h
      rcases unifyAt_succ config n s u v with
        ⟨e, he, -⟩ | ⟨u', v', hwu, hwv, hmeet⟩
      · rw [h] at he
        exact nomatch he
      · have hu' := hs.walk hu hwu
        have hv' := hs.walk hv hwv
        rw [h] at hmeet
        -- the outcome is an index of `Meeting`, which `cases` needs as a
        -- variable; most meetings cannot come to this one
        generalize ho : Outcome.unified s' = o at hmeet
        cases hmeet with
        | shared _ => cases ho; exact .refl s
        | left _ holder =>
            exact bind_grows hu' hv' (isEnd_of_walk hwv) holder ho.symm
        | right _ holder =>
            exact bind_grows hv' hu' (isEnd_of_walk hwu) holder ho.symm
        | items _ =>
            exact unifyAll_grows ih _ _ s s' hs (hgood _ _ hu')
              (hgood _ _ hv') ho.symm
        | atoms _ => cases ho; exact .refl s
        | lengths _ => exact nomatch ho
        | values _ => exact nomatch ho
        | atomComposite => exact nomatch ho
        | compositeAtom => exact nomatch ho

/-- The same for unification itself. -/
theorem unify_grows (hgood : ItemClosed good) {s s' : Substitution}
    {u v : Term} (hs : s.ValueClosed good) (hu : good u) (hv : good v)
    (h : s.unify config u v = .unified s') : Grows config good s s' := by
  rw [unify_eq_unifyAt] at h
  exact unifyAt_grows hgood _ s s' u v hs hu hv h

theorem grows_of_unify {s s' : Substitution} {u v : Term}
    (h : s.unify config u v = .unified s') :
    Grows config (fun _ => True) s s' :=
  unify_grows (fun _ _ _ _ _ => trivial) (fun _ _ _ _ => trivial) trivial
    trivial h

end LogicSearch.Substitution
