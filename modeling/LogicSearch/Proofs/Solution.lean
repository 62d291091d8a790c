import LogicSearch.Proofs.Growth
import LogicSearch.Proofs.Occurrence
import LogicSearch.Substitution.Model
import LogicSearch.Term.Equality
import Mathlib.Data.List.Forall2

/-! # Unification keeps the common solutions

    A solution of a substitution and an equation is an assignment that
    satisfies the one and makes the sides of the other equal.  Unification
    neither loses nor adds any (`unify_keeps`): the result is a most general
    unifier.

    What a step does to the solutions is stated for outcomes as a whole
    (`Outcome.Keeps`).  The one case that needs an argument is a binding that
    the occurs check forbids: equal terms have equally many nodes, and a term
    has more nodes than any variable properly inside it, whatever both stand
    for. -/

namespace LogicSearch

/-! ## Equal terms have equally many nodes -/

namespace Term

mutual

theorem nodes_eq_of_alike :
    ∀ {t u : Term}, alike t u = true → t.nodes = u.nodes
  | .var _, .var _, _ => rfl
  | .atom _, .atom _, _ => rfl
  | .composite _ ts, .composite _ us, h =>
      congrArg (1 + ·) (@nodesAll_eq_of_alikeAll ts us h)

theorem nodesAll_eq_of_alikeAll :
    ∀ {ts us : List Term}, alikeAll ts us = true → nodesAll ts = nodesAll us
  | [], [], _ => rfl
  | t :: ts, u :: us, h => by
      rw [alikeAll, Bool.and_eq_true] at h
      rw [nodesAll, nodesAll, nodes_eq_of_alike h.1,
        nodesAll_eq_of_alikeAll h.2]

end

theorem nodes_eq_of_equal {t u : Term} (h : t.equal u = true) :
    t.nodes = u.nodes := by
  rw [equal_eq_alike] at h
  exact nodes_eq_of_alike h

theorem nodes_le_nodesAll {t : Term} {ts : List Term} (h : t ∈ ts) :
    t.nodes ≤ nodesAll ts := by
  induction ts with
  | nil => exact nomatch h
  | cons u us ih =>
      rw [nodesAll]
      rcases List.mem_cons.mp h with rfl | h
      · exact Nat.le_add_right ..
      · exact (ih h).trans (Nat.le_add_left ..)

/-- What is put in for a variable is part of the result. -/
theorem nodes_le_instantiate {f : Var → Term} {x : Var} (t : Term)
    (h : x ∈ t.vars) : (f x).nodes ≤ (t.instantiate f).nodes := by
  induction t with
  | var y =>
      rw [List.mem_singleton.mp h]
      exact Nat.le_refl _
  | atom a => exact nomatch h
  | composite m ts ih =>
      obtain ⟨t, ht, hx⟩ := mem_vars_composite.mp h
      rw [instantiate, nodes, instantiateAll_eq_map]
      have hle := nodes_le_nodesAll (List.mem_map_of_mem ht
        (f := instantiate f))
      have := ih t ht hx
      omega

/-- A composite is more than any of its variables. -/
theorem nodes_lt_instantiate {f : Var → Term} {x : Var} {m : Option Mark}
    {ts : List Term} (h : x ∈ (composite m ts).vars) :
    (f x).nodes < ((composite m ts).instantiate f).nodes := by
  obtain ⟨t, ht, hx⟩ := mem_vars_composite.mp h
  rw [instantiate, nodes, instantiateAll_eq_map]
  have hle := nodes_le_nodesAll (List.mem_map_of_mem ht
    (f := instantiate f))
  have := nodes_le_instantiate (f := f) t hx
  omega

/-- Lists are equal item by item. -/
theorem equalAll_iff {ts us : List Term} :
    equalAll ts us = true
      ↔ List.Forall₂ (fun t u => t.equal u = true) ts us := by
  induction ts generalizing us with
  | nil => cases us <;> simp [equalAll]
  | cons t ts ih =>
      cases us with
      | nil => simp [equalAll]
      | cons u us =>
          rw [equalAll, Bool.and_eq_true, ih, List.forall₂_cons]

mutual

theorem alike_instantiate {f g : Var → Term}
    (hfg : ∀ x y, x.id = y.id → (f x).equal (g y) = true) :
    ∀ {t u : Term}, alike t u = true →
      alike (t.instantiate f) (u.instantiate g) = true
  | .var x, .var y, h => by
      rw [instantiate, instantiate, ← equal_eq_alike]
      exact hfg x y (beq_iff_eq.mp h)
  | .atom _, .atom _, h => h
  | .composite _ ts, .composite _ us, h =>
      @alikeAll_instantiate f g hfg ts us h

theorem alikeAll_instantiate {f g : Var → Term}
    (hfg : ∀ x y, x.id = y.id → (f x).equal (g y) = true) :
    ∀ {ts us : List Term}, alikeAll ts us = true →
      alikeAll (instantiateAll f ts) (instantiateAll g us) = true
  | [], [], _ => rfl
  | t :: ts, u :: us, h => by
      rw [alikeAll, Bool.and_eq_true] at h
      rw [instantiateAll, instantiateAll, alikeAll, alike_instantiate hfg h.1,
        alikeAll_instantiate hfg h.2]
      rfl

end

/-- Equal terms stay equal if equal terms are put in the place of every
    variable, whatever its label. -/
theorem equal_instantiate_of_equal {f g : Var → Term}
    (hfg : ∀ x y, x.id = y.id → (f x).equal (g y) = true) {t u : Term}
    (h : t.equal u = true) :
    (t.instantiate f).equal (u.instantiate g) = true := by
  rw [equal_eq_alike] at h ⊢
  exact alike_instantiate hfg h

end Term

/-! ## Equations under an assignment -/

namespace Assignment

variable {θ : Assignment} {s : Substitution}

theorem equates_self (t : Term) : θ.Equates t t :=
  Term.equal_self _

theorem Equates.symm {u v : Term} (h : θ.Equates u v) : θ.Equates v u := by
  rw [Equates, Term.equal_comm]
  exact h

theorem Equates.trans {u v w : Term} (huv : θ.Equates u v)
    (hvw : θ.Equates v w) : θ.Equates u w :=
  Term.equal_trans huv hvw

/-- Equal terms are the same to every assignment. -/
theorem equates_of_equal {u v : Term} (h : u.equal v = true) :
    θ.Equates u v := by
  refine Term.equal_instantiate_of_equal ?_ h
  intro x y hxy
  rw [hxy]
  exact Term.equal_self _

theorem equates_of_shared {u v : Term} (h : u.shared v = true) :
    θ.Equates u v :=
  equates_of_equal (Term.equal_of_shared h)

/-- Composites stand for equal terms if their items do, each under its
    assignment. -/
theorem equal_value_composite {θ θ' : Assignment} {m n : Option Mark}
    {ts us : List Term} :
    (θ.value (.composite m ts)).equal (θ'.value (.composite n us)) = true
      ↔ List.Forall₂ (fun t u => (θ.value t).equal (θ'.value u) = true)
        ts us := by
  have hshared : (Term.composite none (Term.instantiateAll (θ ·.id) ts)).shared
      (.composite none (Term.instantiateAll (θ' ·.id) us)) = false := rfl
  show Term.equal (.composite none _) (.composite none _) = true ↔ _
  rw [Term.equal, hshared, Bool.false_or, Term.equalAll_iff,
    Term.instantiateAll_eq_map, Term.instantiateAll_eq_map,
    List.forall₂_map_left_iff, List.forall₂_map_right_iff]
  rfl

/-- Composites are equal if their items are. -/
theorem equates_composite {m n : Option Mark} {ts us : List Term} :
    θ.Equates (.composite m ts) (.composite n us)
      ↔ List.Forall₂ θ.Equates ts us :=
  equal_value_composite

/-- A variable stands for what the end of its chain stands for. -/
theorem Satisfies.walk (hθ : θ.Satisfies s) {t u : Term}
    (h : s.walk t = .ok u) : θ.Equates t u :=
  Substitution.walk_induct (motive := θ.Equates t) h (equates_self t)
    fun x v hx htx => htx.trans (hθ x v hx)

/-- The ends of two chains are equal if the starts are. -/
theorem Satisfies.equates_walk (hθ : θ.Satisfies s) {u v u' v' : Term}
    (hu : s.walk u = .ok u') (hv : s.walk v = .ok v') :
    θ.Equates u' v' ↔ θ.Equates u v := by
  have huu := hθ.walk hu
  have hvv := hθ.walk hv
  constructor
  · intro h
    exact (huu.trans h).trans hvv.symm
  · intro h
    exact (huu.symm.trans h).trans hvv

/-! ## What the occurs check finds is part of every solution -/

theorem Satisfies.nodes_le_of_occursVar (hθ : θ.Satisfies s) {x : Var} :
    ∀ (budget : Nat) (path : List Var) (y : Var),
      s.occursVar x budget path y = .ok true →
      (θ x.id).nodes ≤ (θ y.id).nodes := by
  intro budget
  induction budget using Nat.strong_induction_on with
  | _ budget ih =>
      intro path y h
      rcases Substitution.occursVar_eq_true h with
        ⟨z, hy, hzx⟩ | ⟨m, ts, w, left, hy, hw, rfl, hwx⟩
      · have heq := Term.nodes_eq_of_equal (hθ.walk hy)
        rw [← beq_iff_eq.mp hzx]
        exact Nat.le_of_eq heq.symm
      · have heq := Term.nodes_eq_of_equal (hθ.walk hy)
        calc (θ x.id).nodes
            ≤ (θ w.id).nodes := ih left (Nat.lt_succ_self left) _ w hwx
          _ ≤ (θ.value (.composite m ts)).nodes :=
              Term.nodes_le_instantiate (f := fun x => θ x.id) _ hw
          _ = (θ y.id).nodes := heq.symm

/-- No term is equal to a variable properly inside it. -/
theorem Satisfies.not_equates_of_occurs (hθ : θ.Satisfies s) {x : Var}
    {m : Option Mark} {ts : List Term}
    (h : s.occurs x (.composite m ts) = .ok true) :
    ¬ θ.Equates (.var x) (.composite m ts) := by
  intro heq
  obtain ⟨y, hy, hyx⟩ := Term.exists_of_anyVar _ h (by decide)
  have hle := hθ.nodes_le_of_occursVar _ _ y hyx
  have hlt : (θ y.id).nodes < (θ.value (.composite m ts)).nodes :=
    Term.nodes_lt_instantiate (f := fun x => θ x.id) hy
  have hsame : (θ x.id).nodes = (θ.value (.composite m ts)).nodes :=
    Term.nodes_eq_of_equal heq
  omega

end Assignment

/-! ## What an outcome keeps -/

/-- The outcome has the solutions of `p`: they are the solutions of the
    resulting substitution, and there are none after a clash. -/
def Outcome.Keeps (p : Assignment → Prop) : Outcome → Prop
  | unified s => ∀ θ : Assignment, θ.Satisfies s ↔ p θ
  | clash => ∀ θ, ¬ p θ
  | broken _ => True
  | unanswered => True

theorem Outcome.Keeps.congr {o : Outcome} {p q : Assignment → Prop}
    (h : o.Keeps p) (hpq : ∀ θ, p θ ↔ q θ) : o.Keeps q := by
  cases o with
  | unified s => exact fun θ => (h θ).trans (hpq θ)
  | clash => exact fun θ hq => h θ ((hpq θ).mpr hq)
  | broken e => trivial
  | unanswered => trivial

namespace Substitution

variable {config : Config}

/-- The assignment satisfies the substitution and the equation. -/
def Solves (s : Substitution) (u v : Term) (θ : Assignment) : Prop :=
  θ.Satisfies s ∧ θ.Equates u v

theorem Solves.comm {s : Substitution} {u v : Term} {θ : Assignment} :
    s.Solves u v θ ↔ s.Solves v u θ :=
  and_congr_right fun _ => ⟨.symm, .symm⟩

theorem assign_keeps (s : Substitution) (x : Var) (t : Term) :
    (s.assign x t).Keeps (s.Solves (.var x) t) := by
  rw [assign]
  cases h : s.extend x t with
  | error e => trivial
  | ok s' => exact fun θ => Assignment.satisfies_extend h

/-- No solution makes a variable equal to another end that it occurs in. -/
theorem not_solves_of_occurs {s : Substitution} {x : Var} {t : Term}
    (hend : s.IsEnd t) (hne : (Term.var x).shared t = false)
    (ho : s.occurs x t = .ok true) (θ : Assignment) :
    ¬ s.Solves (.var x) t θ := by
  cases t with
  | var z =>
      -- an unbound variable contains no variable but itself
      obtain ⟨y, hy, hyx⟩ := Term.exists_of_anyVar _ ho (by decide)
      rw [List.mem_singleton.mp hy, occursVar.eq_def,
        walk_of_isEnd hend] at hyx
      have hzx : z.same x = true := Except.ok.inj hyx
      have hxz : (Term.var x).shared (.var z) = true :=
        beq_iff_eq.mpr (beq_iff_eq.mp hzx).symm
      rw [hne] at hxz
      cases hxz
  | atom a => cases ho
  | composite m ts =>
      rintro ⟨hs, heq⟩
      exact hs.not_equates_of_occurs ho heq

/-- The occurs check forbids no binding that has a solution. -/
theorem bind_keeps {s : Substitution} {x : Var} {t : Term}
    (hend : s.IsEnd t) (hne : (Term.var x).shared t = false) :
    (s.bind config x t).Keeps (s.Solves (.var x) t) := by
  rcases bind_cases config s x t with
    ⟨e, -, -, hbind⟩ | ⟨-, ho, hbind⟩ | ⟨-, hbind⟩
  · rw [hbind]
    trivial
  · rw [hbind]
    exact not_solves_of_occurs hend hne ho
  · rw [hbind]
    exact assign_keeps s x t

theorem unifyAll_keeps {unify : Substitution → Term → Term → Outcome}
    (hunify : ∀ s t u, (unify s t u).Keeps (s.Solves t u)) :
    ∀ (ts us : List Term) (s : Substitution), ts.length = us.length →
      (unifyAll unify s ts us).Keeps fun θ =>
        θ.Satisfies s ∧ List.Forall₂ θ.Equates ts us := by
  intro ts
  induction ts with
  | nil =>
      intro us s hlen
      rw [List.length_eq_zero_iff.mp hlen.symm]
      exact fun θ => (and_iff_left .nil).symm
  | cons t ts ih =>
      intro us s hlen
      cases us with
      | nil => exact nomatch hlen
      | cons u us =>
          have hkeeps := hunify s t u
          rw [unifyAll]
          cases htu : unify s t u with
          | unified s' =>
              rw [htu] at hkeeps
              refine (ih us s' (Nat.succ.inj hlen)).congr ?_
              intro θ
              rw [hkeeps θ, List.forall₂_cons, Solves, and_assoc]
          | clash =>
              rw [htu] at hkeeps
              rintro θ ⟨hs, hall⟩
              exact hkeeps θ ⟨hs, (List.forall₂_cons.mp hall).1⟩
          | broken e => trivial
          | unanswered => trivial

/-- Two ends meet without losing or adding a solution. -/
theorem Meeting.keeps {unify : Substitution → Term → Term → Outcome}
    (hunify : ∀ s t u, (unify s t u).Keeps (s.Solves t u))
    {s : Substitution} {u v : Term} {o : Outcome}
    (h : Meeting config unify s u v o) (hu : s.IsEnd u) (hv : s.IsEnd v) :
    o.Keeps (s.Solves u v) := by
  cases h with
  | shared huv =>
      exact fun θ => (and_iff_left (Assignment.equates_of_shared huv)).symm
  | left hne _ => exact bind_keeps hv hne
  | right hne _ => exact (bind_keeps hu hne).congr fun θ => Solves.comm
  | items hlen =>
      refine (unifyAll_keeps hunify _ _ s hlen).congr ?_
      intro θ
      rw [Solves, Assignment.equates_composite]
  | lengths hlen =>
      rintro θ ⟨-, heq⟩
      exact hlen (Assignment.equates_composite.mp heq).length_eq
  | atoms hab => exact fun θ => (and_iff_left hab).symm
  | values hab =>
      rintro θ ⟨-, heq⟩
      exact Bool.eq_false_iff.mp hab heq
  | atomComposite => exact fun θ h => Bool.false_ne_true h.2
  | compositeAtom => exact fun θ h => Bool.false_ne_true h.2

/-- **NO SOLUTION IS LOST OR ADDED** at any depth. -/
theorem unifyAt_keeps (config : Config) (n : Nat) :
    ∀ (s : Substitution) (u v : Term),
      (unifyAt config n s u v).Keeps (s.Solves u v) := by
  induction n with
  | zero => intro s u v; trivial
  | succ n ih =>
      intro s u v
      rcases unifyAt_succ config n s u v with
        ⟨e, he, -⟩ | ⟨u', v', hu, hv, hmeet⟩
      · rw [he]
        trivial
      · refine (hmeet.keeps ih (isEnd_of_walk hu) (isEnd_of_walk hv)).congr ?_
        intro θ
        exact and_congr_right fun hθ => hθ.equates_walk hu hv

/-- The same for unification itself. -/
theorem unify_keeps (config : Config) (s : Substitution) (u v : Term) :
    (s.unify config u v).Keeps (s.Solves u v) := by
  rw [unify_eq_unifyAt]
  exact unifyAt_keeps config _ s u v

/-- **MOST GENERAL UNIFIERS**: an assignment satisfies the result of a
    unification if and only if it satisfies the substitution and makes the
    terms equal, and after a clash no assignment does.  This holds with and
    without the occurs check, from every substitution. -/
theorem unify_most_general (config : Config) (s : Substitution)
    (u v : Term) :
    (∀ s', s.unify config u v = .unified s' →
      ∀ θ : Assignment, θ.Satisfies s' ↔ θ.Satisfies s ∧ θ.Equates u v) ∧
    (s.unify config u v = .clash →
      ∀ θ : Assignment, ¬ (θ.Satisfies s ∧ θ.Equates u v)) := by
  have hkeeps := unify_keeps config s u v
  constructor
  · intro s' h
    rw [h] at hkeeps
    exact hkeeps
  · intro h
    rw [h] at hkeeps
    exact hkeeps

/-- `(x y)` and `(y ())` unify by `y` pointing at `x` and `x` at `()`, and
    `x` does not unify with `(x)` under the occurs check. -/
theorem unify_most_general_alias :
    Substitution.empty.unify .unchecked
        (.composite none [.var ⟨0, "x"⟩, .var ⟨1, "y"⟩])
        (.composite none [.var ⟨1, "y"⟩, .composite none []])
      = .unified ⟨((∅ : Std.ExtTreeMap Nat Entry).insert 1
          ⟨"y", .var ⟨0, "x"⟩⟩).insert 0 ⟨"x", .composite none []⟩⟩ ∧
    (Assignment.Satisfies (fun _ => .composite none [])
        ⟨((∅ : Std.ExtTreeMap Nat Entry).insert 1
          ⟨"y", .var ⟨0, "x"⟩⟩).insert 0 ⟨"x", .composite none []⟩⟩ ↔
      Assignment.Satisfies (fun _ => .composite none []) .empty ∧
      Assignment.Equates (fun _ => .composite none [])
        (.composite none [.var ⟨0, "x"⟩, .var ⟨1, "y"⟩])
        (.composite none [.var ⟨1, "y"⟩, .composite none []])) ∧
    Substitution.empty.unify .checked (.var ⟨0, "x"⟩)
        (.composite none [.var ⟨0, "x"⟩]) = .clash ∧
    ¬ (Assignment.Satisfies (fun _ => .composite none []) .empty ∧
      Assignment.Equates (fun _ => .composite none []) (.var ⟨0, "x"⟩)
        (.composite none [.var ⟨0, "x"⟩])) :=
  ⟨rfl, (unify_most_general .unchecked .empty _ _).1 _ rfl _, rfl,
    (unify_most_general .checked .empty _ _).2 rfl _⟩

end Substitution

end LogicSearch
