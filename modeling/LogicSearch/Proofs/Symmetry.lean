import LogicSearch.Proofs.ChainEnds
import LogicSearch.Term.Equality

/-! # Unification is symmetric

    Two terms unify to the very same substitution in both orders, down to
    the copies of variables and the marks that are kept in it
    (`ChainsEnd.unify_comm`).

    - Both orders walk the same two chains, the one first or the other.
    - Where two ends meet, the same binding is made: of two variables the
      younger is bound, whichever comes first (`unifyEnds_agrees`).
    - So the items of two composites are unified under the same bindings,
      pair by pair (`unifyAll_agrees`).

    One difference can come up: where neither chain has an end, the order
    decides which of them is reported (`Outcome.Agrees`). -/

namespace LogicSearch

/-! ## Outcomes of the two orders -/

/-- The unification broke off at a chain without an end. -/
def Outcome.IsEndless (o : Outcome) : Prop :=
  ∃ x steps, o = .broken (.cyclicBinding x steps)

/-- The outcomes are the same, or both unifications met a chain without an
    end. -/
def Outcome.Agrees (o o' : Outcome) : Prop :=
  o' = o ∨ o.IsEndless ∧ o'.IsEndless

namespace Outcome.Agrees

variable {o o' : Outcome}

theorem refl (o : Outcome) : o.Agrees o := .inl rfl

theorem symm (h : o.Agrees o') : o'.Agrees o := by
  rcases h with rfl | ⟨ho, ho'⟩
  · exact refl o'
  · exact .inr ⟨ho', ho⟩

/-- One fails only if the other does. -/
theorem exists_broken (h : o.Agrees o') (ho : ∃ e, o = .broken e) :
    ∃ e, o' = .broken e := by
  rcases h with rfl | ⟨-, y, n, ho'⟩
  · exact ho
  · exact ⟨_, ho'⟩

end Outcome.Agrees

namespace Substitution

variable {config : Config} {s : Substitution}
  {unify : Substitution → Term → Term → Outcome}

/-! ## One step in both orders -/

theorem unifyAll_agrees
    (hunify : ∀ s t u, (unify s t u).Agrees (unify s u t)) :
    ∀ (ts us : List Term) (s : Substitution),
      (unifyAll unify s ts us).Agrees (unifyAll unify s us ts) := by
  intro ts
  induction ts with
  | nil =>
      intro us s
      cases us with
      | nil => exact .refl _
      | cons u us => exact .refl _
  | cons t ts ih =>
      intro us s
      cases us with
      | nil => exact .refl _
      | cons u us =>
          rw [unifyAll, unifyAll]
          rcases hunify s t u with h | ⟨⟨x, m, h⟩, ⟨y, n, h'⟩⟩
          · rw [h]
            cases unify s t u with
            | unified s' => exact ih us s'
            | clash => exact .refl _
            | broken e => exact .refl _
            | unanswered => exact .refl _
          · rw [h, h']
            exact .inr ⟨⟨x, m, rfl⟩, ⟨y, n, rfl⟩⟩

/-- **ENDS MEET ALIKE IN BOTH ORDERS**, if their items do. -/
theorem unifyEnds_agrees
    (hunify : ∀ s t u, (unify s t u).Agrees (unify s u t))
    (s : Substitution) (u v : Term) :
    (unifyEnds config unify s u v).Agrees
      (unifyEnds config unify s v u) := by
  unfold unifyEnds
  rw [Term.shared_comm v u]
  by_cases huv : u.shared v = true
  · rw [if_pos huv, if_pos huv]
    exact .refl _
  · rw [if_neg huv, if_neg huv]
    cases u with
    | var x => cases v with
      | var y =>
          have hne : x.id ≠ y.id := fun h => huv (beq_iff_eq.mpr h)
          -- the younger variable is bound to the older, both times
          by_cases hyx : y.id < x.id
          · have hxy : ¬ x.id < y.id := by omega
            simp only [if_pos hyx, if_neg hxy]
            exact .refl _
          · have hxy : x.id < y.id := by omega
            simp only [if_neg hyx, if_pos hxy]
            exact .refl _
      | atom b => exact .refl _
      | composite n us => exact .refl _
    | atom a => cases v with
      | var y => exact .refl _
      | atom b =>
          show (if a.equal b then Outcome.unified s else .clash).Agrees
            (if b.equal a then .unified s else .clash)
          rw [Atom.equal_comm a b]
          exact .refl _
      | composite n us => exact .refl _
    | composite m ts => cases v with
      | var y => exact .refl _
      | atom b => exact .refl _
      | composite n us =>
          by_cases hlen : ts.length = us.length
          · simp only [if_pos hlen, if_pos hlen.symm]
            exact unifyAll_agrees hunify ts us s
          · simp only [if_neg hlen, if_neg (Ne.symm hlen)]
            exact .refl _

/-! ## The recursion in both orders -/

/-- Either both walks find their ends, and these meet, or both orders break
    off at a chain without an end. -/
theorem unifyAt_agrees (config : Config) (n : Nat) :
    ∀ (s : Substitution) (u v : Term),
      (unifyAt config n s u v).Agrees (unifyAt config n s v u) := by
  induction n with
  | zero => intro s u v; exact .refl _
  | succ n ih =>
      intro s u v
      rw [unifyAt, unifyAt]
      cases hu : s.walk u with
      | error e =>
          obtain ⟨x, -, rfl⟩ := eq_of_walk_error hu
          cases hv : s.walk v with
          | error e' =>
              obtain ⟨y, -, rfl⟩ := eq_of_walk_error hv
              exact .inr ⟨⟨x, _, rfl⟩, ⟨y, _, rfl⟩⟩
          | ok v' => exact .refl _
      | ok u' =>
          cases hv : s.walk v with
          | error e => exact .refl _
          | ok v' => exact unifyEnds_agrees ih s u' v'

theorem depthBound_comm (s : Substitution) (u v : Term) :
    s.depthBound v u = s.depthBound u v := by
  unfold depthBound
  rw [Nat.add_right_comm s.nodes v.nodes u.nodes]

/-- **BOTH ORDERS AGREE**, under every substitution. -/
theorem unify_agrees (config : Config) (s : Substitution) (u v : Term) :
    (s.unify config u v).Agrees (s.unify config v u) := by
  rw [unify_eq_unifyAt, unify_eq_unifyAt, depthBound_comm]
  exact unifyAt_agrees config _ s u v

/-- With `x` and `y` bound to each other, the first of them is reported. -/
example : let x : Var := ⟨0, "x"⟩
    let y : Var := ⟨1, "y"⟩
    let s : Substitution := ⟨((∅ : Std.ExtTreeMap Nat Entry).insert 0
      ⟨"x", .var y⟩).insert 1 ⟨"y", .var x⟩⟩
    s.unify .checked (.var x) (.var y) = .broken (.cyclicBinding x 3) ∧
    s.unify .checked (.var y) (.var x) = .broken (.cyclicBinding y 3) :=
  ⟨rfl, rfl⟩

/-- **THE ORDER DOES NOT MATTER** where all chains have ends. -/
theorem ChainsEnd.unify_comm (hs : s.ChainsEnd) (config : Config)
    (u v : Term) : s.unify config v u = s.unify config u v := by
  rcases unify_agrees config s u v with h | ⟨⟨x, n, hendless⟩, -⟩
  · exact h
  · obtain ⟨-, y, he⟩ := hs.of_unify_broken hendless
    cases he

/-- **UNIFICATION IS SYMMETRIC.**  Where every variable is followed to an
    end, both orders of two terms have the very same outcome, with or without
    the occurs check: no answer, a clash, the same bindings, or the same
    infinite value reported, and no other error.  Under a substitution with
    chains that have no ends, one order fails if and only if the other
    does. -/
theorem unify_symmetric (config : Config) (s : Substitution)
    (u v : Term) :
    ((∀ x, ∃ t, s.walk (.var x) = .ok t) →
      s.unify config v u = s.unify config u v ∧
      ∀ e, s.unify config u v = .broken e → ∃ x, e = .cyclicTerm x) ∧
    ((∃ e, s.unify config u v = .broken e) ↔
      ∃ e, s.unify config v u = .broken e) := by
  refine ⟨?_, ?_⟩
  · intro hwalk
    have hs : s.ChainsEnd := chainsEnd_of_vars hwalk
    refine ⟨hs.unify_comm config u v, ?_⟩
    intro e he
    exact (hs.of_unify_broken he).2
  · have hagrees := unify_agrees config s u v
    exact ⟨hagrees.exists_broken, hagrees.symm.exists_broken⟩

/-- With `x` bound to `(x)`, the pairs `(z y)` and `(y x)` unify without the
    occurs check, in both orders to the same three bindings.  With the check
    both orders bind `z` to `y` and then report the value of `x`. -/
theorem unify_symmetric_infinite :
    let x : Var := ⟨0, "x"⟩
    let y : Var := ⟨1, "y"⟩
    let z : Var := ⟨2, "z"⟩
    let loop : Term := .composite none [.var x]
    let s : Substitution := ⟨(∅ : Std.ExtTreeMap Nat Entry).insert 0
      ⟨"x", loop⟩⟩
    let u : Term := .composite none [.var z, .var y]
    let v : Term := .composite none [.var y, .var x]
    (∀ w, ∃ t, s.walk (.var w) = .ok t) ∧
    s.unify .unchecked v u = .unified
      ⟨(s.entries.insert 2 ⟨"z", .var y⟩).insert 1 ⟨"y", loop⟩⟩ ∧
    s.unify .checked v u = .broken (.cyclicTerm x) := by
  intro x y z loop s u v
  have hs : ∀ w, ∃ t, s.walk (.var w) = .ok t := by
    have hbuilt : Substitution.empty.unify .unchecked (.var x) loop
        = .unified s := rfl
    intro w
    exact (grows_of_unify hbuilt).chainsEnd acyclic_empty.chainsEnd (.var w)
  have hunchecked : s.unify .unchecked u v = .unified
      ⟨(s.entries.insert 2 ⟨"z", .var y⟩).insert 1 ⟨"y", loop⟩⟩ := rfl
  have hchecked : s.unify .checked u v = .broken (.cyclicTerm x) := rfl
  refine ⟨hs, ?_, ?_⟩
  · exact ((unify_symmetric .unchecked s u v).1 hs).1.trans hunchecked
  · exact ((unify_symmetric .checked s u v).1 hs).1.trans hchecked

end Substitution

end LogicSearch
