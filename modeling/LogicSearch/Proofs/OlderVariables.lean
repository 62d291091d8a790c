import LogicSearch.Proofs.CheckedUnification
import LogicSearch.Proofs.ChainEnds
import LogicSearch.Proofs.EquationOrder

/-! # Variables are bound to older variables

    A substitution that is built by unifications, with and without the occurs
    check in any mix, may be cyclic.  Its chains of variables are not: every
    step of a chain leads to an older variable (`Built.bindsOlder`), because
    a binding made between two ends is never changed later.

    So chains have ends (`BindsOlder.chainsEnd`), and a variable at such an
    end is the oldest of all variables that are followed to it
    (`BindsOlder.le_of_walk`). -/

namespace LogicSearch.Substitution

variable {config : Config} {s s' : Substitution}

/-- Every variable that is bound to a variable is bound to an older one. -/
def BindsOlder (s : Substitution) : Prop :=
  ∀ x y, s.get? x = some (.var y) → y.id < x.id

/-! ## What unifications build -/

theorem bindsOlder_empty : BindsOlder .empty := by
  intro x y h
  rw [get?_empty] at h
  cases h

/-- Old bindings stay as they are, and new ones are to older variables. -/
theorem Grows.bindsOlder {good : Term → Prop} (h : Grows config good s s')
    (hs : s.BindsOlder) : s'.BindsOlder := by
  intro x y hxy
  cases hx : s.get? x with
  | none => exact (h.descends x y hx hxy).1
  | some t =>
      cases (h.value? hx).symm.trans hxy
      exact hs x y hx

/-- **ALL THAT IS BUILT BINDS OLDER VARIABLES.** -/
theorem Built.bindsOlder {allowed : Config → Prop} (h : Built allowed s) :
    s.BindsOlder := by
  induction h with
  | empty => exact bindsOlder_empty
  | unify _ _ hunify ih => exact (grows_of_unify hunify).bindsOlder ih

/-! ## Where chains lead -/

/-- Ids cannot drop for ever. -/
theorem BindsOlder.chainsEnd (hs : s.BindsOlder) : s.ChainsEnd := by
  refine chainsEnd_of_vars ?_
  intro x
  induction hn : x.id using Nat.strong_induction_on generalizing x with
  | _ n ih =>
      rcases s.isEnd_or_bound (.var x) with hend | ⟨z, t, hz, hx⟩
      · exact ⟨.var x, walk_of_isEnd hend⟩
      · cases hz
        cases t with
        | var y =>
            have hlt : y.id < n := hn ▸ hs x y hx
            obtain ⟨u, hu⟩ := ih y.id hlt y rfl
            exact ⟨u, (walk_bound hx).mpr hu⟩
        | atom a => exact ⟨.atom a, (walk_bound hx).mpr rfl⟩
        | composite m ts => exact ⟨.composite m ts, (walk_bound hx).mpr rfl⟩

/-- To bind older variables is to descend from nothing. -/
theorem BindsOlder.descends (hs : s.BindsOlder) : Descends .empty s :=
  fun x y _ hxy => ⟨hs x y hxy, get?_empty y⟩

/-- A variable is followed to older variables only. -/
theorem BindsOlder.le_of_walk (hs : s.BindsOlder) {x r : Var}
    (h : s.walk (.var x) = .ok (.var r)) : r.id ≤ x.id :=
  (hs.descends.le_of_walk (get?_empty x) h).1

/-- **BINDINGS POINT AT OLDER VARIABLES.**  In every substitution that comes
    from the empty one by unifications, whatever their terms and settings
    were, a variable that is bound to a variable is bound to an older one.
    So every walk finds an end, a unification fails at nothing but an
    infinite value, and an unbound variable is the oldest of all that are
    followed to it. -/
theorem Built.points_older (hs : Built (fun _ => True) s) :
    (∀ x y, s.get? x = some (.var y) → y.id < x.id) ∧
    (∀ t, ∃ u, s.walk t = .ok u) ∧
    (∀ config u v e, s.unify config u v = .broken e →
      ∃ x, e = .cyclicTerm x) ∧
    ∀ x r, s.walk (.var x) = .ok (.var r) →
      s.walk (.var r) = .ok (.var r) ∧
      ∀ y r', s.walk (.var y) = .ok (.var r') → r'.same r = true →
        r.id ≤ y.id := by
  have holder := hs.bindsOlder
  refine ⟨holder, holder.chainsEnd, ?_, ?_⟩
  · intro config u v e h
    exact (holder.chainsEnd.of_unify_broken h).2
  · intro x r hx
    refine ⟨walk_of_isEnd (isEnd_of_walk hx), ?_⟩
    intro y r' hy hr
    have hsame : r'.id = r.id := beq_iff_eq.mp hr
    exact hsame ▸ holder.le_of_walk hy

/-- `x = (x)` without the occurs check, then `z = y` with it and `z = w`
    without it: all three of `w`, `z` and `y` are followed to `y`, the oldest.
    A checked unification with `x` reports the value of `x`. -/
theorem Built.points_older_mixed :
    let x : Var := ⟨0, "x"⟩
    let y : Var := ⟨1, "y"⟩
    let w : Var := ⟨3, "w"⟩
    let s : Substitution := ⟨(((∅ : Std.ExtTreeMap Nat Entry).insert 0
      ⟨"x", .composite none [.var x]⟩).insert 2 ⟨"z", .var y⟩).insert 3
      ⟨"w", .var y⟩⟩
    Built (fun _ => True) s ∧ ¬ s.Acyclic ∧
    s.unify .checked (.var w) (.var x) = .broken (.cyclicTerm x) ∧
    s.walk (.var w) = .ok (.var y) ∧
    ∀ v r, s.walk (.var v) = .ok (.var r) → r.same y = true →
      y.id ≤ v.id := by
  intro x y w s
  let s₁ : Substitution := ⟨(∅ : Std.ExtTreeMap Nat Entry).insert 0
    ⟨"x", .composite none [.var x]⟩⟩
  let s₂ : Substitution := ⟨s₁.entries.insert 2 ⟨"z", .var y⟩⟩
  have h₁ : Substitution.empty.unify .unchecked (.var x)
      (.composite none [.var x]) = .unified s₁ := rfl
  have h₂ : s₁.unify .checked (.var ⟨2, "z"⟩) (.var y) = .unified s₂ := rfl
  have h₃ : s₂.unify .unchecked (.var ⟨2, "z"⟩) (.var w) = .unified s := rfl
  have hs : Built (fun _ => True) s :=
    .unify (.unify (.unify .empty trivial h₁) trivial h₂) trivial h₃
  have hcyclic : ¬ s.Acyclic := by
    intro h
    exact h 0 0 ⟨_, rfl, x, List.mem_singleton_self x, rfl⟩ (.refl 0)
  obtain ⟨-, -, -, holdest⟩ := hs.points_older
  exact ⟨hs, hcyclic, rfl, rfl, (holdest w y rfl).2⟩

end LogicSearch.Substitution
