import LogicSearch.Proofs.ChainEnds
import LogicSearch.Proofs.CheckedUnification
import LogicSearch.Proofs.FullValues

/-! # Unification with and without the occurs check

    What unifies with the occurs check unifies without it, to the same
    substitution (`unify_unchecked`).  The other way this holds as long as
    the result is acyclic: its full values are a solution, and the check
    forbids nothing that has one.  So with an acyclic result the settings do
    not matter (`Acyclic.unify_config`), and from an acyclic substitution the
    check is a filter for acyclic results (`Acyclic.unify_checked_exact`). -/

namespace LogicSearch.Substitution

variable {config : Config} {s s' : Substitution}

/-! ## Without the check nothing is lost -/

theorem bind_unchecked {x : Var} {t : Term}
    (h : s.bind .checked x t = .unified s') :
    s.bind .unchecked x t = .unified s' := by
  have hextend := (bind_eq_unified h).2
  have hoff : ¬ Config.unchecked.occursCheck = true := Bool.false_ne_true
  rw [bind, if_neg hoff, assign, hextend]

/-- Lists unify if their items do, one after the other. -/
theorem unifyAll_unified_mono
    {f g : Substitution → Term → Term → Outcome}
    (hfg : ∀ s s' t u, f s t u = .unified s' → g s t u = .unified s') :
    ∀ (ts us : List Term) (s s' : Substitution),
      unifyAll f s ts us = .unified s' →
      unifyAll g s ts us = .unified s' := by
  intro ts
  induction ts with
  | nil => intro us s s' h; exact h
  | cons t ts ih =>
      intro us s s' h
      cases us with
      | nil => exact h
      | cons u us =>
          rcases unifyAll_cons f s t u ts us with
            ⟨s₁, htu, hall⟩ | ⟨hstop, hall⟩
          · rw [unifyAll, hfg s s₁ t u htu]
            exact ih us s₁ s' (hall.symm.trans h)
          · exact absurd (hall.symm.trans h) (hstop s')

/-- Two ends meet without the check as they do with it. -/
theorem unifyEnds_unchecked
    {f g : Substitution → Term → Term → Outcome}
    (hfg : ∀ s s' t u, f s t u = .unified s' → g s t u = .unified s')
    {u v : Term} (h : unifyEnds .checked f s u v = .unified s') :
    unifyEnds .unchecked g s u v = .unified s' := by
  unfold unifyEnds at h ⊢
  by_cases huv : u.shared v = true
  · rw [if_pos huv] at h ⊢
    exact h
  · rw [if_neg huv] at h ⊢
    cases u with
    | var x =>
        cases v with
        | var y =>
            by_cases hyx : y.id < x.id
            · simp only [if_pos hyx] at h ⊢
              exact bind_unchecked h
            · simp only [if_neg hyx] at h ⊢
              exact bind_unchecked h
        | atom b => exact bind_unchecked h
        | composite n us => exact bind_unchecked h
    | atom a =>
        cases v with
        | var y => exact bind_unchecked h
        | atom b => exact h
        | composite n us => exact h
    | composite m ts =>
        cases v with
        | var y => exact bind_unchecked h
        | atom b => exact h
        | composite n us =>
            by_cases hlen : ts.length = us.length
            · simp only [if_pos hlen] at h ⊢
              exact unifyAll_unified_mono hfg ts us s s' h
            · simp only [if_neg hlen] at h
              cases h

theorem unifyAt_unchecked (n : Nat) :
    ∀ (s s' : Substitution) (u v : Term),
      unifyAt .checked n s u v = .unified s' →
      unifyAt .unchecked n s u v = .unified s' := by
  induction n with
  | zero => intro s s' u v h; cases h
  | succ n ih =>
      intro s s' u v h
      rw [unifyAt] at h ⊢
      cases hu : s.walk u with
      | error e => rw [hu] at h; cases h
      | ok u' =>
          cases hv : s.walk v with
          | error e => rw [hu, hv] at h; cases h
          | ok v' =>
              rw [hu, hv] at h
              exact unifyEnds_unchecked ih h

/-- **WHAT UNIFIES WITH THE CHECK UNIFIES WITHOUT IT**, and to the same
    substitution. -/
theorem unify_unchecked {u v : Term}
    (h : s.unify .checked u v = .unified s') :
    s.unify .unchecked u v = .unified s' := by
  rw [unify_eq_unifyAt] at h ⊢
  exact unifyAt_unchecked _ s s' u v h

/-! ## With an acyclic result the check finds nothing -/

/-- A part of an acyclic substitution is acyclic. -/
theorem Acyclic.of_mono (hs' : s'.Acyclic)
    (h : ∀ i t, s.value? i = some t → s'.value? i = some t) :
    s.Acyclic := by
  rintro i j ⟨t, ht, hj⟩ hback
  exact hs' i j ⟨t, h i t ht, hj⟩ (hback.mono h)

/-- **THE CHECK FORBIDS NO ACYCLIC RESULT.** -/
theorem Acyclic.unify_checked (hs' : s'.Acyclic) {u v : Term}
    (h : s.unify .unchecked u v = .unified s') :
    s.unify .checked u v = .unified s' := by
  have hs : s.Acyclic :=
    hs'.of_mono fun _ _ hi => (grows_of_unify h).value? hi
  have hsolutions := unify_keeps .unchecked s u v
  rw [h] at hsolutions
  rcases hs.unify_cases u v with hclash | ⟨s₁, h₁⟩
  · -- the full values of the result are a solution, so there is no clash
    have hnone := unify_keeps .checked s u v
    rw [hclash] at hnone
    exact absurd ((hsolutions _).mp hs'.satisfies_solution) (hnone _)
  · cases (unify_unchecked h₁).symm.trans h
    exact h₁

/-- With an acyclic result the settings do not matter. -/
theorem Acyclic.unify_config (hs' : s'.Acyclic) {c : Config} (d : Config)
    {u v : Term} (h : s.unify c u v = .unified s') :
    s.unify d u v = .unified s' := by
  have hunchecked : s.unify .unchecked u v = .unified s' := by
    rcases c.checked_or_unchecked with rfl | rfl
    · exact unify_unchecked h
    · exact h
  rcases d.checked_or_unchecked with rfl | rfl
  · exact hs'.unify_checked hunchecked
  · exact hunchecked

/-! ## The check is a filter -/

/-- Without the check the same results come up, and the cyclic ones. -/
theorem Acyclic.unify_checked_iff (hs : s.Acyclic) {u v : Term} :
    s.unify .checked u v = .unified s' ↔
      s.unify .unchecked u v = .unified s' ∧ s'.Acyclic := by
  constructor
  · intro h
    exact ⟨unify_unchecked h, hs.unify h⟩
  · rintro ⟨h, hs'⟩
    exact hs'.unify_checked h

/-- Where the check leads to a clash, unification without it has a clash, too,
    or a cyclic result, or no end. -/
theorem Acyclic.unify_checked_clash_iff (hs : s.Acyclic) {u v : Term} :
    s.unify .checked u v = .clash ↔
      s.unify .unchecked u v = .clash ∨
      (∃ s', s.unify .unchecked u v = .unified s' ∧ ¬ s'.Acyclic) ∨
      s.unify .unchecked u v = .unanswered := by
  constructor
  · intro hclash
    cases h : s.unify .unchecked u v with
    | unified s' =>
        refine .inr (.inl ⟨s', rfl, ?_⟩)
        intro hs'
        cases hclash.symm.trans (hs'.unify_checked h)
    | clash => exact .inl rfl
    | broken e => cases (hs.chainsEnd.of_unify_broken h).1
    | unanswered => exact .inr (.inr rfl)
  · intro h
    rcases hs.unify_cases u v with hclash | ⟨s', hs'⟩
    · exact hclash
    · -- a checked result would be the result without the check
      obtain ⟨hunchecked, hacyclic⟩ := hs.unify_checked_iff.mp hs'
      rw [hunchecked] at h
      rcases h with h | ⟨s₁, h, hcyclic⟩ | h
      · cases h
      · cases h
        exact absurd hacyclic hcyclic
      · cases h

/-- **THE OCCURS CHECK IS A FILTER.**  From an acyclic substitution, checked
    unification has exactly the acyclic results of unification without the
    check.  It has a clash exactly if without the check there is a clash or a
    cyclic result, or the recursion has no end at any depth. -/
theorem Acyclic.unify_checked_exact (hs : s.Acyclic) (u v : Term) :
    (∀ s', s.unify .checked u v = .unified s' ↔
      s.unify .unchecked u v = .unified s' ∧ s'.Acyclic) ∧
    (s.unify .checked u v = .clash ↔
      s.unify .unchecked u v = .clash ∨
      (∃ s', s.unify .unchecked u v = .unified s' ∧ ¬ s'.Acyclic) ∨
      ∀ n, unifyAt .unchecked n s u v = .unanswered) := by
  refine ⟨fun s' => hs.unify_checked_iff, ?_⟩
  rw [← unify_eq_unanswered_iff]
  exact hs.unify_checked_clash_iff

/-- With `y` bound to `(x)`, the check forbids to bind `x` to the value of
    `y`.  Without it the terms unify, so the result is cyclic. -/
theorem Acyclic.unify_checked_exact_loop :
    let x : Term := .var ⟨0, "x"⟩
    let y : Term := .var ⟨1, "y"⟩
    let s : Substitution := ⟨(∅ : Std.ExtTreeMap Nat Entry).insert 1
      ⟨"y", .composite none [x]⟩⟩
    s.Acyclic ∧ s.unify .checked x y = .clash ∧
    ∃ s', s.unify .unchecked x y = .unified s' ∧ ¬ s'.Acyclic := by
  intro x y s
  have hbuilt : Built (· = .checked) s :=
    .unify (u := y) (v := .composite none [x]) .empty rfl rfl
  have hclash : s.unify .checked x y = .clash := rfl
  have hunchecked : s.unify .unchecked x y = .unified
      ⟨s.entries.insert 0 ⟨"x", .composite none [x]⟩⟩ := rfl
  refine ⟨hbuilt.acyclic, hclash, ?_⟩
  rcases (hbuilt.acyclic.unify_checked_exact x y).2.mp hclash with
    h | h | h
  · cases hunchecked.symm.trans h
  · exact h
  · cases hunchecked.symm.trans (unify_eq_unanswered_iff.mpr h)

end LogicSearch.Substitution
