import LogicSearch.Substitution.Unify

/-! # The depth of a unification

    An answer found at some depth is the answer at every larger depth
    (`unifyAt_mono`).  So trying an ample depth before the computed bound is
    unification at the larger of the two (`unify_eq_unifyAt`). -/

namespace LogicSearch.Substitution

/-- The first pair hands its bindings on to the others, or it decides. -/
theorem unifyAll_cons (f : Substitution → Term → Term → Outcome)
    (s : Substitution) (t u : Term) (ts us : List Term) :
    (∃ s', f s t u = .unified s'
      ∧ unifyAll f s (t :: ts) (u :: us) = unifyAll f s' ts us) ∨
    (∀ s', f s t u ≠ .unified s')
      ∧ unifyAll f s (t :: ts) (u :: us) = f s t u := by
  rw [unifyAll]
  cases f s t u with
  | unified s' => exact .inl ⟨s', rfl, rfl⟩
  | clash => exact .inr ⟨fun _ h => Outcome.noConfusion h, rfl⟩
  | broken e => exact .inr ⟨fun _ h => Outcome.noConfusion h, rfl⟩
  | unanswered => exact .inr ⟨fun _ h => Outcome.noConfusion h, rfl⟩

/-- Lists unify alike under two functions that agree wherever the first one
    has an answer. -/
theorem unifyAll_congr {f g : Substitution → Term → Term → Outcome}
    (hfg : ∀ s t u, f s t u ≠ .unanswered → g s t u = f s t u) :
    ∀ (ts us : List Term) (s : Substitution),
      unifyAll f s ts us ≠ .unanswered →
      unifyAll g s ts us = unifyAll f s ts us := by
  intro ts
  induction ts with
  | nil => intro us s _; rfl
  | cons t ts ih =>
      intro us s h
      cases us with
      | nil => rfl
      | cons u us =>
          rw [unifyAll] at h ⊢
          have htu : f s t u ≠ .unanswered := by
            intro hu
            rw [hu] at h
            exact h rfl
          rw [unifyAll, hfg s t u htu]
          cases hs : f s t u with
          | unified s' =>
              rw [hs] at h
              exact ih us s' h
          | clash => rfl
          | broken e => rfl
          | unanswered => exact absurd hs htu

/-- The same for terms at the ends of their chains. -/
theorem unifyEnds_congr {config : Config}
    {f g : Substitution → Term → Term → Outcome}
    (hfg : ∀ s t u, f s t u ≠ .unanswered → g s t u = f s t u)
    (s : Substitution) (u v : Term)
    (h : unifyEnds config f s u v ≠ .unanswered) :
    unifyEnds config g s u v = unifyEnds config f s u v := by
  unfold unifyEnds at h ⊢
  by_cases huv : u.shared v = true
  · rw [if_pos huv, if_pos huv]
  · rw [if_neg huv] at h ⊢
    rw [if_neg huv]
    cases u with
    | var x => cases v <;> rfl
    | atom a => cases v <;> rfl
    | composite m ts =>
        cases v with
        | var y => rfl
        | atom b => rfl
        | composite n us =>
            by_cases hlen : ts.length = us.length
            · simp only [if_pos hlen] at h ⊢
              exact unifyAll_congr hfg ts us s h
            · simp only [if_neg hlen]

/-- **MORE DEPTH CHANGES NO ANSWER.** -/
theorem unifyAt_mono {config : Config} {m n : Nat} (hmn : m ≤ n)
    (s : Substitution) (u v : Term)
    (h : unifyAt config m s u v ≠ .unanswered) :
    unifyAt config n s u v = unifyAt config m s u v := by
  induction m generalizing n s u v with
  | zero => exact absurd rfl h
  | succ m ih =>
      obtain ⟨k, rfl⟩ : ∃ k, n = k + 1 := ⟨n - 1, by omega⟩
      have hmk : m ≤ k := by omega
      rw [unifyAt] at h ⊢
      rw [unifyAt]
      cases hu : s.walk u with
      | error e => rfl
      | ok u' =>
          rw [hu] at h
          cases hv : s.walk v with
          | error e => rfl
          | ok v' =>
              rw [hv] at h
              exact unifyEnds_congr (fun s t u => ih hmk s t u) s u' v' h

/-- Unification is unification down to the larger of the two depths. -/
theorem unify_eq_unifyAt (config : Config) (s : Substitution)
    (u v : Term) :
    s.unify config u v
      = unifyAt config (max ampleDepth (s.depthBound u v)) s u v := by
  by_cases h : unifyAt config ampleDepth s u v = .unanswered
  · rw [unify, h]
    by_cases hle : ampleDepth ≤ s.depthBound u v
    · rw [Nat.max_eq_right hle]
    · have hlt : s.depthBound u v ≤ ampleDepth := by omega
      rw [Nat.max_eq_left hlt, h]
      by_cases hb : unifyAt config (s.depthBound u v) s u v = .unanswered
      · exact hb
      · rw [← unifyAt_mono hlt s u v hb, h]
  · rw [unifyAt_mono (Nat.le_max_left ..) s u v h, unify]
    cases hr : unifyAt config ampleDepth s u v with
    | unanswered => exact absurd hr h
    | unified s' => rfl
    | clash => rfl
    | broken e => rfl

end LogicSearch.Substitution
