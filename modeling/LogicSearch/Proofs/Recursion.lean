import LogicSearch.Proofs.AnswerDepth

/-! # Unification as a recursion without a depth

    The depth costs no answer, so it can be left out: unification follows
    both terms to the ends of their chains and unifies the ends by
    unification itself (`unify_of_walk`), and it breaks off where a chain has
    no end.  This holds for every substitution, also where there is no
    answer. -/

namespace LogicSearch.Substitution

variable {config : Config} {s : Substitution}

/-- Lists that have an answer have one at some depth. -/
theorem exists_unifyAll_eq (ts : List Term) :
    ∀ (us : List Term) (s : Substitution),
      unifyAll (unify config) s ts us ≠ .unanswered →
      ∃ n, unifyAll (unifyAt config n) s ts us
        = unifyAll (unify config) s ts us := by
  induction ts with
  | nil => intro us s _; exact ⟨0, rfl⟩
  | cons t ts ih =>
      intro us s h
      cases us with
      | nil => exact ⟨0, rfl⟩
      | cons u us =>
          rw [unifyAll] at h ⊢
          obtain ⟨n, hn⟩ : ∃ n, s.unify config t u = unifyAt config n s t u :=
            ⟨_, unify_eq_unifyAt config s t u⟩
          cases htu : s.unify config t u with
          | unanswered => rw [htu] at h; exact absurd rfl h
          | clash => exact ⟨n, by rw [unifyAll, ← hn, htu]⟩
          | broken e => exact ⟨n, by rw [unifyAll, ← hn, htu]⟩
          | unified s' =>
              rw [htu] at h
              obtain ⟨m, hm⟩ := ih us s' h
              -- the larger of the two depths serves the head and the tail
              have hhead : unifyAt config (max n m) s t u = .unified s' := by
                rw [unifyAt_mono (Nat.le_max_left n m) s t u, ← hn, htu]
                rw [← hn, htu]
                intro hno
                cases hno
              have hsome : unifyAll (unifyAt config m) s' ts us
                  ≠ .unanswered := by
                rw [hm]
                exact h
              have htail := unifyAll_congr (fun s t u =>
                unifyAt_mono (Nat.le_max_right n m) s t u) ts us s' hsome
              refine ⟨max n m, ?_⟩
              rw [unifyAll, hhead]
              exact htail.trans hm

/-- **THE RECURSION**, where both chains have ends. -/
theorem unify_of_walk {u v u' v' : Term} (hu : s.walk u = .ok u')
    (hv : s.walk v = .ok v') :
    s.unify config u v = unifyEnds config (unify config) s u' v' := by
  have hsucc : ∀ n, unifyAt config (n + 1) s u v
      = unifyEnds config (unifyAt config n) s u' v' := by
    intro n
    rw [unifyAt, hu, hv]
  by_cases hsome : ∃ n,
      unifyEnds config (unifyAt config n) s u' v' ≠ .unanswered
  · obtain ⟨n, hn⟩ := hsome
    have hanswered : unifyAt config (n + 1) s u v ≠ .unanswered := by
      rw [hsucc]
      exact hn
    rw [unify_eq_of_answered hanswered, hsucc]
    exact (unifyEnds_congr (fun s t u h => unify_eq_of_answered h) s u' v'
      hn).symm
  · have hnone : ∀ n,
        unifyEnds config (unifyAt config n) s u' v' = .unanswered := by
      intro n
      by_contra h
      exact hsome ⟨n, h⟩
    -- without an answer at any depth there is none on the right either,
    -- because the items would have it at some depth
    obtain ⟨m, n, ts, us, rfl, rfl, hends⟩ := unifyEnds_unanswered (hnone 0)
    have hright : unifyAll (unify config) s ts us = .unanswered := by
      by_contra h
      obtain ⟨d, hd⟩ := exists_unifyAll_eq ts us s h
      rw [← hd, ← hends] at h
      exact h (hnone d)
    rw [hends, hright, unify_eq_unanswered_iff]
    intro d
    cases d with
    | zero => rfl
    | succ d => rw [hsucc, hnone]

/-- A break at some depth is a break. -/
theorem unify_eq_broken {n : Nat} {u v : Term} {e : Error}
    (h : unifyAt config n s u v = .broken e) :
    s.unify config u v = .broken e := by
  have hanswered : unifyAt config n s u v ≠ .unanswered := by
    rw [h]
    intro hno
    cases hno
  rw [unify_eq_of_answered hanswered, h]

theorem unify_of_walk_left {u v : Term} {e : Error}
    (hu : s.walk u = .error e) : s.unify config u v = .broken e :=
  unify_eq_broken (n := 1) (by rw [unifyAt, hu])

theorem unify_of_walk_right {u v u' : Term} {e : Error}
    (hu : s.walk u = .ok u') (hv : s.walk v = .error e) :
    s.unify config u v = .broken e :=
  unify_eq_broken (n := 1) (by rw [unifyAt, hu, hv])

/-- Terms at the ends of their chains are unified as they are. -/
theorem unify_of_isEnd {u v : Term} (hu : s.IsEnd u) (hv : s.IsEnd v) :
    s.unify config u v = unifyEnds config (unify config) s u v :=
  unify_of_walk (walk_of_isEnd hu) (walk_of_isEnd hv)

/-- Shared ends unify as they are. -/
theorem unify_of_shared {u v : Term} (hu : s.IsEnd u) (hv : s.IsEnd v)
    (huv : u.shared v = true) : s.unify config u v = .unified s := by
  rw [unify_of_isEnd hu hv]
  unfold unifyEnds
  exact if_pos huv

end LogicSearch.Substitution
