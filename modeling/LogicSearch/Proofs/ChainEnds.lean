import LogicSearch.Proofs.Growth
import LogicSearch.Proofs.Occurrence

/-! # Chains keep their ends

    Without the occurs check a substitution may become cyclic, but only
    through composites.  A binding joins an unbound variable to the end of
    another chain, so a chain that had an end has one afterwards
    (`Addition.chainsEnd`, `Grows.chainsEnd`).

    A unification breaks off at a chain without an end, or because the occurs
    check does (`breaks_of_unify`).  Where all chains have ends, that leaves
    the occurs check and the infinite values that it meets
    (`ChainsEnd.of_unify_broken`): walks find their ends, and what is bound
    there was unbound.  So unification without the occurs check cannot fail
    (`ChainsEnd.unify_unchecked`). -/

namespace LogicSearch

namespace Substitution

/-- Every chain of variables has an end. -/
def ChainsEnd (s : Substitution) : Prop := ∀ t, ∃ u, s.walk t = .ok u

variable {config : Config} {good : Term → Prop} {s s' : Substitution}

/-- It is enough that those of variables have ends. -/
theorem chainsEnd_of_vars (h : ∀ x, ∃ u, s.walk (.var x) = .ok u) :
    s.ChainsEnd := by
  intro t
  cases t with
  | var x => exact h x
  | atom a => exact ⟨.atom a, rfl⟩
  | composite m ts => exact ⟨.composite m ts, rfl⟩

theorem Acyclic.chainsEnd (hs : s.Acyclic) : s.ChainsEnd :=
  fun t => hs.walk t

/-! ## One binding -/

/-- The new value is still the end of its chain. -/
theorem Addition.isEnd_value {x : Var} {t : Term}
    (h : Addition config good s x t s') : s'.IsEnd t := by
  intro y hy
  rw [get?, h.value?, if_neg (h.older y hy).ne]
  exact h.isEnd y hy

/-- The ends there were either stay or go on to the new value. -/
theorem Addition.walk_isEnd {x : Var} {t u : Term}
    (h : Addition config good s x t s') (hu : s.IsEnd u) :
    ∃ w, s'.walk u = .ok w := by
  cases u with
  | var z =>
      by_cases hzx : z.id = x.id
      · have hz : s'.get? z = some t := by
          rw [get?, h.value?, if_pos hzx]
        exact ⟨t, (walk_bound hz).mpr (walk_of_isEnd h.isEnd_value)⟩
      · have hz : s'.get? z = none := by
          rw [get?, h.value?, if_neg hzx]
          exact hu z rfl
        exact ⟨.var z, walk_of_isEnd (isEnd_var hz)⟩
  | atom a => exact ⟨.atom a, rfl⟩
  | composite m ts => exact ⟨.composite m ts, rfl⟩

/-- **A BINDING KEEPS THE ENDS OF CHAINS.** -/
theorem Addition.chainsEnd {x : Var} {t : Term}
    (h : Addition config good s x t s') (hs : s.ChainsEnd) :
    s'.ChainsEnd := by
  intro w
  obtain ⟨u, hu⟩ := hs w
  obtain ⟨n, hn⟩ := walk_eq_ok_iff.mp hu
  -- the old chain, read backwards from its end, is part of the new one
  refine chase_back_induct (motive := fun _ w => ∃ u, s'.walk w = .ok u)
    ?_ ?_ hn
  · intro _ hend
    exact h.walk_isEnd hend
  · intro _ z v hz ih
    obtain ⟨u, hu⟩ := ih
    have hz' : s'.get? z = some v :=
      (Grows.add h (.refl s')).value? hz
    exact ⟨u, (walk_bound hz').mpr hu⟩

/-- So no unification loses an end. -/
theorem Grows.chainsEnd (h : Grows config good s s') (hs : s.ChainsEnd) :
    s'.ChainsEnd := by
  induction h with
  | refl s => exact hs
  | add hadd _ ih => exact ih (hadd.chainsEnd hs)

/-! ## Where a unification breaks off -/

/-- Under this substitution a walk or the occurs check fails. -/
inductive Fails (config : Config) (s : Substitution) : Error → Prop where
  | walk {t : Term} {e : Error} : s.walk t = .error e → Fails config s e
  | check {x : Var} {t : Term} {e : Error} : config.occursCheck = true →
      s.occurs x t = .error e → Fails config s e

/-- The error comes up under the substitution or after some more bindings. -/
def Breaks (config : Config) (s : Substitution) (e : Error) : Prop :=
  ∃ s', Grows config (fun _ => True) s s' ∧ s'.Fails config e

theorem Fails.breaks {e : Error} (h : s.Fails config e) :
    s.Breaks config e :=
  ⟨s, .refl s, h⟩

theorem Breaks.of_grows {e : Error} (h : s'.Breaks config e)
    (hgrows : Grows config (fun _ => True) s s') : s.Breaks config e := by
  obtain ⟨s₁, hgrows', hfails⟩ := h
  exact ⟨s₁, hgrows.trans hgrows', hfails⟩

/-- An unbound variable is not bound already, so the check has failed. -/
theorem fails_of_bind {x : Var} {t : Term} {e : Error}
    (hx : s.get? x = none) (h : s.bind config x t = .broken e) :
    s.Fails config e := by
  rcases bind_cases config s x t with
    ⟨e', hc, ho, hbind⟩ | ⟨-, -, hbind⟩ | ⟨-, hbind⟩
  · cases h.symm.trans hbind
    exact .check hc ho
  · cases h.symm.trans hbind
  · obtain ⟨s', -, hassign⟩ := exists_assign t hx
    cases (h.symm.trans hbind).trans hassign

theorem breaks_of_unifyAll {unify : Substitution → Term → Term → Outcome}
    (hgrows : ∀ s s' t u, unify s t u = .unified s' →
      Grows config (fun _ => True) s s')
    (hbreaks : ∀ s t u e, unify s t u = .broken e → s.Breaks config e) :
    ∀ (ts us : List Term) (s : Substitution) (e : Error),
      unifyAll unify s ts us = .broken e → s.Breaks config e := by
  intro ts
  induction ts with
  | nil => intro us s e h; cases h
  | cons t ts ih =>
      intro us s e h
      cases us with
      | nil => cases h
      | cons u us =>
          rcases unifyAll_cons unify s t u ts us with
            ⟨s₁, htu, hall⟩ | ⟨-, hall⟩
          · have hrest := ih us s₁ e (hall.symm.trans h)
            exact hrest.of_grows (hgrows s s₁ t u htu)
          · exact hbreaks s t u e (hall.symm.trans h)

/-- The meeting of two ends breaks off in binding one of them, or at their
    items. -/
theorem Meeting.breaks {unify : Substitution → Term → Term → Outcome}
    {u v : Term} {o : Outcome} {e : Error}
    (h : Meeting config unify s u v o) (ho : o = .broken e)
    (hu : s.IsEnd u) (hv : s.IsEnd v)
    (hgrows : ∀ s s' t u, unify s t u = .unified s' →
      Grows config (fun _ => True) s s')
    (hbreaks : ∀ s t u e, unify s t u = .broken e → s.Breaks config e) :
    s.Breaks config e := by
  cases h with
  | left _ _ => exact (fails_of_bind (hu _ rfl) ho).breaks
  | right _ _ => exact (fails_of_bind (hv _ rfl) ho).breaks
  | items _ => exact breaks_of_unifyAll hgrows hbreaks _ _ s e ho
  | shared _ => cases ho
  | lengths _ => cases ho
  | atoms _ => cases ho
  | values _ => cases ho
  | atomComposite => cases ho
  | compositeAtom => cases ho

theorem breaks_of_unifyAt (n : Nat) :
    ∀ (s : Substitution) (u v : Term) (e : Error),
      unifyAt config n s u v = .broken e → s.Breaks config e := by
  induction n with
  | zero => intro s u v e h; cases h
  | succ n ih =>
      intro s u v e h
      rcases unifyAt_succ config n s u v with
        ⟨e', he, hwalk⟩ | ⟨u', v', hu, hv, hmeet⟩
      · cases h.symm.trans he
        rcases hwalk with hwalk | hwalk
        · exact (Fails.walk hwalk).breaks
        · exact (Fails.walk hwalk).breaks
      · refine hmeet.breaks h (isEnd_of_walk hu) (isEnd_of_walk hv) ?_ ih
        intro s s' t u htu
        exact unifyAt_grows (fun _ _ _ _ _ => trivial) n s s' t u
          (fun _ _ _ _ => trivial) trivial trivial htu

/-- **WHERE A UNIFICATION BREAKS OFF**, a walk or the occurs check fails,
    under what was bound until then. -/
theorem breaks_of_unify {u v : Term} {e : Error}
    (h : s.unify config u v = .broken e) : s.Breaks config e := by
  rw [unify_eq_unifyAt] at h
  exact breaks_of_unifyAt _ s u v e h

/-- **WHERE ALL CHAINS HAVE ENDS** nothing fails but the occurs check, at an
    infinite value. -/
theorem ChainsEnd.of_unify_broken (hs : s.ChainsEnd) {u v : Term}
    {e : Error} (h : s.unify config u v = .broken e) :
    config.occursCheck = true ∧ ∃ x, e = .cyclicTerm x := by
  obtain ⟨s', hgrows, hfails⟩ := breaks_of_unify h
  have hwalk : ∀ t, s'.walk t ≠ .error e := by
    intro t ht
    obtain ⟨w, hw⟩ := hgrows.chainsEnd hs t
    exact nomatch ht.symm.trans hw
  cases hfails with
  | walk ht => exact absurd ht (hwalk _)
  | check hc ho =>
      refine ⟨hc, ?_⟩
      rcases occurs_eq_error ho with ⟨y, hy⟩ | hinfinite
      · exact absurd hy (hwalk _)
      · exact hinfinite

end Substitution

/-! ## Unification without the occurs check -/

/-- The outcome is no failure, and all chains of a unified substitution have
    ends. -/
def Outcome.KeepsChains : Outcome → Prop
  | unified s => s.ChainsEnd
  | clash => True
  | broken _ => False
  | unanswered => True

namespace Substitution

variable {s : Substitution}

/-- **UNIFICATION WITHOUT THE OCCURS CHECK DOES NOT FAIL** where all chains
    have ends, and they have ends afterwards. -/
theorem ChainsEnd.unify_unchecked (hs : s.ChainsEnd) (u v : Term) :
    (s.unify .unchecked u v).KeepsChains := by
  cases h : s.unify .unchecked u v with
  | unified s' => exact (grows_of_unify h).chainsEnd hs
  | clash => trivial
  | broken e => exact nomatch (hs.of_unify_broken h).1
  | unanswered => trivial

end Substitution

end LogicSearch
