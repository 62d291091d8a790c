import LogicSearch.Proofs.Correspondence
import LogicSearch.Proofs.NewBindings
import LogicSearch.Proofs.Recursion

/-! # Unification in step

    Corresponding unifications have corresponding outcomes
    (`Indifferent.unify`).  Everything that unification looks at corresponds,
    with one exception: the shortcut for shared terms may be open on one side
    only.  What is asked of the substitutions (`Indifferent`) is that taking
    it makes no difference.

    - Under exact correspondences it is open on both sides or on none
      (`Exact.indifferent`).
    - Between equal acyclic substitutions, with the occurs check, it leads
      where the long way leads, because equal terms unify without a binding
      (`indifferent_equality`). -/

namespace LogicSearch

open Substitution

variable {c : Correspondence} {config : Config}
  {p : Substitution → Substitution → Prop}

/-- Between related substitutions the shortcut for shared terms makes no
    difference, and unification keeps them related. -/
structure Correspondence.Indifferent (c : Correspondence) (config : Config)
    (p : Substitution → Substitution → Prop) : Prop where
  shared {s s' : Substitution} {u u' v v' : Term} : p s s' →
    s.IsEnd u → s.IsEnd v → s'.IsEnd u' → s'.IsEnd v' →
    u.Corresponds c u' → v.Corresponds c v' →
    u.shared v = true ∨ u'.shared v' = true →
    s.unify config u v = .unified s ∧ s'.unify config u' v' = .unified s'
  unify {s s' r r' : Substitution} {u u' v v' : Term} : p s s' →
    s.unify config u v = .unified r → s'.unify config u' v' = .unified r' →
    p r r'

namespace Correspondence

/-- Two ends meet in step if neither pair is shared and the items are unified
    in step. -/
theorem unifyEnds_corresponds {f g : Substitution → Term → Term → Outcome}
    {s s' : Substitution} (hs : s.Corresponds c s') {u u' v v' : Term}
    (hu : u.Corresponds c u') (hv : v.Corresponds c v')
    (huv : u.shared v = false) (huv' : u'.shared v' = false)
    (hitems : ∀ ts us ts' us', Term.CorrespondAll c ts ts' →
      Term.CorrespondAll c us us' →
      unifyEnds config f s u v = unifyAll f s ts us →
      (unifyAll f s ts us).Corresponds c (unifyAll g s' ts' us')) :
    (unifyEnds config f s u v).Corresponds c
      (unifyEnds config g s' u' v') := by
  have hoff : ¬ u.shared v = true := Bool.eq_false_iff.mp huv
  have hoff' : ¬ u'.shared v' = true := Bool.eq_false_iff.mp huv'
  unfold unifyEnds at hitems ⊢
  rw [if_neg hoff] at hitems ⊢
  rw [if_neg hoff']
  cases hu with
  | @var x x' hx => cases hv with
    | @var y y' hy =>
        by_cases hyx : y.id < x.id
        · simp only [if_pos hyx, if_pos ((c.lt_iff hy hx).mp hyx)]
          exact hs.bind config hx (.var hy)
        · simp only [if_neg hyx, if_neg fun h => hyx ((c.lt_iff hy hx).mpr h)]
          exact hs.bind config hy (.var hx)
    | atom hb => exact hs.bind config hx (.atom hb)
    | composite hn hus => exact hs.bind config hx (.composite hn hus)
  | @atom a a' ha => cases hv with
    | var hy => exact hs.bind config hy (.atom ha)
    | @atom b b' hb =>
        by_cases hab : a.equal b = true
        · simp only [if_pos hab, if_pos (c.equal_eq ha hb ▸ hab)]
          exact .unified hs
        · simp only [if_neg hab, if_neg (c.equal_eq ha hb ▸ hab)]
          exact .clash
    | composite hn hus => exact .clash
  | @composite m m' ts ts' hm hts => cases hv with
    | var hy => exact hs.bind config hy (.composite hm hts)
    | atom hb => exact .clash
    | @composite n n' us us' hn hus =>
        by_cases hlen : ts.length = us.length
        · have hlen' : ts'.length = us'.length := by
            rw [← hts.length_eq, hlen, hus.length_eq]
          simp only [if_pos hlen, if_pos hlen'] at hitems ⊢
          exact hitems ts us ts' us' hts hus rfl
        · have hlen' : ¬ ts'.length = us'.length := by
            rw [← hts.length_eq, ← hus.length_eq]
            exact hlen
          simp only [if_neg hlen, if_neg hlen']
          exact .clash

namespace Indifferent

/-- Lists are unified in step if their items are. -/
theorem unifyAll (hp : c.Indifferent config p) {n : Nat}
    (ih : ∀ (s s' : Substitution) (u u' v v' : Term), p s s' →
      s.Corresponds c s' → u.Corresponds c u' → v.Corresponds c v' →
      unifyAt config n s u v ≠ .unanswered →
      (unifyAt config n s u v).Corresponds c (s'.unify config u' v')) :
    ∀ (ts us ts' us' : List Term) (s s' : Substitution), p s s' →
      s.Corresponds c s' → Term.CorrespondAll c ts ts' →
      Term.CorrespondAll c us us' →
      Substitution.unifyAll (unifyAt config n) s ts us ≠ .unanswered →
      (Substitution.unifyAll (unifyAt config n) s ts us).Corresponds c
        (Substitution.unifyAll (Substitution.unify config) s' ts' us') := by
  intro ts
  induction ts with
  | nil =>
      intro us ts' us' s s' _ hs hts _ _
      cases hts
      exact .unified hs
  | cons t ts ihts =>
      intro us ts' us' s s' hpss hs hts hus h
      cases hts with
      | @cons _ t' _ ts' ht hts => cases hus with
        | nil => exact .unified hs
        | @cons u u' us us' hu hus =>
            rw [Substitution.unifyAll] at h ⊢
            rw [Substitution.unifyAll]
            have hanswered : unifyAt config n s t u ≠ .unanswered := by
              intro hno
              rw [hno] at h
              exact h rfl
            have hhead := ih s s' t t' u u' hpss hs ht hu hanswered
            have hleft := unify_eq_of_answered hanswered
            generalize unifyAt config n s t u = o at h hhead hleft ⊢
            generalize hright : s'.unify config t' u' = o' at hhead ⊢
            cases hhead with
            | unified hrr =>
                exact ihts us ts' us' _ _ (hp.unify hpss hleft hright) hrr
                  hts hus h
            | clash => exact .clash
            | broken he => exact .broken he
            | unanswered => exact absurd rfl h

/-- **WHAT IS ANSWERED ON ONE SIDE IS ANSWERED IN STEP** on the other,
    whatever the depths of the two. -/
theorem unifyAt (hp : c.Indifferent config p) (n : Nat) :
    ∀ (s s' : Substitution) (u u' v v' : Term), p s s' →
      s.Corresponds c s' → u.Corresponds c u' → v.Corresponds c v' →
      unifyAt config n s u v ≠ .unanswered →
      (unifyAt config n s u v).Corresponds c (s'.unify config u' v') := by
  induction n with
  | zero => intro s s' u u' v v' _ _ _ _ h; exact absurd rfl h
  | succ n ih =>
      intro s s' u u' v v' hpss hs hu hv h
      rw [Substitution.unifyAt] at h ⊢
      rcases (hs.walk hu).cases with
        ⟨a, a', ha, ha', haa⟩ | ⟨e, e', ha, ha', he⟩
      · rcases (hs.walk hv).cases with
          ⟨b, b', hb, hb', hbb⟩ | ⟨e, e', hb, hb', he⟩
        · rw [unify_of_walk ha' hb']
          simp only [ha, hb] at h ⊢
          have hends := isEnd_of_walk ha
          have hends' := isEnd_of_walk ha'
          by_cases hab : a.shared b = true ∨ a'.shared b' = true
          · -- both sides come to the substitution they started with
            obtain ⟨hl, hr⟩ := hp.shared hpss hends (isEnd_of_walk hb) hends'
              (isEnd_of_walk hb') haa hbb hab
            rw [unify_of_isEnd hends (isEnd_of_walk hb)] at hl
            rw [unify_of_isEnd hends' (isEnd_of_walk hb')] at hr
            rw [hr, ← unifyEnds_congr (fun s t u => unify_eq_of_answered) s
              a b h, hl]
            exact .unified hs
          · rw [not_or, Bool.not_eq_true, Bool.not_eq_true] at hab
            refine unifyEnds_corresponds hs haa hbb hab.1 hab.2 ?_
            intro ts us ts' us' hts hus heq
            exact hp.unifyAll ih ts us ts' us' s s' hpss hs hts hus (heq ▸ h)
        · rw [unify_of_walk_right ha' hb', ha, hb]
          exact .broken he
      · rw [unify_of_walk_left ha', ha]
        exact .broken he

/-- What unification answers on one side, it answers in step on the other. -/
theorem unify_of_answered (hp : c.Indifferent config p)
    {s s' : Substitution} (hpss : p s s') (hs : s.Corresponds c s')
    {u u' v v' : Term} (hu : u.Corresponds c u') (hv : v.Corresponds c v')
    (h : s.unify config u v ≠ .unanswered) :
    (s.unify config u v).Corresponds c (s'.unify config u' v') := by
  rw [unify_eq_unifyAt] at h ⊢
  exact hp.unifyAt _ s s' u u' v v' hpss hs hu hv h

end Indifferent

/-! ## Exact correspondences -/

theorem Exact.indifferent (hc : c.Exact) (config : Config) :
    c.Indifferent config fun _ _ => True where
  shared _ hu hv hu' hv' huu hvv hshared := by
    have heq := huu.shared_eq hc hvv
    rcases hshared with h | h
    · exact ⟨unify_of_shared hu hv h, unify_of_shared hu' hv' (heq ▸ h)⟩
    · exact ⟨unify_of_shared hu hv (heq ▸ h), unify_of_shared hu' hv' h⟩
  unify _ _ _ := trivial

/-- **UNIFICATION RUNS IN STEP** under exact correspondences, also where it
    fails and where it does not end. -/
theorem Exact.unify_corresponds (hc : c.Exact) (config : Config)
    {s s' : Substitution} (hs : s.Corresponds c s') {u u' v v' : Term}
    (hu : u.Corresponds c u') (hv : v.Corresponds c v') :
    (s.unify config u v).Corresponds c (s'.unify config u' v') := by
  by_cases hleft : s.unify config u v = .unanswered
  · have hright : s'.unify config u' v' = .unanswered := by
      -- an answer on the right would be one on the left
      by_contra h
      have hback := (hc.symm.indifferent config).unify_of_answered trivial
        hs.symm hu.symm hv.symm h
      rw [hleft] at hback
      generalize s'.unify config u' v' = o at hback h
      cases hback
      exact h rfl
    rw [hleft, hright]
    exact .unanswered
  · exact (hc.indifferent config).unify_of_answered trivial hs hu hv hleft

/-! ## Equality under the occurs check -/

theorem indifferent_equality :
    equality.Indifferent .checked fun s s' => s.Acyclic ∧ s'.Acyclic where
  shared {s s' u u' v v'} hp _ _ _ _ hu hv hshared := by
    rw [← Term.equal_iff_corresponds] at hu hv
    have huv : u.equal v = true := by
      rcases hshared with h | h
      · exact Term.equal_of_shared h
      · rw [Term.equal_comm] at hv
        exact Term.equal_trans hu
          (Term.equal_trans (Term.equal_of_shared h) hv)
    have huv' : u'.equal v' = true := by
      rw [Term.equal_comm] at hu
      exact Term.equal_trans hu (Term.equal_trans huv hv)
    exact ⟨hp.1.unify_of_equal huv, hp.2.unify_of_equal huv'⟩
  unify hp h h' := ⟨hp.1.unify h, hp.2.unify h'⟩

/-- **CHECKED UNIFICATION RUNS IN STEP** between equal acyclic
    substitutions. -/
theorem unify_corresponds_equality {s s' : Substitution} (hs : s.Acyclic)
    (hs' : s'.Acyclic) (hss : s.Corresponds equality s') {u u' v v' : Term}
    (hu : u.equal u' = true) (hv : v.equal v' = true) :
    (s.unify .checked u v).Corresponds equality (s'.unify .checked u' v') :=
  indifferent_equality.unify_of_answered ⟨hs, hs'⟩ hss
    (Term.equal_iff_corresponds.mp hu) (Term.equal_iff_corresponds.mp hv)
    (IsDecided.ne_unanswered (hs.unify_decided u v))

end Correspondence

end LogicSearch
