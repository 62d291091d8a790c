import LogicSearch.Proofs.AnswerDepth
import LogicSearch.Proofs.Occurrence

/-! # Unification with the occurs check always answers

    From an acyclic substitution, unification with the occurs check comes to
    an end without an error, and what it ends with is acyclic again
    (`Acyclic.unify`).

    The recursion follows bindings, so its terms need not get smaller.  What
    gets smaller is a pair: first the number of unbound variables, which
    drops with every binding, then the term itself, in the order of
    `Acyclic.induct`, as long as no binding was made. -/

namespace LogicSearch

/-- A unified substitution or a clash. -/
def Outcome.IsDecided : Outcome → Prop
  | unified _ => True
  | clash => True
  | broken _ => False
  | unanswered => False

namespace Substitution

variable {s : Substitution}

/-! ## No binding closes a cycle -/

theorem Grows.acyclic {good : Term → Prop} {s s' : Substitution}
    (h : Grows .checked good s s') (hs : s.Acyclic) : s'.Acyclic := by
  induction h with
  | refl s => exact hs
  | add hadd _ ih =>
      refine ih (Acyclic.extend hs hadd.extend ?_)
      intro hreach
      rcases hs.occurs_cases hadd.unbound _ with ⟨hfound, -⟩ | ⟨-, hno⟩
      · rw [hadd.absent rfl] at hfound
        exact nomatch hfound
      · exact hno hreach

/-! ## One step is decided -/

theorem Acyclic.bind_decided (hs : s.Acyclic) {x : Var} (t : Term)
    (hx : s.get? x = none) : (s.bind .checked x t).IsDecided := by
  rcases bind_cases .checked s x t with
    ⟨e, -, ho, -⟩ | ⟨-, -, hbind⟩ | ⟨-, hbind⟩
  · -- the check does not fail
    rcases hs.occurs_cases hx t with ⟨hfound, -⟩ | ⟨hfound, -⟩
    · cases ho.symm.trans hfound
    · cases ho.symm.trans hfound
  · rw [hbind]
    trivial
  · obtain ⟨s', -, hassign⟩ := exists_assign t hx
    rw [hbind, hassign]
    trivial

/-- The meeting of two ends is decided if that of their items is. -/
theorem Meeting.decided
    {unify : Substitution → Term → Term → Outcome} {u v : Term}
    {o : Outcome} (h : Meeting .checked unify s u v o) (hs : s.Acyclic)
    (hu : s.IsEnd u) (hv : s.IsEnd v)
    (hitems : ∀ m n ts us, u = .composite m ts → v = .composite n us →
      (unifyAll unify s ts us).IsDecided) : o.IsDecided := by
  cases h with
  | shared _ => trivial
  | left _ _ => exact hs.bind_decided _ (hu _ rfl)
  | right _ _ => exact hs.bind_decided _ (hv _ rfl)
  | items _ => exact hitems _ _ _ _ rfl rfl
  | lengths _ => trivial
  | atoms _ => trivial
  | values _ => trivial
  | atomComposite => trivial
  | compositeAtom => trivial

/-! ## All steps are decided -/

/-- The unification of the two terms is decided at some depth. -/
def Answers (s : Substitution) (u v : Term) : Prop :=
  ∃ n, (unifyAt .checked n s u v).IsDecided

/-- Only the end of its chain matters of a term. -/
theorem Answers.of_walk {u u' v w : Term} (hu : s.walk u = .ok w)
    (hu' : s.walk u' = .ok w) (h : s.Answers u' v) : s.Answers u v := by
  obtain ⟨n, hn⟩ := h
  refine ⟨n, ?_⟩
  cases n with
  | zero => exact hn
  | succ n =>
      rw [unifyAt, hu'] at hn
      rw [unifyAt, hu]
      exact hn

theorem IsDecided.ne_unanswered {o : Outcome} (h : o.IsDecided) :
    o ≠ .unanswered := by
  rintro rfl
  exact h

/-- Two lists of items, under a substitution that grew from the one under
    which the terms were met: as long as it is the same, the first list is
    made of smaller terms, and otherwise a variable was bound. -/
theorem exists_unifyAll_decided {T : Finset Term}
    (hT : ItemClosed (· ∈ T)) (hs : s.Over (· ∈ T))
    (hgrown : ∀ s', Grows .checked (· ∈ T) s s' →
      (s'.openVars T).card < (s.openVars T).card →
      ∀ u ∈ T, ∀ v ∈ T, s'.Answers u v) :
    ∀ (ts us : List Term) (s₁ : Substitution),
      Grows .checked (· ∈ T) s s₁ →
      (∀ t ∈ ts, t ∈ T ∧ ∀ v ∈ T, s.Answers t v) → (∀ u ∈ us, u ∈ T) →
      ∃ n, (unifyAll (unifyAt .checked n) s₁ ts us).IsDecided := by
  intro ts
  induction ts with
  | nil =>
      intro us s₁ _ _ _
      refine ⟨0, ?_⟩
      rw [unifyAll.eq_def]
      trivial
  | cons t ts ih =>
      intro us s₁ hgrow hts hus
      cases us with
      | nil =>
          refine ⟨0, ?_⟩
          rw [unifyAll.eq_def]
          trivial
      | cons u us =>
          obtain ⟨htT, ht⟩ := hts t (List.mem_cons_self ..)
          have huT := hus u (List.mem_cons_self ..)
          have htu : s₁.Answers t u := by
            rcases hgrow.openVars_lt with rfl | hlt
            · exact ht u huT
            · exact hgrown s₁ hgrow hlt t htT u huT
          obtain ⟨n₁, hn₁⟩ := htu
          cases ho : unifyAt .checked n₁ s₁ t u with
          | broken e => rw [ho] at hn₁; exact hn₁.elim
          | unanswered => rw [ho] at hn₁; exact hn₁.elim
          | clash =>
              refine ⟨n₁, ?_⟩
              rw [unifyAll, ho]
              trivial
          | unified s₂ =>
              have hgrow₂ := unifyAt_grows hT n₁ s₁ s₂ t u
                (hgrow.over hs).valueClosed htT huT ho
              obtain ⟨n₂, hn₂⟩ := ih us s₂ (hgrow.trans hgrow₂)
                (fun t ht => hts t (List.mem_cons_of_mem _ ht))
                (fun u hu => hus u (List.mem_cons_of_mem _ hu))
              -- the larger of the two depths serves the head and the tail
              have hsome : unifyAt .checked n₁ s₁ t u ≠ .unanswered :=
                IsDecided.ne_unanswered hn₁
              have hhead :=
                unifyAt_mono (Nat.le_max_left n₁ n₂) s₁ t u hsome
              have htail := unifyAll_congr (fun s t u =>
                unifyAt_mono (Nat.le_max_right n₁ n₂) s t u) ts us s₂
                (IsDecided.ne_unanswered hn₂)
              refine ⟨max n₁ n₂, ?_⟩
              rw [unifyAll, hhead, ho]
              show (unifyAll _ s₂ ts us).IsDecided
              rw [htail]
              exact hn₂

/-- Two terms are decided if the items of their ends are. -/
theorem Acyclic.answers_of_items (hs : s.Acyclic) {u v u' v' : Term}
    (hu : s.walk u = .ok u') (hv : s.walk v = .ok v')
    (hitems : ∃ n, ∀ m m' ts us, u' = .composite m ts →
      v' = .composite m' us →
      (unifyAll (unifyAt .checked n) s ts us).IsDecided) :
    s.Answers u v := by
  obtain ⟨n, hn⟩ := hitems
  refine ⟨n + 1, ?_⟩
  rcases unifyAt_succ .checked n s u v with
    ⟨e, -, he⟩ | ⟨u₁, v₁, hu₁, hv₁, hmeet⟩
  · rcases he with he | he
    · rw [hu] at he
      exact nomatch he
    · rw [hv] at he
      exact nomatch he
  · rw [hu] at hu₁
    rw [hv] at hv₁
    cases hu₁
    cases hv₁
    exact hmeet.decided hs (isEnd_of_walk hu) (isEnd_of_walk hv) hn

/-- **TERMINATION**, over the terms that come up. -/
theorem Acyclic.answers_of_mem {T : Finset Term}
    (hT : ItemClosed (· ∈ T)) (hs : s.Acyclic) (hover : s.Over (· ∈ T))
    (u v : Term) (hu : u ∈ T) (hv : v ∈ T) : s.Answers u v := by
  induction hk : (s.openVars T).card using Nat.strong_induction_on
    generalizing s u v with
  | _ k ih =>
      have hgrown : ∀ s', Grows .checked (· ∈ T) s s' →
          (s'.openVars T).card < (s.openVars T).card →
          ∀ u ∈ T, ∀ v ∈ T, s'.Answers u v := by
        intro s' hgrow hlt u hu v hv
        exact ih _ (hk ▸ hlt) (hgrow.acyclic hs) (hgrow.over hover) u v hu
          hv rfl
      -- below, no binding was made, and the terms get smaller
      induction u using hs.induct generalizing v with
      | bound x t hx iht =>
          obtain ⟨w, hw⟩ := hs.walk t
          exact (iht v (hover x.id t hx) hv).of_walk ((walk_bound hx).mpr hw)
            hw
      | unbound x hx =>
          obtain ⟨v', hv'⟩ := hs.walk v
          exact hs.answers_of_items (walk_of_isEnd (isEnd_var hx)) hv'
            ⟨0, fun _ _ _ _ h => nomatch h⟩
      | atom a =>
          obtain ⟨v', hv'⟩ := hs.walk v
          exact hs.answers_of_items (walk_of_isEnd (isEnd_atom a)) hv'
            ⟨0, fun _ _ _ _ h => nomatch h⟩
      | composite m ts ihts =>
          obtain ⟨v', hv'⟩ := hs.walk v
          refine hs.answers_of_items (walk_of_isEnd (isEnd_composite m ts))
            hv' ?_
          cases v' with
          | var y => exact ⟨0, fun _ _ _ _ _ h => nomatch h⟩
          | atom b => exact ⟨0, fun _ _ _ _ _ h => nomatch h⟩
          | composite n us =>
              have hvT := hover.walk hv hv'
              obtain ⟨d, hd⟩ := exists_unifyAll_decided hT hover hgrown ts
                us s (.refl s)
                (fun t ht => ⟨hT m ts hu t ht,
                  fun v hv => ihts t ht v (hT m ts hu t ht) hv⟩)
                (hT n us hvT)
              refine ⟨d, ?_⟩
              intro _ _ _ _ hu hv
              cases hu
              cases hv
              exact hd

/-- **CHECKED UNIFICATION ALWAYS ANSWERS**, without an error. -/
theorem Acyclic.unify_decided (hs : s.Acyclic) (u v : Term) :
    (s.unify .checked u v).IsDecided := by
  obtain ⟨n, hn⟩ := hs.answers_of_mem (itemClosed_allParts s u v)
    (fun i t hi => mem_allParts (.inr (.inr ⟨i, hi⟩))) u v
    (mem_allParts (.inl rfl)) (mem_allParts (.inr (.inl rfl)))
  rw [unify_eq_of_answered (IsDecided.ne_unanswered hn)]
  exact hn

/-- **AND STAYS ACYCLIC.** -/
theorem Acyclic.unify (hs : s.Acyclic) {s' : Substitution} {u v : Term}
    (h : s.unify .checked u v = .unified s') : s'.Acyclic :=
  (grows_of_unify h).acyclic hs

theorem Acyclic.unify_cases (hs : s.Acyclic) (u v : Term) :
    s.unify .checked u v = .clash ∨
      ∃ s', s.unify .checked u v = .unified s' := by
  have hdecided := hs.unify_decided u v
  cases ho : s.unify .checked u v with
  | unified s' => exact .inr ⟨s', rfl⟩
  | clash => exact .inl rfl
  | broken e => rw [ho] at hdecided; exact hdecided.elim
  | unanswered => rw [ho] at hdecided; exact hdecided.elim

/-- The substitution comes from the empty one by unifications with allowed
    settings. -/
inductive Built (allowed : Config → Prop) : Substitution → Prop where
  | empty : Built allowed .empty
  | unify {s s' : Substitution} {config : Config} {u v : Term} :
      Built allowed s → allowed config →
      s.unify config u v = .unified s' → Built allowed s'

theorem Built.acyclic (h : Built (· = .checked) s) : s.Acyclic := by
  induction h with
  | empty => exact acyclic_empty
  | unify _ hconfig hunify ih =>
      subst hconfig
      exact ih.unify hunify

/-- **CHECKED UNIFICATION IS TOTAL AND KEEPS ACYCLICITY.**  From an acyclic
    substitution the recursion comes to its end, whatever depth is allowed
    beyond that; it ends with a clash or with an acyclic substitution, never
    with an error.  So all that is built by checked unifications is
    acyclic. -/
theorem unify_checked_total :
    (∀ s : Substitution, s.Acyclic → ∀ u v : Term,
      (∃ n, ∀ m ≥ n,
        unifyAt .checked m s u v = s.unify .checked u v) ∧
      (s.unify .checked u v = .clash ∨
        ∃ s', s.unify .checked u v = .unified s' ∧ s'.Acyclic)) ∧
    ∀ s, Built (· = .checked) s → s.Acyclic := by
  refine ⟨?_, fun s hs => hs.acyclic⟩
  intro s hs u v
  have hdecided := hs.unify_decided u v
  constructor
  · have hunify := unify_eq_unifyAt .checked s u v
    refine ⟨max ampleDepth (s.depthBound u v), ?_⟩
    intro m hm
    rw [hunify] at hdecided ⊢
    exact unifyAt_mono hm s u v (IsDecided.ne_unanswered hdecided)
  · cases h : s.unify .checked u v with
    | unified s' => exact .inr ⟨s', rfl, hs.unify h⟩
    | clash => exact .inl rfl
    | broken e => rw [h] at hdecided; exact hdecided.elim
    | unanswered => rw [h] at hdecided; exact hdecided.elim

/-- With `y` bound to `(x)`, no checked unification of `x` and `y` gives `x` a
    value that contains it. -/
theorem unify_checked_total_cycle :
    let s : Substitution := ⟨(∅ : Std.ExtTreeMap Nat Entry).insert 1
      ⟨"y", .composite none [.var ⟨0, "x"⟩]⟩⟩
    Built (· = .checked) s ∧ s.Acyclic ∧
    (∃ n, ∀ m ≥ n, unifyAt .checked m s (.var ⟨0, "x"⟩) (.var ⟨1, "y"⟩)
      = s.unify .checked (.var ⟨0, "x"⟩) (.var ⟨1, "y"⟩)) ∧
    (s.unify .checked (.var ⟨0, "x"⟩) (.var ⟨1, "y"⟩) = .clash ∨
      ∃ s', s.unify .checked (.var ⟨0, "x"⟩) (.var ⟨1, "y"⟩) = .unified s'
        ∧ s'.Acyclic) := by
  intro s
  have hbuilt : Built (· = .checked) s :=
    .unify (u := .var ⟨1, "y"⟩) (v := .composite none [.var ⟨0, "x"⟩])
      .empty rfl rfl
  have hacyclic := unify_checked_total.2 s hbuilt
  exact ⟨hbuilt, hacyclic, unify_checked_total.1 s hacyclic _ _⟩

end Substitution

end LogicSearch
