import LogicSearch.Proofs.EquationOrder
import LogicSearch.Proofs.Recursion
import LogicSearch.Proofs.Regrouping
import LogicSearch.Proofs.UnbrokenSearch

/-! # An equation of composites is the conjunction of those of their items

    Composites of one length are unified item by item, each item under the
    bindings of those before it, and that is also what a conjunction of
    equations does to its state (`finishes_equations`).  So both have the
    same answer, or none.

    A shared composite is not looked into.  Its items coincide, and terms
    that coincide need no binding, wherever their unification has an answer
    (`unify_coincide`); it has one unless they are infinite and stand for a
    composite that is not known to be shared (`unify_coincide_marked`). -/

namespace LogicSearch

/-! ## Equations one after the other -/

namespace Substitution

variable {config : Config} {s : Substitution}

/-- Going through two lists is going through the pairs of their items. -/
theorem unifyAll_eq_unifyEquations (config : Config) (ts : List Term) :
    ∀ (us : List Term) (s : Substitution),
      unifyAll (unify config) s ts us
        = unifyEquations config s (ts.zip us) := by
  induction ts with
  | nil => intro us s; rfl
  | cons t ts ih =>
      intro us s
      cases us with
      | nil => rfl
      | cons u us =>
          rw [unifyAll, List.zip_cons_cons, unifyEquations]
          cases s.unify config t u with
          | unified s' => exact ih us s'
          | clash => rfl
          | broken e => rfl
          | unanswered => rfl

/-! ## Terms that coincide -/

/-- Terms that coincide have ends that coincide. -/
theorem ChainsEnd.walk_coincide (hs : s.ChainsEnd) {t u : Term}
    (h : t.coincide u = true) : ∃ t' u', s.walk t = .ok t' ∧
      s.walk u = .ok u' ∧ t'.coincide u' = true := by
  cases t with
  | var x =>
      cases u with
      | var y =>
          have hid : x.id = y.id := beq_iff_eq.mp h
          cases hx : s.get? x with
          | none =>
              have hy : s.get? y = none := by rw [← get?_congr hid, hx]
              exact ⟨_, _, walk_of_isEnd (isEnd_var hx),
                walk_of_isEnd (isEnd_var hy), h⟩
          | some v =>
              have hy : s.get? y = some v := by rw [← get?_congr hid, hx]
              obtain ⟨w, hw⟩ := hs v
              exact ⟨w, w, (walk_bound hx).mpr hw, (walk_bound hy).mpr hw,
                w.coincide_self⟩
      | atom b => cases h
      | composite n us => cases h
  | atom a =>
      cases u with
      | var y => cases h
      | atom b => exact ⟨_, _, rfl, rfl, h⟩
      | composite n us => cases h
  | composite m ts =>
      cases u with
      | var y => cases h
      | atom b => cases h
      | composite n us => exact ⟨_, _, rfl, rfl, h⟩

end Substitution

namespace Term

theorem coincideAll_length {ts us : List Term}
    (h : coincideAll ts us = true) : ts.length = us.length := by
  induction ts generalizing us with
  | nil =>
      cases us with
      | nil => rfl
      | cons u us => cases h
  | cons t ts ih =>
      cases us with
      | nil => cases h
      | cons u us =>
          rw [coincideAll, Bool.and_eq_true] at h
          rw [List.length_cons, List.length_cons, ih h.2]

/-- Terms that coincide are shared, unless they are composites without a
    mark. -/
theorem shared_of_coincide {t u : Term} (h : t.coincide u = true) :
    t.shared u = true ∨ ∃ ts us, t = .composite none ts ∧
      u = .composite none us ∧ coincideAll ts us = true := by
  cases t with
  | var x =>
      cases u with
      | var y => exact .inl h
      | atom b => cases h
      | composite n us => cases h
  | atom a =>
      cases u with
      | var y => cases h
      | atom b => exact .inl h
      | composite n us => cases h
  | composite m ts =>
      cases u with
      | var y => cases h
      | atom b => cases h
      | composite n us =>
          rw [coincide, Bool.and_eq_true, beq_iff_eq] at h
          obtain ⟨rfl, hts⟩ := h
          cases m with
          | none => exact .inr ⟨ts, us, rfl, rfl, hts⟩
          | some m => exact .inl (shared_composite.mpr ⟨rfl, rfl, hts⟩)

end Term

namespace Substitution

variable {config : Config} {s : Substitution}

/-- The outcome is that nothing has to be bound, if there is one. -/
def AddsNothing (s : Substitution) (o : Outcome) : Prop :=
  o = .unified s ∨ o = .unanswered

theorem addsNothing_unifyAll {f : Substitution → Term → Term → Outcome}
    (hf : ∀ t u, t.coincide u = true → s.AddsNothing (f s t u))
    (ts : List Term) : ∀ us, Term.coincideAll ts us = true →
      s.AddsNothing (unifyAll f s ts us) := by
  induction ts with
  | nil => intro us _; exact .inl rfl
  | cons t ts ih =>
      intro us h
      cases us with
      | nil => cases h
      | cons u us =>
          rw [Term.coincideAll, Bool.and_eq_true] at h
          rw [unifyAll]
          rcases hf t u h.1 with htu | htu
          · rw [htu]
            exact ih us h.2
          · rw [htu]
            exact .inr rfl

theorem ChainsEnd.unifyAt_coincide (hs : s.ChainsEnd) (config : Config)
    (n : Nat) : ∀ t u, t.coincide u = true →
      s.AddsNothing (unifyAt config n s t u) := by
  induction n with
  | zero => intro t u _; exact .inr rfl
  | succ n ih =>
      intro t u h
      obtain ⟨t', u', ht, hu, h'⟩ := hs.walk_coincide h
      rw [unifyAt, ht, hu]
      dsimp only
      unfold unifyEnds
      by_cases hshared : t'.shared u' = true
      · rw [if_pos hshared]
        exact .inl rfl
      · rw [if_neg hshared]
        rcases Term.shared_of_coincide h' with h' | ⟨ts, us, rfl, rfl, hts⟩
        · exact absurd h' hshared
        · dsimp only
          rw [if_pos (Term.coincideAll_length hts)]
          exact addsNothing_unifyAll ih ts us hts

/-- **TERMS THAT COINCIDE NEED NO BINDING.** -/
theorem ChainsEnd.unify_coincide (hs : s.ChainsEnd) (config : Config)
    {t u : Term} (h : t.coincide u = true) :
    s.AddsNothing (s.unify config t u) := by
  rw [unify_eq_unifyAt]
  exact hs.unifyAt_coincide config _ t u h

/-- And they unify for sure if they do not stand for a composite without a
    mark. -/
theorem ChainsEnd.unify_coincide_marked (hs : s.ChainsEnd)
    (config : Config) {t u : Term} (h : t.coincide u = true)
    (hmarked : ∀ m ts, s.walk t = .ok (.composite m ts) → m.isSome) :
    s.unify config t u = .unified s := by
  obtain ⟨t', u', ht, hu, h'⟩ := hs.walk_coincide h
  rw [unify_of_walk ht hu]
  unfold unifyEnds
  refine if_pos ?_
  rcases Term.shared_of_coincide h' with h' | ⟨ts, us, rfl, -, -⟩
  · exact h'
  · cases hmarked none ts ht

/-- The items of composites that coincide are equations that add nothing, -/
theorem ChainsEnd.unifyEquations_coincide (hs : s.ChainsEnd)
    (config : Config) {ts us : List Term}
    (h : Term.coincideAll ts us = true) :
    s.AddsNothing (unifyEquations config s (ts.zip us)) := by
  rw [← unifyAll_eq_unifyEquations]
  exact addsNothing_unifyAll (fun t u => hs.unify_coincide config) ts us h

/-- and under the same condition they have an answer. -/
theorem ChainsEnd.unifyEquations_marked (hs : s.ChainsEnd)
    (config : Config) {ts : List Term} : ∀ {us : List Term},
      Term.coincideAll ts us = true →
      (∀ t ∈ ts, ∀ m vs, s.walk t = .ok (.composite m vs) → m.isSome) →
      unifyEquations config s (ts.zip us) = .unified s := by
  induction ts with
  | nil => intro us _ _; rfl
  | cons t ts ih =>
      intro us h hmarked
      cases us with
      | nil => cases h
      | cons u us =>
          rw [Term.coincideAll, Bool.and_eq_true] at h
          rw [List.zip_cons_cons, unifyEquations,
            hs.unify_coincide_marked config h.1
              (hmarked t (List.mem_cons_self ..))]
          exact ih h.2 fun w hw => hmarked w (List.mem_cons_of_mem _ hw)

/-! ## Two composites -/

/-- Composites are unified item by item, unless they are shared. -/
theorem unify_composites (config : Config) (s : Substitution)
    (m n : Option Mark) (ts us : List Term) :
    s.unify config (.composite m ts) (.composite n us)
      = if (Term.composite m ts).shared (.composite n us) then .unified s
        else if ts.length = us.length then
          unifyEquations config s (ts.zip us)
        else .clash := by
  rw [unify_of_isEnd (isEnd_composite m ts) (isEnd_composite n us),
    unifyEnds, unifyAll_eq_unifyEquations]

/-- Shared composites have one length. -/
theorem length_of_shared {m n : Option Mark} {ts us : List Term}
    (h : (Term.composite m ts).shared (.composite n us) = true) :
    ts.length = us.length :=
  Term.coincideAll_length (Term.shared_composite.mp h).2.2

end Substitution

/-! ## Searching for equations -/

/-- The states that a unification in the state leads to, if it has an
    answer. -/
def Outcome.states (st : State) : Outcome → Option (List State)
  | .unified s => some [st.withSubstitution s]
  | .clash => some []
  | .broken _ => none
  | .unanswered => none

theorem Outcome.length_states_le {st : State} {o : Outcome}
    {as : List State} (h : o.states st = some as) : as.length ≤ 1 := by
  cases o with
  | unified s => cases h; exact Nat.le_refl 1
  | clash => cases h; exact Nat.zero_le 1
  | broken e => cases h
  | unanswered => cases h

namespace State

variable {st : State}

theorem Arises.intact (h : st.Arises) : st.Intact := by
  induction h with
  | initial config => exact intact_initial config
  | fresh label _ ih => exact ⟨ih.chains, ih.acyclic⟩
  | unify _ hs ih => exact ih.unify hs

/-- In an intact state equations have states, or no answer. -/
theorem Intact.states_unifyEquations (es : List (Term × Term)) :
    ∀ {st : State}, st.Intact →
      Substitution.unifyEquations st.config st.substitution es
        ≠ .unanswered →
      ∃ as, (Substitution.unifyEquations st.config st.substitution
        es).states st = some as := by
  induction es with
  | nil => intro st _ _; exact ⟨_, rfl⟩
  | cons e es ih =>
      intro st hst h
      have hbroken := hst.unify_ne_broken e.1 e.2
      have hintact : ∀ s, st.unify e.1 e.2 = .unified s →
          (st.withSubstitution s).Intact := fun s => hst.unify
      rw [Substitution.unifyEquations] at h ⊢
      rw [State.unify] at hbroken hintact
      cases hs : st.substitution.unify st.config e.1 e.2 with
      | unified s =>
          rw [hs] at h
          exact ih (hintact s hs) h
      | clash => exact ⟨[], rfl⟩
      | broken e' => exact absurd hs (hbroken e')
      | unanswered => rw [hs] at h; exact absurd rfl h

end State

namespace Goal

variable {sg : Signature} {P : Program sg} {n : Nat} {scope : Scope n}
  {frame : Frame}

/-- The equations as goals. -/
def equations (es : List (Term × Term)) : List (Goal sg n) :=
  es.map fun e => .eq (.given e.1) (.given e.2)

theorem finishes_eq {st : State} {u v : Term} {as : List State}
    (h : (st.unify u v).states st = some as) :
    (Goal.eq (.given u) (.given v)).Finishes P scope frame st as := by
  have happly : (Goal.eq (.given u) (.given v)).apply P scope frame st
      = equate st u v := rfl
  rw [equate] at happly
  cases hs : st.unify u v with
  | unified s =>
      rw [hs] at h happly
      cases h
      exact ⟨_, happly, Stream.turn_single _⟩
  | clash =>
      rw [hs] at h happly
      cases h
      exact ⟨_, happly, .done rfl⟩
  | broken e => rw [hs] at h; cases h
  | unanswered => rw [hs] at h; cases h

/-- **A CONJUNCTION OF EQUATIONS** unifies them one after the other. -/
theorem finishes_equations (es : List (Term × Term)) :
    ∀ {st : State} {as : List State},
      (Substitution.unifyEquations st.config st.substitution es).states st
        = some as →
      (conjAll (equations es)).Finishes P scope frame st as := by
  induction es with
  | nil =>
      intro st as h
      cases h
      exact finishes_succeed st
  | cons e es ih =>
      intro st as h
      rw [Substitution.unifyEquations] at h
      cases hs : st.substitution.unify st.config e.1 e.2 with
      | unified s =>
          rw [hs] at h
          have hfirst : (Goal.eq (.given e.1) (.given e.2)).Finishes P scope
              frame st [st.withSubstitution s] :=
            finishes_eq (by rw [State.unify, hs]; rfl)
          have hrest : (conjAll (equations es)).Finishes P scope frame
              (st.withSubstitution s) as := ih h
          have hall := hfirst.conjAll_cons (f := fun _ => as) fun b hb => by
            rw [List.mem_singleton.mp hb]
            exact hrest
          rw [List.flatMap_singleton] at hall
          exact hall
      | clash =>
          rw [hs] at h
          cases h
          have hfirst : (Goal.eq (.given e.1) (.given e.2)).Finishes P scope
              frame st [] := finishes_eq (by rw [State.unify, hs]; rfl)
          exact hfirst.conjAll_cons (f := fun _ => []) fun b hb => by cases hb
      | broken e' => rw [hs] at h; cases h
      | unanswered => rw [hs] at h; cases h

/-- **AN EQUATION OF COMPOSITES IS THE CONJUNCTION OF THOSE OF THEIR ITEMS**,
    in every state that arises from an initial one, cyclic or not.

    - If the lengths are the same and the unifications of the items answer,
      one after the other, both goals finish with the same answer or both
      with none.
    - The composites are left without an answer exactly where the items are,
      unless they are shared.
    - If they are shared, and no item stands for a composite without a mark,
      the items do have an answer, and both goals answer with the state as it
      is.
    - If the lengths differ, the equation finishes without an answer. -/
theorem eq_composites {st : State} (hst : st.Arises) (m k : Option Mark)
    (ts us : List Term) :
    (ts.length = us.length →
      Substitution.unifyEquations st.config st.substitution (ts.zip us)
        ≠ .unanswered →
      ∃ as, as.length ≤ 1 ∧
        (Goal.eq (.given (.composite m ts))
          (.given (.composite k us))).Finishes P scope frame st as ∧
        (conjAll (equations (ts.zip us))).Finishes P scope frame st as) ∧
    (ts.length = us.length →
      (Term.composite m ts).shared (.composite k us) = false →
      (st.unify (.composite m ts) (.composite k us) = .unanswered ↔
        Substitution.unifyEquations st.config st.substitution (ts.zip us)
          = .unanswered)) ∧
    ((Term.composite m ts).shared (.composite k us) = true →
      (∀ t ∈ ts, ∀ l vs,
        st.substitution.walk t = .ok (.composite l vs) → l.isSome) →
      (Goal.eq (.given (.composite m ts))
        (.given (.composite k us))).Finishes P scope frame st [st] ∧
      (conjAll (equations (ts.zip us))).Finishes P scope frame st [st]) ∧
    (ts.length ≠ us.length →
      (Goal.eq (.given (.composite m ts))
        (.given (.composite k us))).Finishes P scope frame st []) := by
  have hchains := hst.intact.chains
  have hunify := Substitution.unify_composites st.config st.substitution m k
    ts us
  refine ⟨?_, ?_, ?_, ?_⟩
  · intro hlen hanswered
    obtain ⟨as, has⟩ := hst.intact.states_unifyEquations (ts.zip us) hanswered
    refine ⟨as, Outcome.length_states_le has, finishes_eq ?_,
      finishes_equations _ has⟩
    rw [State.unify, hunify, if_pos hlen]
    split
    case isTrue hshared =>
      -- nothing has to be bound on the other side, either
      rcases hchains.unifyEquations_coincide st.config
        (Term.shared_composite.mp hshared).2.2 with h | h
      · rw [← h]
        exact has
      · exact absurd h hanswered
    case isFalse => exact has
  · intro hlen hshared
    rw [State.unify, hunify, if_neg (Bool.eq_false_iff.mp hshared),
      if_pos hlen]
  · intro hshared hmarked
    have hitems := hchains.unifyEquations_marked st.config
      (Term.shared_composite.mp hshared).2.2 hmarked
    refine ⟨finishes_eq ?_, finishes_equations _ ?_⟩
    · rw [State.unify, hunify, if_pos hshared]
      rfl
    · rw [hitems]
      rfl
  · intro hlen
    refine finishes_eq ?_
    rw [State.unify, hunify, if_neg hlen, if_neg]
    · rfl
    · exact fun hshared => hlen (Substitution.length_of_shared hshared)

/-- With `x = (x)`, a composite that holds `x` is unified with itself, and a
    pair with another one whose items have to be looked into. -/
theorem eq_composites_cyclic :
    let x : Var := ⟨0, "x"⟩
    let y : Var := ⟨1, "y"⟩
    let loop : Term := .composite (some ⟨1, .outermost⟩) [.var x]
    let st : State := (State.mk ⟨(∅ : Std.ExtTreeMap Nat Entry).insert 0
      ⟨"x", loop⟩⟩ 2 [y, x] {})
    let ts : List Term := [.var x, .var y]
    let us : List Term := [.composite none [.var x], .number 1]
    st.Arises ∧ ¬ st.substitution.Acyclic ∧
    (Goal.eq (.given loop) (.given loop)).Finishes Program.bare .empty
      .outermost st [st] ∧
    (conjAll (equations [(.var x, .var x)])).Finishes Program.bare .empty
      .outermost st [st] ∧
    ∃ as, as.length ≤ 1 ∧
      (Goal.eq (.given (.composite none ts))
        (.given (.composite none us))).Finishes Program.bare .empty
          .outermost st as ∧
      (conjAll (equations (ts.zip us))).Finishes Program.bare .empty
        .outermost st as := by
  intro x y loop st ts us
  have hunify : (((State.initial {}).fresh "x").2.fresh "y").2.unify
      (.var x) loop = .unified st.substitution := rfl
  have hst : st.Arises :=
    .unify (.fresh "y" (.fresh "x" (.initial {}))) hunify
  have hcyclic : ¬ st.substitution.Acyclic := by
    intro h
    exact h 0 0 ⟨_, rfl, x, List.mem_singleton_self x, rfl⟩ (.refl 0)
  have hloop : st.substitution.walk (.var x) = .ok loop := rfl
  have hmarked : ∀ t ∈ [Term.var x], ∀ l vs,
      st.substitution.walk t = .ok (.composite l vs) → l.isSome := by
    intro t ht l vs h
    rw [List.mem_singleton.mp ht, hloop] at h
    dsimp only [loop] at h
    cases h
    rfl
  have hitems : Substitution.unifyEquations st.config st.substitution
      (ts.zip us) ≠ .unanswered := by
    have hanswer : Substitution.unifyEquations st.config st.substitution
      (ts.zip us) = .unified ⟨st.substitution.entries.insert 1
        ⟨"y", .number 1⟩⟩ := rfl
    rw [hanswer]
    intro h
    cases h
  obtain ⟨-, -, hshared, -⟩ := @eq_composites _ Program.bare 0 .empty
    .outermost st hst (some ⟨1, .outermost⟩) (some ⟨1, .outermost⟩) [.var x]
    [.var x]
  obtain ⟨hpairs, -, -, -⟩ := @eq_composites _ Program.bare 0 .empty
    .outermost st hst none none ts us
  obtain ⟨hwhole, heach⟩ := hshared rfl hmarked
  exact ⟨hst, hcyclic, hwhole, heach, hpairs rfl hitems⟩

end Goal

end LogicSearch
