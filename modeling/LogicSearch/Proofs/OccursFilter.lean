import LogicSearch.Proofs.Freshness
import LogicSearch.Proofs.Settings
import LogicSearch.Proofs.UnbrokenSearch
import Mathlib.SetTheory.Cardinal.SchroederBernstein

/-! # The occurs check removes infinite answers only

    A search with the occurs check and one without it go through different
    branches in different order.  Still they answer the same states with
    acyclic substitutions, equally often (`Program.occurs_check_filters`),
    and with the check there are no other answers.

    Bindings are never undone (`Derivation.extends_start`), so on the way to
    an acyclic answer all substitutions are acyclic, and there the settings
    do not matter: every derivation of an acyclic answer is one under the
    other settings, too (`Derivation.reconfigure`). -/

namespace LogicSearch

/-- The state with other settings. -/
def State.withConfig (st : State) (config : Config) : State :=
  { st with config }

namespace State

variable {st a : State}

theorem eq_of_withConfig {c : Config} (h : st.withConfig c = a.withConfig c)
    (hconfig : st.config = a.config) : st = a := by
  obtain ⟨s, k, xs, d⟩ := st
  obtain ⟨s', k', xs', d'⟩ := a
  cases hconfig
  cases h
  rfl

/-- What comes before an acyclic state is acyclic. -/
theorem Extends.acyclic (h : st.Extends a) (ha : a.substitution.Acyclic) :
    st.substitution.Acyclic := by
  refine ha.of_mono fun i t hi => ?_
  obtain ⟨b, hb, rfl, rfl⟩ := Substitution.exists_mem_bindings hi
  exact Substitution.get?_of_mem_bindings (h.bindings b hb)

end State

variable {sg : Signature} {P : Program sg} {n : Nat} {scope : Scope n}
  {frame : Frame} {st a : State}

namespace Derivation

/-- Without host goals the answer has all that the first state has. -/
theorem extends_start {g : Goal sg n}
    (d : Derivation P.hostless g scope frame st a) : st.Extends a := by
  induction d with
  | eq hu => exact State.extends_unify hu
  | succeed => exact .refl _
  | conj _ _ ihd ihe => exact ihd.trans ihe
  | left _ ih => exact ih
  | right _ ih => exact ih
  | fresh _ ih => exact (State.extends_fresh _ _).trans ih
  | letTerm _ ih => exact ih
  | delay _ ih => exact ih
  | always => exact .refl _
  | again _ ih => exact ih
  | call _ ih => exact ih
  | host h _ => exact nomatch h

/-- **A DERIVATION UNDER OTHER SETTINGS**, if its answer is acyclic. -/
def reconfigure (c : Config) {n : Nat} {g : Goal sg n} {scope : Scope n}
    {frame : Frame} {st a : State} :
    Derivation P.hostless g scope frame st a → a.substitution.Acyclic →
      Derivation P.hostless g scope frame (st.withConfig c) (a.withConfig c)
  | .eq hu, ha => .eq (ha.unify_config c hu)
  | .succeed, _ => .succeed
  | .conj d e, ha =>
      .conj (d.reconfigure c (e.extends_start.acyclic ha)) (e.reconfigure c ha)
  | .left d, ha => .left (d.reconfigure c ha)
  | .right d, ha => .right (d.reconfigure c ha)
  | .fresh d, ha => .fresh (d.reconfigure c ha)
  | .letTerm d, ha => .letTerm (d.reconfigure c ha)
  | .delay d, ha => .delay (d.reconfigure c ha)
  | .always, _ => .always
  | .again d, ha => .again (d.reconfigure c ha)
  | .call d, ha => .call (d.reconfigure c ha)
  | .host h _, _ => nomatch h

/-- A derivation of an equation is its unification. -/
theorem exists_eq {u v : Expr n}
    (d : Derivation P (.eq u v) scope frame st a) :
    ∃ s, ∃ (h : st.unify (u.eval scope frame) (v.eval scope frame)
      = .unified s) (ha : st.withSubstitution s = a), d = ha ▸ .eq h := by
  cases d with
  | eq h => exact ⟨_, h, rfl, rfl⟩

theorem eq_unique {u v : Expr n}
    (d e : Derivation P (.eq u v) scope frame st a) : d = e := by
  obtain ⟨s, h, rfl, rfl⟩ := d.exists_eq
  obtain ⟨s', h', ha, rfl⟩ := e.exists_eq
  cases h.symm.trans h'
  rfl

/-- Different derivations stay different. -/
theorem reconfigure_injective (c : Config) {g : Goal sg n}
    {d e : Derivation P.hostless g scope frame st a}
    (ha : a.substitution.Acyclic)
    (h : d.reconfigure c ha = e.reconfigure c ha) : d = e := by
  induction d with
  | eq _ => exact eq_unique _ _
  | succeed => cases e; rfl
  | conj d d' ih ih' =>
      cases e with
      | conj e e' =>
          -- the states in between differ in their settings only, and these
          -- are those of the state in which both start
          obtain ⟨hb, hpair⟩ := Sigma.mk.inj (congrArg conjEquiv.symm h)
          have hstates := State.eq_of_withConfig hb
            (d.extends_start.config.trans e.extends_start.config.symm)
          subst hstates
          obtain ⟨hd, hd'⟩ := Prod.mk.inj (eq_of_heq hpair)
          rw [ih _ hd, ih' _ hd']
  | left d ih =>
      cases e with
      | left e => exact congrArg left (ih ha (left.inj h))
      | right e => exact nomatch h
  | right d ih =>
      cases e with
      | left e => exact nomatch h
      | right e => exact congrArg right (ih ha (right.inj h))
  | fresh d ih =>
      cases e with
      | fresh e => exact congrArg fresh (ih ha (fresh.inj h))
  | letTerm d ih =>
      cases e with
      | letTerm e => exact congrArg letTerm (ih ha (letTerm.inj h))
  | delay d ih =>
      cases e with
      | delay e => exact congrArg delay (ih ha (delay.inj h))
  | always =>
      cases e with
      | always => rfl
      | again e => exact nomatch h
  | again d ih =>
      cases e with
      | always => exact nomatch h
      | again e => exact congrArg again (ih ha (again.inj h))
  | call d ih =>
      cases e with
      | call e => exact congrArg call (ih ha (call.inj h))
  | host h _ => exact nomatch h

/-- **WITH AN ACYCLIC ANSWER THERE ARE AS MANY DERIVATIONS UNDER ALL
    SETTINGS.** -/
theorem exists_equiv_withConfig (c c' : Config) {g : Goal sg n}
    (ha : a.substitution.Acyclic) :
    Nonempty (
      Derivation P.hostless g scope frame (st.withConfig c) (a.withConfig c) ≃
      Derivation P.hostless g scope frame (st.withConfig c')
        (a.withConfig c')) :=
  Function.Embedding.antisymm
    ⟨fun d => d.reconfigure c' ha, fun _ _ h => reconfigure_injective c' ha h⟩
    ⟨fun d => d.reconfigure c ha, fun _ _ h => reconfigure_injective c ha h⟩

end Derivation

/-- Every unification that the search for the goal meets has an answer. -/
structure Program.Answers (P : Program sg) (g : Goal sg 0) (st : State) :
    Prop where
  start : P.run g st ≠ .error .unanswered
  steps {s t : Search sg} : P.run g st = .ok s → s.Leads P.start t →
    t.advance P.start ≠ .error .unanswered

/-- Then the search is never given up, from an intact state. -/
theorem Program.Answers.exists_run (hP : P.HostFree) {g : Goal sg 0}
    (hg : g.HostFree) (hst : st.Intact) (h : P.Answers g st) :
    ∃ s, P.run g st = .ok s ∧ s.NeverAborts P.start := by
  obtain ⟨hstart, hsteps⟩ := P.abort_eq_unanswered hP hg hst
  cases hs : P.run g st with
  | error e => exact absurd (hstart e hs ▸ hs) h.start
  | ok s =>
      refine ⟨s, rfl, ?_⟩
      intro t ht
      cases hm : t.advance P.start with
      | error e => exact absurd (hsteps s t e hs ht hm ▸ hm) (h.steps hs ht)
      | ok m => exact ⟨m, rfl⟩

theorem Program.answers_of_neverAborts {g : Goal sg 0} {s : Search sg}
    (hrun : P.run g st = .ok s) (hs : s.NeverAborts P.start) :
    P.Answers g st where
  start h := nomatch hrun.symm.trans h
  steps {s' t} hs' ht h := by
    cases hrun.symm.trans hs'
    obtain ⟨m, hm⟩ := hs t ht
    exact nomatch hm.symm.trans h

theorem State.kept_config (c : Config) :
    State.Kept (·.config = c) fun _ => True where
  fresh _ h := h
  unify h _ := h
  broken _ _ := trivial
  unanswered _ _ := trivial

/-- Answers have the settings of the state in which the search starts. -/
theorem Program.config_of_nth (hP : P.HostFree) {g : Goal sg 0}
    (hg : g.HostFree) {s : Search sg} (hs : P.run g st = .ok s) {k : Nat}
    {b : State} (hb : s.Nth P.start k b) : b.config = st.config :=
  ((Goal.apply_kept (State.kept_config st.config) hP hg rfl).ok hs).nth
    (P.start_kept (State.kept_config st.config) hP) hb

/-- **THE OCCURS CHECK REMOVES INFINITE ANSWERS ONLY.**  From a state with an
    acyclic substitution, if all unifications of the search without the
    check have answers, then both searches run without being given up, they
    answer every state with an acyclic substitution equally often, up to the
    settings in it, and all answers of the search with the check have
    acyclic substitutions. -/
theorem Program.occurs_check_filters (hP : P.HostFree) {g : Goal sg 0}
    (hg : g.HostFree) (hst : st.substitution.Acyclic)
    (hanswers : P.Answers g (st.withConfig .unchecked)) :
    ∃ s s', P.run g (st.withConfig .unchecked) = .ok s ∧
      P.run g (st.withConfig .checked) = .ok s' ∧
      s.NeverAborts P.start ∧ s'.NeverAborts P.start ∧
      (∀ a : State, a.substitution.Acyclic → Nonempty (
        {k // s.Nth P.start k (a.withConfig .unchecked)} ≃
        {k // s'.Nth P.start k (a.withConfig .checked)})) ∧
      (∀ k b, s.Nth P.start k b → b.config = .unchecked) ∧
      ∀ k b, s'.Nth P.start k b →
        b.config = .checked ∧ b.substitution.Acyclic := by
  have hintact : (st.withConfig .unchecked).Intact :=
    State.intact_of_acyclic hst
  obtain ⟨s, hs, hnever⟩ := hanswers.exists_run hP hg hintact
  have hchecked : (st.withConfig .checked).Checked := ⟨rfl, hst⟩
  obtain ⟨s', hs', hevery⟩ : ∃ s', P.run g (st.withConfig .checked) = .ok s'
      ∧ Search.Checked s' := Goal.apply_checked hP hg hchecked
  have hnever' := hevery.neverAborts hP
  refine ⟨s, s', hs, hs', hnever, hnever', ?_, ?_, ?_⟩
  · intro a ha
    obtain ⟨e⟩ := P.nth_equiv_derivations hP hg hs hnever
      (a.withConfig .unchecked)
    obtain ⟨e'⟩ := P.nth_equiv_derivations hP hg hs' hnever'
      (a.withConfig .checked)
    obtain ⟨d⟩ : Nonempty (
        P.hostless.Derives g (st.withConfig .unchecked)
          (a.withConfig .unchecked) ≃
        P.hostless.Derives g (st.withConfig .checked)
          (a.withConfig .checked)) :=
      Derivation.exists_equiv_withConfig .unchecked .checked ha
    exact ⟨(e.trans d).trans e'.symm⟩
  · intro k b hb
    exact P.config_of_nth hP hg hs hb
  · intro k b hb
    have hb' : b.Checked :=
      Stream.Every.nth (P.start_kept State.kept_checked hP) hevery hb
    exact ⟨hb'.config, hb'.acyclic⟩

/-- `x = (x)` or `x = ()`, and then answers without end.  Without the check
    the infinite answer comes up, too; the finite one comes equally often. -/
theorem Program.occurs_check_filters_loop :
    let st : State := .initial {}
    let g : Goal ⟨Unit, fun _ => 1, Empty⟩ 0 :=
      .fresh "x" (.conj
        (.disj (.eq (.bound 0) (.composite 3 [.bound 0]))
          (.eq (.bound 0) (.composite 4 []))) .always)
    st.substitution.Acyclic ∧
    Program.unary.Answers g (st.withConfig .unchecked) ∧
    ∃ s s', Program.unary.run g (st.withConfig .unchecked) = .ok s ∧
      Program.unary.run g (st.withConfig .checked) = .ok s' ∧
      (∃ k b, s.Nth Program.unary.start k b ∧ ¬ b.substitution.Acyclic) ∧
      (∀ a : State, a.substitution.Acyclic → Nonempty (
        {k // s.Nth Program.unary.start k (a.withConfig .unchecked)} ≃
        {k // s'.Nth Program.unary.start k (a.withConfig .checked)})) ∧
      ∀ k b, s'.Nth Program.unary.start k b → b.substitution.Acyclic := by
  intro st g
  have hg : g.HostFree := ⟨⟨trivial, trivial⟩, trivial⟩
  have hst : st.substitution.Acyclic := Substitution.acyclic_empty
  -- the work that waits is always a round of `always`
  let q : Closure ⟨Unit, fun _ => 1, Empty⟩ → Prop := fun c =>
    ∃ n scope frame, c = ⟨n, .always, scope, frame⟩ ∨
      c = ⟨n, .disj .succeed .always, scope, frame⟩
  have hround : ∀ (c : Closure ⟨Unit, fun _ => 1, Empty⟩) (b : State),
      q c → True → ∃ t, Program.unary.start c b = .ok t ∧
        t.Every (fun _ => True) q := by
    rintro c b ⟨n, scope, frame, rfl | rfl⟩ -
    · exact ⟨_, rfl, ⟨n, scope, frame, .inr rfl⟩, trivial⟩
    · exact ⟨_, rfl, Stream.every_single trivial,
        ⟨n, scope, frame, .inr rfl⟩, trivial⟩
  obtain ⟨s, hs, hevery, hcyclic⟩ :
      ∃ s, Program.unary.run g (st.withConfig .unchecked) = .ok s ∧
        s.Every (fun _ => True) q ∧
        ∃ k b, s.Nth Program.unary.start k b ∧
          ¬ b.substitution.Acyclic := by
    refine ⟨_, rfl, ⟨⟨Stream.every_single trivial,
      Stream.every_single trivial⟩, _, _, _, .inl rfl⟩, 0, _,
      .working rfl (.pending rfl (.working rfl (.pending rfl
        (.here rfl)))), ?_⟩
    intro hacyclic
    -- `x` refers to itself
    exact hacyclic 0 0
      ⟨_, rfl, ⟨0, "x"⟩, List.mem_singleton_self _, rfl⟩ (.refl 0)
  have hanswers : Program.unary.Answers g (st.withConfig .unchecked) :=
    Program.answers_of_neverAborts hs (hevery.neverAborts hround)
  obtain ⟨s₁, s', hs₁, hs', -, -, hequiv, -, hchecked⟩ :=
    Program.occurs_check_filters unary_hostFree hg hst hanswers
  cases hs.symm.trans hs₁
  exact ⟨hst, hanswers, s, s', hs, hs', hcyclic, hequiv,
    fun k b hb => (hchecked k b hb).2⟩

end LogicSearch
