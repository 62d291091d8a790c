import LogicSearch.Proofs.RelatedGoals
import LogicSearch.Proofs.UnbrokenSearch
import LogicSearch.Proofs.UnifyInStep

/-! # Equal states are interchangeable

    Equality of substitutions and of states is correspondence under
    `Correspondence.equality` (`Substitution.equal_iff_corresponds`,
    `State.equal_iff_corresponds`).  Checked states that are equal stay so
    under all that a search does, so they are pulled in step: it does not
    matter which composites are shared, which zero a float is or how a
    variable is labelled.

    The two runs write their literals as different objects.  Equality sees
    that of NaNs only, which are equal to nothing but themselves: a goal that
    writes one comes to different states in two runs
    (`Program.nan_literal_differs`), and all other goals do not
    (`Program.equal_states_interchangeable`). -/

namespace LogicSearch

/-! ## Equal substitutions and states correspond -/

namespace Substitution

variable {s s' : Substitution}

/-- Equal substitutions give a bound variable equal values. -/
theorem exists_of_equal (h : s.equal s' = true) {i : Nat} {t : Term}
    (hi : s.value? i = some t) :
    ∃ u, s'.value? i = some u ∧ t.equal u = true := by
  obtain ⟨b, hmem, rfl, rfl⟩ := exists_mem_bindings hi
  rw [Substitution.equal, Bool.and_eq_true, List.all_eq_true] at h
  have hb := h.2 b hmem
  cases hu : s'.get? b.key with
  | none => rw [hu] at hb; cases hb
  | some u =>
      rw [hu] at hb
      exact ⟨u, hu, hb⟩

/-- **EQUAL SUBSTITUTIONS CORRESPOND**: with equally many bindings, those of
    the first are all. -/
theorem corresponds_of_equal (h : s.equal s' = true) :
    s.Corresponds .equality s' := by
  have hsize : s.size = s'.size := by
    rw [Substitution.equal, Bool.and_eq_true] at h
    exact beq_iff_eq.mp h.1
  have hsub : s.domain ⊆ s'.domain := by
    intro i hi
    obtain ⟨t, ht⟩ := Option.isSome_iff_exists.mp (mem_domain.mp hi)
    obtain ⟨u, hu, -⟩ := exists_of_equal h ht
    rw [mem_domain, hu]
    rfl
  have hdomain : s.domain = s'.domain := by
    refine Finset.eq_of_subset_of_card_le hsub ?_
    rw [card_domain, card_domain, hsize]
  refine ⟨hsize, ?_⟩
  rintro i _ rfl
  cases hi : s.value? i with
  | some t =>
      obtain ⟨u, hu, htu⟩ := exists_of_equal h hi
      rw [hu]
      exact .some (Term.equal_iff_corresponds.mp htu)
  | none =>
      have hnot : i ∉ s'.domain := by
        rw [← hdomain, mem_domain, hi]
        exact Bool.false_ne_true
      rw [mem_domain, Option.not_isSome_iff_eq_none] at hnot
      rw [hnot]
      exact .none

theorem equal_iff_corresponds :
    s.equal s' = true ↔ s.Corresponds .equality s' := by
  constructor
  · exact corresponds_of_equal
  · intro h
    rw [Substitution.equal, Bool.and_eq_true, List.all_eq_true]
    refine ⟨beq_iff_eq.mpr h.size, ?_⟩
    intro b hb
    have hget := get?_of_mem_bindings hb
    rcases h.get?_cases (x := b.key) (y := b.key) rfl with
      ⟨hnone, -⟩ | ⟨t, u, ht, hu, htu⟩
    · rw [hget] at hnone
      cases hnone
    · rw [hget] at ht
      cases ht
      rw [hu]
      exact Term.equal_iff_corresponds.mpr htu

end Substitution

theorem State.equal_iff_corresponds {st st' : State} :
    st.equal st' = true ↔ st.Corresponds .equality st' := by
  rw [State.equal, Bool.and_eq_true, Bool.and_eq_true, Bool.and_eq_true,
    Substitution.equal_iff_corresponds, beq_iff_eq, beq_iff_eq, beq_iff_eq]
  have hminted : st.minted.map (·.id) = st'.minted.map (·.id)
      ↔ List.Forall₂ (fun x y => x.id = y.id) st.minted st'.minted := by
    rw [← List.forall₂_eq_eq_eq, List.forall₂_map_left_iff,
      List.forall₂_map_right_iff]
  rw [hminted]
  constructor
  · rintro ⟨⟨⟨hs, hcounter⟩, hids⟩, hconfig⟩
    exact ⟨hs, hcounter, hids, hconfig⟩
  · intro h
    exact ⟨⟨⟨h.substitution, h.counter⟩, h.minted⟩, h.config⟩

/-! ## Checked states -/

/-- Equal states with the occurs check and acyclic substitutions. -/
structure State.Interchangeable (st st' : State) : Prop where
  equal : st.equal st' = true
  left : st.Checked
  right : st'.Checked

open Correspondence

theorem State.kept_interchangeable :
    equality.Kept State.Interchangeable where
  corresponds h := State.equal_iff_corresponds.mp h.equal
  fresh label label' h :=
    ⟨State.equal_iff_corresponds.mpr
      ((State.equal_iff_corresponds.mp h.equal).fresh label label'),
      h.left.fresh label, h.right.fresh label'⟩
  inStep {st st' u u' v v'} h hu hv := by
    have hcorr := State.equal_iff_corresponds.mp h.equal
    rw [State.unify, State.unify, h.left.config, h.right.config]
    exact unify_corresponds_equality h.left.acyclic h.right.acyclic
      hcorr.substitution (Term.equal_iff_corresponds.mpr hu)
      (Term.equal_iff_corresponds.mpr hv)
  unified h hs hu hu' :=
    ⟨State.equal_iff_corresponds.mpr
      ((State.equal_iff_corresponds.mp h.equal).withSubstitution hs),
      h.left.unify hu, h.right.unify hu'⟩

/-- A goal without host goals is related to itself if its given terms are. -/
theorem Goal.HostFree.related_self {sg : Signature} {R : Term → Term → Prop}
    {n : Nat} {g : Goal sg n} (hg : g.HostFree)
    (h : g.All (fun t => R t t) fun _ => True) : g.Related R g := by
  induction g with
  | eq u v => exact .eq (Expr.related_self u h.1) (Expr.related_self v h.2)
  | succeed => exact .succeed
  | fail => exact .fail
  | conj g g' ih ih' => exact .conj (ih hg.1 h.1) (ih' hg.2 h.2)
  | disj g g' ih ih' => exact .disj (ih hg.1 h.1) (ih' hg.2 h.2)
  | fresh label g ih => exact .fresh label label (ih hg h)
  | letTerm e g ih => exact .letTerm (Expr.related_self e h.1) (ih hg h.2)
  | delay g ih => exact .delay (ih hg h)
  | always => exact .always
  | never => exact .never
  | call site r args fits =>
      exact .call site r fits fits (Expr.relatedAll_self args h)
  | host h => exact hg.elim

theorem Goal.HostFree.related_equality {sg : Signature} {n : Nat}
    {g : Goal sg n} (hg : g.HostFree) :
    g.Related (Term.Corresponds equality) g :=
  hg.related_self (Goal.all_of_forall
    (fun t => Term.equal_iff_corresponds.mp (Term.equal_self t))
    (fun _ => trivial) g)

namespace Substitution

variable {s s' : Substitution}

/-- **EQUAL ACYCLIC SUBSTITUTIONS ANSWER ALIKE**: equal terms clash in both
    or unify in both, with equal results; they have equal full values; and
    the occurs check finds the same in them. -/
theorem Acyclic.interchangeable (hs : s.Acyclic) (hs' : s'.Acyclic)
    (h : s.equal s' = true) {u u' v v' : Term} (hu : u.equal u' = true)
    (hv : v.equal v' = true) {x x' : Var} (hx : x.same x' = true) :
    ((s.unify .checked u v = .clash ∧ s'.unify .checked u' v' = .clash) ∨
      ∃ r r', s.unify .checked u v = .unified r
        ∧ s'.unify .checked u' v' = .unified r' ∧ r.equal r' = true) ∧
    (∃ t t', s.resolve u = .ok t ∧ s'.resolve u' = .ok t'
      ∧ t.equal t' = true) ∧
    ∃ found, s.occurs x u = .ok found ∧ s'.occurs x' u' = .ok found := by
  have hss := equal_iff_corresponds.mp h
  have huu := Term.equal_iff_corresponds.mp hu
  have hxx : equality.id x.id x'.id := beq_iff_eq.mp hx
  refine ⟨?_, ?_, ?_⟩
  · have hunify := unify_corresponds_equality hs hs' hss hu hv
    rcases hs.unify_cases u v with hclash | ⟨r, hr⟩
    · rw [hclash] at hunify ⊢
      generalize s'.unify .checked u' v' = o at hunify ⊢
      cases hunify
      exact .inl ⟨rfl, rfl⟩
    · rw [hr] at hunify ⊢
      generalize s'.unify .checked u' v' = o at hunify ⊢
      cases hunify with
      | unified hrr =>
          exact .inr ⟨_, _, rfl, rfl, equal_iff_corresponds.mpr hrr⟩
  · rcases (hss.resolve huu).cases with
      ⟨t, t', ht, ht', htt⟩ | ⟨e, e', he, -, -⟩
    · exact ⟨t, t', ht, ht', Term.equal_iff_corresponds.mpr htt⟩
    · rw [hs.resolve_eq] at he
      cases he
  · rcases (hss.occurs hxx huu).cases with
      ⟨found, _, hf, hf', rfl⟩ | ⟨e, e', he, -, -⟩
    · exact ⟨found, hf, hf'⟩
    · rw [occurs_of_resolve x (hs.resolve_eq u)] at he
      cases he

end Substitution

/-- Whatever the frames are, literals that are equal to themselves
    correspond. -/
theorem Correspondence.alongside_equality :
    equality.Alongside (fun _ _ => True) fun v => v.isNaN = false where
  enter _ _ := trivial
  written {frame frame'} _ := by
    constructor
    · intro site v hv
      have hself : v.equal v = true := by rw [Value.equal_self, hv]; rfl
      refine .atom ?_
      show Atom.equal _ _ = true
      rw [Atom.equal, hself, Bool.or_true]
    · intro site ts us h
      exact .composite trivial (Term.correspondAll_iff.mpr h)

namespace Program

variable {sg : Signature} {P : Program sg}

/-- Goals start in step from interchangeable states, whatever the frames of
    the two runs. -/
theorem run_interchangeable (hP : P.HostFree) (hPl : P.NaNFree)
    {g : Goal sg 0} (hg : g.HostFree) (hgl : g.NaNFree) {st st' : State}
    (h : st.Interchangeable st') (frame frame' : Frame) :
    ∃ s s', P.runIn frame g st = .ok s ∧ P.runIn frame' g st' = .ok s' ∧
      s.Checked ∧
      Kept.Searches equality (fun _ _ => True) (fun v => v.isNaN = false)
        State.Interchangeable s s' := by
  obtain ⟨s, hs, hchecked⟩ : ∃ s, P.runIn frame g st = .ok s ∧ s.Checked :=
    Goal.apply_checked hP hg h.left
  have hstep : InStep (Abort.Corresponds equality)
      (Kept.Searches equality (fun _ _ => True) (fun v => v.isNaN = false)
        State.Interchangeable)
      (P.runIn frame g st) (P.runIn frame' g st') :=
    State.kept_interchangeable.apply alongside_equality
      (fun r => (hP r).related_equality) hPl hg.related_equality hgl
      Scope.related_empty trivial h
  rcases hstep.cases with
    ⟨t, s', ht, hs', hts⟩ | ⟨e, e', he, -, -⟩
  · cases hs.symm.trans ht
    exact ⟨s, s', hs, hs', hchecked, hts⟩
  · cases hs.symm.trans he

/-- **EQUAL STATES ARE INTERCHANGEABLE.**  From equal checked states a goal
    that writes no NaN starts two searches that are pulled in step, whatever
    the fuel and whatever the frames of the two runs: pull by pull they have
    equal answers, and they come to the same kind of end, which is never an
    abort.  And whatever is asked of two equal acyclic substitutions is
    answered alike. -/
theorem equal_states_interchangeable (hP : P.HostFree) (hPl : P.NaNFree)
    {g : Goal sg 0} (hg : g.HostFree) (hgl : g.NaNFree) {st st' : State}
    (hst : st.Checked) (hst' : st'.Checked) (h : st.equal st' = true)
    (frame frame' : Frame) :
    (∃ s s', P.runIn frame g st = .ok s ∧ P.runIn frame' g st' = .ok s' ∧
      ∀ fuel count,
        List.Forall₂ State.Interchangeable (P.harvest fuel count s).1
          (P.harvest fuel count s').1 ∧
        (P.harvest fuel count s).2.Related (fun _ _ => False)
          State.Interchangeable
          (Closure.RelatedIn (fun _ _ => True) (fun v => v.isNaN = false)
            (Term.Corresponds equality))
          (P.harvest fuel count s').2) ∧
    ∀ s s' : Substitution, s.Acyclic → s'.Acyclic → s.equal s' = true →
      ∀ (u u' v v' : Term) (x x' : Var), u.equal u' = true →
        v.equal v' = true → x.same x' = true →
        ((s.unify .checked u v = .clash
            ∧ s'.unify .checked u' v' = .clash) ∨
          ∃ r r', s.unify .checked u v = .unified r
            ∧ s'.unify .checked u' v' = .unified r' ∧ r.equal r' = true) ∧
        (∃ t t', s.resolve u = .ok t ∧ s'.resolve u' = .ok t'
          ∧ t.equal t' = true) ∧
        ∃ found, s.occurs x u = .ok found ∧ s'.occurs x' u' = .ok found := by
  constructor
  · obtain ⟨s, s', hs, hs', hchecked, hss⟩ :=
      run_interchangeable hP hPl hg hgl ⟨h, hst, hst'⟩ frame frame'
    refine ⟨s, s', hs, hs', ?_⟩
    intro fuel count
    obtain ⟨hanswers, hend⟩ := State.kept_interchangeable.harvest
      alongside_equality (fun r => (hP r).related_equality) hPl hss fuel count
    exact ⟨hanswers, hend.of_ne_aborted
      ((hchecked.neverAborts hP).harvest_ne_aborted fuel count)⟩
  · intro s s' hs hs' hss u u' v v' x x' hu hv hx
    exact hs.interchangeable hs' hss hu hv hx

/-- `x` bound to `(0.0 y nan)`, and a variable `x` with another label bound
    to a literal `(-0.0 y nan)` with the same NaN: the unary numbers of `y`
    are searched in step by two runs in different frames, and `x` unifies
    with a fresh `(0.0 y nan)` in both states. -/
theorem equal_states_interchangeable_zero :
    let nan : Term := .atom ⟨.float64 0x7ff8000000000000, ⟨7, .outermost⟩⟩
    let tuple (m : Option Mark) (bits : UInt64) (label : String) : Term :=
      .composite m
        [.atom ⟨.float64 bits, ⟨0, .outermost⟩⟩, .var ⟨1, label⟩, nan]
    let s : Substitution :=
      ⟨(∅ : Std.ExtTreeMap Nat Entry).insert 0 ⟨"x", tuple none 0 "y"⟩⟩
    let s' : Substitution := ⟨(∅ : Std.ExtTreeMap Nat Entry).insert 0
      ⟨"z", tuple (some ⟨1, .outermost⟩) 0x8000000000000000 ""⟩⟩
    let st : State := ⟨s, 2, [⟨1, "y"⟩, ⟨0, "x"⟩], .checked⟩
    let st' : State := ⟨s', 2, [⟨1, ""⟩, ⟨0, "z"⟩], .checked⟩
    let g : Goal ⟨Unit, fun _ => 1, Empty⟩ 0 :=
      .call 4 () [.given (.var ⟨1, "y"⟩)] rfl
    let frame := Frame.outermost.enter 5
    let frame' := Frame.outermost.enter 6
    Program.unary.HostFree ∧ Program.unary.NaNFree ∧ g.HostFree ∧
    g.NaNFree ∧ st.Checked ∧ st'.Checked ∧ st.equal st' = true ∧
    (∃ t t', Program.unary.runIn frame g st = .ok t ∧
      Program.unary.runIn frame' g st' = .ok t' ∧
      ∀ fuel count,
        List.Forall₂ State.Interchangeable
          (Program.unary.harvest fuel count t).1
          (Program.unary.harvest fuel count t').1 ∧
        (Program.unary.harvest fuel count t).2.Related (fun _ _ => False)
          State.Interchangeable
          (Closure.RelatedIn (fun _ _ => True) (fun v => v.isNaN = false)
            (Term.Corresponds equality))
          (Program.unary.harvest fuel count t').2) ∧
    ((s.unify .checked (.var ⟨0, "x"⟩) (tuple none 0 "y") = .clash ∧
        s'.unify .checked (.var ⟨0, "z"⟩) (tuple none 0 "y") = .clash) ∨
      ∃ r r', s.unify .checked (.var ⟨0, "x"⟩) (tuple none 0 "y")
          = .unified r
        ∧ s'.unify .checked (.var ⟨0, "z"⟩) (tuple none 0 "y") = .unified r'
        ∧ r.equal r' = true) := by
  intro nan tuple s s' st st' g frame frame'
  have hs : s.Acyclic := Substitution.Built.acyclic
    (.unify (u := .var ⟨0, "x"⟩) (v := tuple none 0 "y") .empty rfl rfl)
  have hs' : s'.Acyclic := Substitution.Built.acyclic
    (.unify (u := .var ⟨0, "z"⟩)
      (v := tuple (some ⟨1, .outermost⟩) 0x8000000000000000 "")
      .empty rfl rfl)
  have hequal : s.equal s' = true := by decide
  have hst : st.Checked := ⟨rfl, hs⟩
  have hst' : st'.Checked := ⟨rfl, hs'⟩
  have hunary : Program.unary.NaNFree := fun _ =>
    ⟨⟨trivial, trivial⟩, ⟨trivial, trivial, trivial⟩, trivial, trivial⟩
  have hg : g.NaNFree := ⟨trivial, trivial⟩
  obtain ⟨hruns, hanswers⟩ := Program.unary.equal_states_interchangeable
    unary_hostFree hunary (g := g) trivial hg hst hst' (by decide) frame
    frame'
  exact ⟨unary_hostFree, hunary, trivial, hg, hst, hst', by decide, hruns,
    (hanswers s s' hs hs' hequal (.var ⟨0, "x"⟩) (.var ⟨0, "z"⟩)
      (tuple none 0 "y") (tuple none 0 "y") ⟨0, ""⟩ ⟨0, ""⟩ rfl
      (Term.equal_self _) rfl).1⟩

/-- A goal that binds a new variable to a NaN writes another NaN in every
    run, so the answers of two runs from one state differ. -/
theorem nan_literal_differs :
    let nan : Value := .float64 0x7ff8000000000000
    let g : Goal ⟨Unit, fun _ => 1, Empty⟩ 0 :=
      .fresh "x" (.eq (.bound 0) (.atom 0 nan))
    let st := State.initial .checked
    let frame := Frame.outermost.enter 5
    let frame' := Frame.outermost.enter 6
    Program.unary.HostFree ∧ g.HostFree ∧ st.Checked ∧ st.equal st = true ∧
    ∃ s s' a a', Program.unary.runIn frame g st = .ok s ∧
      Program.unary.runIn frame' g st = .ok s' ∧
      s.Nth Program.unary.start 0 a ∧ s'.Nth Program.unary.start 0 a' ∧
      a.equal a' = false := by
  intro nan g st frame frame'
  let answer (frame : Frame) : State :=
    ⟨⟨(∅ : Std.ExtTreeMap Nat Entry).insert 0
      ⟨"x", .atom ⟨nan, ⟨0, frame⟩⟩⟩⟩, 1, [⟨0, "x"⟩], .checked⟩
  have hst : st.Checked := ⟨rfl, Substitution.Built.acyclic .empty⟩
  exact ⟨unary_hostFree, trivial, hst, by decide, .single (answer frame),
    .single (answer frame'), answer frame, answer frame', rfl, rfl,
    .here rfl, .here rfl, by decide⟩

end Program

end LogicSearch
