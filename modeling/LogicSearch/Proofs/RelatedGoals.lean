import LogicSearch.Goal.Search
import LogicSearch.Proofs.Correspondence
import LogicSearch.Proofs.Evaluation
import LogicSearch.Proofs.RelatedStreams

/-! # Corresponding searches

    Goals of one shape with corresponding given terms, started in
    corresponding states, start corresponding searches, as long as
    corresponding states unify corresponding terms in step
    (`Correspondence.Kept`).  So all pulls run in step
    (`Kept.harvest`).  The two searches need not be in one frame: it is
    enough that their literals correspond, too
    (`Correspondence.Alongside`). -/

namespace LogicSearch

/-- The goals have one shape, and their given terms are related.  New
    variables may be labelled differently; host goals, which can look at
    everything, are related to nothing. -/
inductive Goal.Related {sg : Signature} (R : Term → Term → Prop) :
    {n : Nat} → Goal sg n → Goal sg n → Prop where
  | eq {n : Nat} {u u' v v' : Expr n} : u.Related R u' → v.Related R v' →
      Related R (.eq u v) (.eq u' v')
  | succeed {n : Nat} : Related R (.succeed (n := n)) .succeed
  | fail {n : Nat} : Related R (.fail (n := n)) .fail
  | conj {n : Nat} {g g' h h' : Goal sg n} : Related R g g' →
      Related R h h' → Related R (.conj g h) (.conj g' h')
  | disj {n : Nat} {g g' h h' : Goal sg n} : Related R g g' →
      Related R h h' → Related R (.disj g h) (.disj g' h')
  | fresh {n : Nat} (label label' : String) {g g' : Goal sg (n + 1)} :
      Related R g g' → Related R (.fresh label g) (.fresh label' g')
  | letTerm {n : Nat} {e e' : Expr n} {g g' : Goal sg (n + 1)} :
      e.Related R e' → Related R g g' →
      Related R (.letTerm e g) (.letTerm e' g')
  | delay {n : Nat} {g g' : Goal sg n} : Related R g g' →
      Related R (.delay g) (.delay g')
  | always {n : Nat} : Related R (.always (n := n)) .always
  | never {n : Nat} : Related R (.never (n := n)) .never
  | call {n : Nat} (site : Nat) (r : sg.Rel) {args args' : List (Expr n)}
      (fits : args.length = sg.arity r) (fits' : args'.length = sg.arity r) :
      Expr.RelatedAll R args args' →
      Related R (.call site r args fits) (.call site r args' fits')

/-- Related goals wait in related scopes and related frames, and all their
    literals are as asked. -/
inductive Closure.RelatedIn {sg : Signature} (F : Frame → Frame → Prop)
    (literal : Value → Prop) (R : Term → Term → Prop) :
    Closure sg → Closure sg → Prop where
  | mk {n : Nat} {g g' : Goal sg n} {scope scope' : Scope n}
      {frame frame' : Frame} : g.Related R g' →
      g.All (fun _ => True) literal → scope.Related R scope' →
      F frame frame' →
      RelatedIn F literal R ⟨n, g, scope, frame⟩ ⟨n, g', scope', frame'⟩

/-- Related goals wait in related scopes, after the same calls. -/
abbrev Closure.Related {sg : Signature} (R : Term → Term → Prop) :
    Closure sg → Closure sg → Prop :=
  Closure.RelatedIn Eq (fun _ => True) R

variable {sg : Signature} {c : Correspondence} {R : State → State → Prop}
  {F : Frame → Frame → Prop} {literal : Value → Prop}

/-- Corresponding substitutions and counters, as many minted variables, which
    correspond, and the same settings. -/
structure State.Corresponds (c : Correspondence) (st st' : State) : Prop where
  substitution : st.substitution.Corresponds c st'.substitution
  counter : c.id st.counter st'.counter
  minted : List.Forall₂ (fun x y => c.id x.id y.id) st.minted st'.minted
  config : st.config = st'.config

/-- Searches without host goals are given up for the same reason. -/
inductive Abort.Corresponds (c : Correspondence) : Abort → Abort → Prop where
  | error {e e' : Error} : e.Corresponds c e' →
      Corresponds c (.error e) (.error e')
  | unanswered : Corresponds c .unanswered .unanswered

theorem State.Corresponds.fresh {st st' : State} (h : st.Corresponds c st')
    (label label' : String) :
    (st.fresh label).2.Corresponds c (st'.fresh label').2 :=
  ⟨h.substitution, c.succ h.counter, .cons h.counter h.minted, h.config⟩

theorem State.Corresponds.withSubstitution {st st' : State}
    (h : st.Corresponds c st') {s s' : Substitution}
    (hs : s.Corresponds c s') :
    (st.withSubstitution s).Corresponds c (st'.withSubstitution s') :=
  ⟨hs, h.counter, h.minted, h.config⟩

/-- Related states correspond, and stay related when both mint a variable or
    unify corresponding terms, which they do in step. -/
structure Correspondence.Kept (c : Correspondence)
    (R : State → State → Prop) : Prop where
  corresponds {st st' : State} : R st st' → st.Corresponds c st'
  fresh {st st' : State} (label label' : String) : R st st' →
    R (st.fresh label).2 (st'.fresh label').2
  inStep {st st' : State} {u u' v v' : Term} : R st st' →
    u.Corresponds c u' → v.Corresponds c v' →
    (st.unify u v).Corresponds c (st'.unify u' v')
  unified {st st' : State} {u u' v v' : Term} {s s' : Substitution} :
    R st st' → s.Corresponds c s' → st.unify u v = .unified s →
    st'.unify u' v' = .unified s' →
    R (st.withSubstitution s) (st'.withSubstitution s')

theorem Correspondence.compatible (c : Correspondence) :
    Compatible (Term.Corresponds c) :=
  ⟨fun a => .atom (c.atom_refl a), fun m _ _ h =>
    .composite (c.mark_refl m) (Term.correspondAll_iff.mpr h)⟩

/-- In related frames, which stay so when both runs make a call, what is
    written at one place corresponds. -/
structure Correspondence.Alongside (c : Correspondence)
    (F : Frame → Frame → Prop) (literal : Value → Prop) : Prop where
  enter {frame frame' : Frame} (site : Nat) : F frame frame' →
    F (frame.enter site) (frame'.enter site)
  written {frame frame' : Frame} : F frame frame' →
    CompatibleIn frame frame' literal (Term.Corresponds c)

/-- In one frame all that is written corresponds to itself. -/
theorem Correspondence.alongside_eq (c : Correspondence) :
    c.Alongside Eq fun _ => True where
  enter site h := congrArg (·.enter site) h
  written := by
    rintro frame _ rfl
    exact c.compatible.inFrame frame

namespace Correspondence.Kept

variable {P P' : Program sg}

/-- Two searches that run in step. -/
abbrev Searches (c : Correspondence) (F : Frame → Frame → Prop)
    (literal : Value → Prop) (R : State → State → Prop) :
    Search sg → Search sg → Prop :=
  Stream.Related R (Closure.RelatedIn F literal (Term.Corresponds c))

theorem equate (hR : c.Kept R) {st st' : State} (hst : R st st')
    {u u' v v' : Term} (hu : u.Corresponds c u') (hv : v.Corresponds c v') :
    InStep (Abort.Corresponds c) (Searches c F literal R)
      (LogicSearch.equate st u v : Except Abort (Search sg))
      (LogicSearch.equate st' u' v') := by
  have hunify := hR.inStep hst hu hv
  rw [LogicSearch.equate, LogicSearch.equate]
  generalize ho : st.unify u v = o at hunify ⊢
  generalize ho' : st'.unify u' v' = o' at hunify ⊢
  cases hunify with
  | unified hs => exact .ok (Stream.related_single (hR.unified hst hs ho ho'))
  | clash => exact .ok .empty
  | broken he => exact .error (.error he)
  | unanswered => exact .error .unanswered

section Runs

variable (hR : c.Kept R) (hF : c.Alongside F literal)
  (hP : ∀ r, (P.body r).Related (Term.Corresponds c) (P'.body r))
  (hPl : ∀ r, (P.body r).All (fun _ => True) literal)

include hR hF hP hPl

/-- **CORRESPONDING GOALS START CORRESPONDING SEARCHES.** -/
theorem apply {n : Nat} {g g' : Goal sg n}
    (hg : g.Related (Term.Corresponds c) g')
    (hgl : g.All (fun _ => True) literal) {scope scope' : Scope n}
    (hscope : scope.Related (Term.Corresponds c) scope')
    {frame frame' : Frame} (hframe : F frame frame') {st st' : State}
    (hst : R st st') :
    InStep (Abort.Corresponds c) (Searches c F literal R)
      (g.apply P scope frame st) (g'.apply P' scope' frame' st') := by
  have hterms := hF.written hframe
  induction hg generalizing st st' with
  | eq hu hv =>
      rw [Goal.apply, Goal.apply]
      exact hR.equate hst (hu.eval hterms hscope hgl.1)
        (hv.eval hterms hscope hgl.2)
  | succeed => exact .ok (Stream.related_single hst)
  | fail => exact .ok .empty
  | conj _ hh ihg _ =>
      rw [Goal.apply, Goal.apply]
      rcases (ihg hgl.1 hscope hst).cases with
        ⟨s, s', hs, hs', hss⟩ | ⟨e, e', hs, hs', he⟩
      · rw [hs, hs']
        exact .ok (hss.bind (.mk hh hgl.2 hscope hframe))
      · rw [hs, hs']
        exact .error he
  | disj _ _ ihg ihh =>
      rw [Goal.apply, Goal.apply]
      rcases (ihg hgl.1 hscope hst).cases with
        ⟨s, s', hs, hs', hss⟩ | ⟨e, e', hs, hs', he⟩
      · rw [hs, hs']
        dsimp only
        rcases (ihh hgl.2 hscope hst).cases with
          ⟨t, t', ht, ht', htt⟩ | ⟨e, e', ht, ht', he⟩
        · rw [ht, ht']
          exact .ok (hss.merge htt)
        · rw [ht, ht']
          exact .error he
      · rw [hs, hs']
        exact .error he
  | fresh label label' _ ih =>
      have hx := (hR.corresponds hst).counter
      exact ih hgl (hscope.push (.var hx)) (hR.fresh label label' hst)
  | letTerm he _ ih =>
      exact ih hgl.2 (hscope.push (he.eval hterms hscope hgl.1)) hst
  | delay hg _ => exact .ok (.call (.mk hg hgl hscope hframe) hst)
  | always =>
      exact .ok (.call
        (.mk (.disj .succeed .always) ⟨trivial, trivial⟩ hscope hframe) hst)
  | never => exact .ok (.call (.mk .never trivial hscope hframe) hst)
  | @call _ site r args args' fits fits' hargs =>
      have hinner : (scope.evalArgs frame args fits).Related
          (Term.Corresponds c) (scope'.evalArgs frame' args' fits') :=
        hargs.evalArgs hterms hscope hgl
      exact .ok (.call
        (.mk (hP r) (hPl r) hinner (hF.enter site hframe)) hst)

/-- So do suspended goals. -/
theorem start (work work' : Closure sg) (st st' : State)
    (hwork : work.RelatedIn F literal (Term.Corresponds c) work')
    (hst : R st st') :
    InStep (Abort.Corresponds c) (Searches c F literal R) (P.start work st)
      (P'.start work' st') := by
  cases hwork with
  | mk hg hgl hscope hframe =>
      exact hR.apply hF hP hPl hg hgl hscope hframe hst

/-- **CORRESPONDING SEARCHES ARE PULLED IN STEP.** -/
theorem harvest {s s' : Search sg} (h : Searches c F literal R s s')
    (fuel count : Nat) :
    List.Forall₂ R (P.harvest fuel count s).1 (P'.harvest fuel count s').1 ∧
    (P.harvest fuel count s).2.Related (Abort.Corresponds c) R
      (Closure.RelatedIn F literal (Term.Corresponds c))
      (P'.harvest fuel count s').2 :=
  Stream.Related.harvest (hR.start hF hP hPl) fuel count h

end Runs

end Correspondence.Kept

end LogicSearch
