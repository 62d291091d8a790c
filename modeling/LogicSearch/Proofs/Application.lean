import LogicSearch.Goal.Derivation
import LogicSearch.Proofs.Invariant

/-! # The answers of a goal are its derivations

    `Applied` reads the application of a goal as rules.  A goal that has
    been applied has a way for each of its derivations (`Applied.ways`): a
    disjunction becomes a pair that takes turns, a conjunction work on every
    answer, and a suspended body is read as its derivations.  So derivations
    are a `Reading` of the searches of a program, all ways are delivered by
    induction on the derivation (`Applied.delivered`), and pulling finds each
    derivation once. -/

namespace LogicSearch

variable {sg : Signature} {P : Program sg} {n : Nat} {scope : Scope n}
  {frame : Frame} {st a : State}

/-! ## Derivations, taken apart -/

namespace Derivation

/-- An equation has the unified state for its only answer. -/
def eqEquiv {u v : Expr n} {s : Substitution}
    (h : st.unify (u.eval scope frame) (v.eval scope frame) = .unified s) :
    PLift (st.withSubstitution s = a) ⊕ Empty ≃
      Derivation P (.eq u v) scope frame st a where
  toFun
    | .inl e => e.down ▸ .eq h
  invFun
    | .eq h' => .inl ⟨by cases h.symm.trans h'; rfl⟩
  left_inv
    | .inl ⟨rfl⟩ => rfl
  right_inv
    | .eq h' => by cases h.symm.trans h'; rfl

/-- A clash has none. -/
def clashEquiv {u v : Expr n}
    (h : st.unify (u.eval scope frame) (v.eval scope frame) = .clash) :
    Empty ≃ Derivation P (.eq u v) scope frame st a where
  toFun e := e.elim
  invFun
    | .eq h' => nomatch h.symm.trans h'
  left_inv e := e.elim
  right_inv
    | .eq h' => nomatch h.symm.trans h'

def succeedEquiv :
    PLift (st = a) ⊕ Empty ≃ Derivation P .succeed scope frame st a where
  toFun
    | .inl e => e.down ▸ .succeed
  invFun
    | .succeed => .inl ⟨rfl⟩
  left_inv
    | .inl ⟨rfl⟩ => rfl
  right_inv
    | .succeed => rfl

def failEquiv : Empty ≃ Derivation P .fail scope frame st a where
  toFun e := e.elim
  invFun d := nomatch d
  left_inv e := e.elim
  right_inv d := nomatch d

def conjEquiv {g h : Goal sg n} :
    (Σ b, Derivation P g scope frame st b ×
      Derivation P h scope frame b a) ≃
      Derivation P (.conj g h) scope frame st a where
  toFun d := .conj d.2.1 d.2.2
  invFun
    | .conj d e => ⟨_, d, e⟩
  left_inv _ := rfl
  right_inv
    | .conj _ _ => rfl

def disjEquiv {g h : Goal sg n} :
    Derivation P g scope frame st a ⊕ Derivation P h scope frame st a ≃
      Derivation P (.disj g h) scope frame st a where
  toFun
    | .inl d => .left d
    | .inr d => .right d
  invFun
    | .left d => .inl d
    | .right d => .inr d
  left_inv
    | .inl _ => rfl
    | .inr _ => rfl
  right_inv
    | .left _ => rfl
    | .right _ => rfl

def freshEquiv {label : String} {body : Goal sg (n + 1)} :
    Derivation P body (scope.push (.var (st.fresh label).1)) frame
        (st.fresh label).2 a ≃
      Derivation P (.fresh label body) scope frame st a where
  toFun := .fresh
  invFun
    | .fresh d => d
  left_inv _ := rfl
  right_inv
    | .fresh _ => rfl

def letTermEquiv {e : Expr n} {body : Goal sg (n + 1)} :
    Derivation P body (scope.push (e.eval scope frame)) frame st a ≃
      Derivation P (.letTerm e body) scope frame st a where
  toFun := .letTerm
  invFun
    | .letTerm d => d
  left_inv _ := rfl
  right_inv
    | .letTerm _ => rfl

def delayEquiv {body : Goal sg n} :
    Derivation P body scope frame st a ≃
      Derivation P (.delay body) scope frame st a where
  toFun := .delay
  invFun
    | .delay d => d
  left_inv _ := rfl
  right_inv
    | .delay _ => rfl

/-- To hold without end is to hold now or to hold without end. -/
def alwaysEquiv :
    Derivation P (.disj .succeed .always) scope frame st a ≃
      Derivation P .always scope frame st a where
  toFun
    | .left .succeed => .always
    | .right d => .again d
  invFun
    | .always => .left .succeed
    | .again d => .right d
  left_inv
    | .left .succeed => rfl
    | .right _ => rfl
  right_inv
    | .always => rfl
    | .again _ => rfl

def callEquiv {site : Nat} {r : sg.Rel} {args : List (Expr n)}
    {fits : args.length = sg.arity r} :
    Derivation P (P.body r) (scope.evalArgs frame args fits)
        (frame.enter site) st a ≃
      Derivation P (.call site r args fits) scope frame st a where
  toFun := .call
  invFun
    | .call d => d
  left_inv _ := rfl
  right_inv
    | .call _ => rfl

def hostEquiv {h : sg.Host} {s : Search sg} (hs : P.host h st = .ok s) :
    s.Place a ≃ Derivation P (.host h) scope frame st a where
  toFun := .host hs
  invFun
    | .host hs' w => Except.ok.inj (hs'.symm.trans hs) ▸ w
  left_inv _ := rfl
  right_inv
    | .host hs' w => by cases hs.symm.trans hs'; rfl

end Derivation

/-! ## Listed streams -/

namespace Stream

variable {α γ : Type} {a b : α}

def Place.emptyEquiv : Empty ≃ (empty : Stream α γ).Place a where
  toFun e := e.elim
  invFun w := nomatch w
  left_inv e := e.elim
  right_inv w := nomatch w

def Place.consEquiv {rest : Stream α γ} :
    PLift (b = a) ⊕ rest.Place a ≃ (cons b rest).Place a where
  toFun
    | .inl e => e.down ▸ .here
    | .inr w => .there w
  invFun
    | .here => .inl ⟨rfl⟩
    | .there w => .inr w
  left_inv
    | .inl ⟨rfl⟩ => rfl
    | .inr _ => rfl
  right_inv
    | .here => rfl
    | .there _ => rfl

theorem IsListed.of_cons {rest : Stream α γ}
    (h : (Stream.cons b rest).IsListed) : rest.IsListed := by
  cases h with
  | cons h => exact h

/-- The ways of a listed stream are its places. -/
def IsListed.ways {through : γ → α → α → Type} :
    {s : Stream α γ} → s.IsListed → (a : α) →
    s.Ways through a ≃ s.Place a
  | .empty, _, _ => Place.emptyEquiv
  | .cons _ _, h, a =>
      (Equiv.sumCongr (Equiv.refl _) (h.of_cons.ways a)).trans
        Place.consEquiv
  | .source _ _, _, _ => Equiv.refl _
  | .pause _, h, _ => nomatch h
  | .call _ _, h, _ => nomatch h
  | .interleave _ _, h, _ => nomatch h
  | .forEach _ _, h, _ => nomatch h

theorem IsListed.settles {ε : Type} {run : γ → α → Except ε (Stream α γ)}
    {s : Stream α γ} (h : s.IsListed) : Settles run s := by
  induction h with
  | empty => exact settles_empty
  | cons _ ih => exact ih.cons _
  | source items next => exact settles_source items next

theorem IsListed.delivered {ε : Type}
    {run : γ → α → Except ε (Stream α γ)} {R : Reading run}
    {s : Stream α γ} (h : s.IsListed) (w : s.Ways R.through a) :
    Delivered R w := by
  induction h with
  | empty => exact w.elim
  | @cons b rest _ ih =>
      cases w with
      | inl h =>
          obtain ⟨rfl⟩ := h
          exact .here (.cons b rest) rfl
      | inr w => exact .later (.cons b rest) rfl (ih w)
  | source items next => exact delivered_place w

end Stream

/-! ## Applied goals -/

/-- The ways in which a suspended goal takes one state to another. -/
def Closure.Through (P : Program sg) (c : Closure sg) (b a : State) : Type :=
  Derivation P c.goal c.scope c.frame b a

/-- One rule for each way in which a goal is applied. -/
inductive Applied (P : Program sg) : {n : Nat} → Goal sg n → Scope n →
    Frame → State → Search sg → Type where
  | eq {n : Nat} {u v : Expr n} {scope : Scope n} {frame : Frame}
      {st : State} {s : Substitution} :
      st.unify (u.eval scope frame) (v.eval scope frame) = .unified s →
      Applied P (.eq u v) scope frame st (.single (st.withSubstitution s))
  | clash {n : Nat} {u v : Expr n} {scope : Scope n} {frame : Frame}
      {st : State} :
      st.unify (u.eval scope frame) (v.eval scope frame) = .clash →
      Applied P (.eq u v) scope frame st .empty
  | succeed {n : Nat} {scope : Scope n} {frame : Frame} {st : State} :
      Applied P .succeed scope frame st (.single st)
  | fail {n : Nat} {scope : Scope n} {frame : Frame} {st : State} :
      Applied P .fail scope frame st .empty
  | conj {n : Nat} {g h : Goal sg n} {scope : Scope n} {frame : Frame}
      {st : State} {s u : Search sg} : Applied P g scope frame st s →
      Stream.Binding ⟨n, h, scope, frame⟩ s u →
      Applied P (.conj g h) scope frame st u
  | disj {n : Nat} {g h : Goal sg n} {scope : Scope n} {frame : Frame}
      {st : State} {s t u : Search sg} : Applied P g scope frame st s →
      Applied P h scope frame st t → Stream.Merging s t u →
      Applied P (.disj g h) scope frame st u
  | fresh {n : Nat} {label : String} {body : Goal sg (n + 1)}
      {scope : Scope n} {frame : Frame} {st : State} {s : Search sg} :
      Applied P body (scope.push (.var (st.fresh label).1)) frame
        (st.fresh label).2 s →
      Applied P (.fresh label body) scope frame st s
  | letTerm {n : Nat} {e : Expr n} {body : Goal sg (n + 1)}
      {scope : Scope n} {frame : Frame} {st : State} {s : Search sg} :
      Applied P body (scope.push (e.eval scope frame)) frame st s →
      Applied P (.letTerm e body) scope frame st s
  | delay {n : Nat} {body : Goal sg n} {scope : Scope n} {frame : Frame}
      {st : State} :
      Applied P (.delay body) scope frame st
        (.call ⟨n, body, scope, frame⟩ st)
  | always {n : Nat} {scope : Scope n} {frame : Frame} {st : State} :
      Applied P .always scope frame st
        (.call ⟨n, .disj .succeed .always, scope, frame⟩ st)
  | never {n : Nat} {scope : Scope n} {frame : Frame} {st : State} :
      Applied P .never scope frame st
        (.call ⟨n, .never, scope, frame⟩ st)
  | call {n : Nat} {site : Nat} {r : sg.Rel} {args : List (Expr n)}
      {fits : args.length = sg.arity r} {scope : Scope n} {frame : Frame}
      {st : State} :
      Applied P (.call site r args fits) scope frame st
        (.call ⟨sg.arity r, P.body r, scope.evalArgs frame args fits,
          frame.enter site⟩ st)
  | host {n : Nat} {h : sg.Host} {scope : Scope n} {frame : Frame}
      {st : State} {s : Search sg} : P.host h st = .ok s → s.IsListed →
      Applied P (.host h) scope frame st s

/-- An application that succeeds is an instance of a rule. -/
theorem exists_applied (hP : P.Lists) {g : Goal sg n} {s : Search sg}
    (h : g.apply P scope frame st = .ok s) :
    Nonempty (Applied P g scope frame st s) := by
  induction g generalizing st s with
  | eq u v =>
      rw [Goal.apply, equate] at h
      cases hu : st.unify (u.eval scope frame) (v.eval scope frame) with
      | unified s' => rw [hu] at h; cases h; exact ⟨.eq hu⟩
      | clash => rw [hu] at h; cases h; exact ⟨.clash hu⟩
      | broken e => rw [hu] at h; exact nomatch h
      | unanswered => rw [hu] at h; exact nomatch h
  | succeed => cases h; exact ⟨.succeed⟩
  | fail => cases h; exact ⟨.fail⟩
  | conj g h' ih _ =>
      rw [Goal.apply] at h
      cases hg : g.apply P scope frame st with
      | error e => rw [hg] at h; exact nomatch h
      | ok s' =>
          rw [hg] at h
          cases h
          obtain ⟨p⟩ := ih hg
          obtain ⟨b⟩ := Stream.exists_binding ⟨_, h', scope, frame⟩ s'
          exact ⟨.conj p b⟩
  | disj g h' ihg ihh =>
      rw [Goal.apply] at h
      cases hg : g.apply P scope frame st with
      | error e => rw [hg] at h; exact nomatch h
      | ok s' =>
          cases hh : h'.apply P scope frame st with
          | error e =>
              rw [hg] at h
              dsimp only at h
              rw [hh] at h
              exact nomatch h
          | ok t =>
              rw [hg] at h
              dsimp only at h
              rw [hh] at h
              cases h
              obtain ⟨p⟩ := ihg hg
              obtain ⟨q⟩ := ihh hh
              obtain ⟨m⟩ := Stream.exists_merging s' t
              exact ⟨.disj p q m⟩
  | fresh label body ih =>
      obtain ⟨p⟩ := ih h
      exact ⟨.fresh p⟩
  | letTerm e body ih =>
      obtain ⟨p⟩ := ih h
      exact ⟨.letTerm p⟩
  | delay body _ => cases h; exact ⟨.delay⟩
  | always => cases h; exact ⟨.always⟩
  | never => cases h; exact ⟨.never⟩
  | call site r args fits => cases h; exact ⟨.call⟩
  | host h' => exact ⟨.host h (hP h' st s h)⟩

/-- **AN APPLIED GOAL HAS A WAY FOR EACH DERIVATION.** -/
def Applied.ways : {n : Nat} → {g : Goal sg n} → {scope : Scope n} →
    {frame : Frame} → {st : State} → {s : Search sg} →
    Applied P g scope frame st s → (a : State) →
    s.Ways (Closure.Through P) a ≃ Derivation P g scope frame st a
  | _, _, _, _, _, _, .eq h, _ => Derivation.eqEquiv h
  | _, _, _, _, _, _, .clash h, _ => Derivation.clashEquiv h
  | _, _, _, _, _, _, .succeed, _ => Derivation.succeedEquiv
  | _, _, _, _, _, _, .fail, _ => Derivation.failEquiv
  | _, _, _, _, _, _, .conj p bd, a =>
      (bd.ways a).symm.trans
        ((Equiv.sigmaCongrRight fun b =>
          Equiv.prodCongr (p.ways b) (Equiv.refl _)).trans
          Derivation.conjEquiv)
  | _, _, _, _, _, _, .disj p q m, a =>
      (m.ways a).symm.trans
        ((Equiv.sumCongr (p.ways a) (q.ways a)).trans Derivation.disjEquiv)
  | _, _, _, _, _, _, .fresh p, a => (p.ways a).trans Derivation.freshEquiv
  | _, _, _, _, _, _, .letTerm p, a =>
      (p.ways a).trans Derivation.letTermEquiv
  | _, _, _, _, _, _, .delay, _ => Derivation.delayEquiv
  | _, _, _, _, _, _, .always, _ => Derivation.alwaysEquiv
  | _, _, _, _, _, _, .never, _ => Equiv.refl _
  | _, _, _, _, _, _, .call, _ => Derivation.callEquiv
  | _, _, _, _, _, _, .host hs hl, a =>
      (hl.ways a).trans (Derivation.hostEquiv hs)

/-- A goal that has been applied comes to a pause or to its end. -/
theorem Applied.settles (hP : P.Lists) {g : Goal sg n} {s : Search sg}
    (p : Applied P g scope frame st s) : s.Settles P.start := by
  induction g generalizing st s with
  | eq u v =>
      cases p with
      | eq _ => exact Stream.settles_empty.cons _
      | clash _ => exact Stream.settles_empty
  | succeed => cases p; exact Stream.settles_empty.cons _
  | fail => cases p; exact Stream.settles_empty
  | conj g h ihg ihh =>
      cases p with
      | conj p b =>
          have hs := ihg p
          -- the second goal is applied in the turn of the first, so its
          -- own turn has to end as well
          refine b.of_forEach hs (hs.forEach ?_)
          intro a head hhead
          obtain ⟨q⟩ := exists_applied hP hhead
          exact ihh q
  | disj g h ihg ihh =>
      cases p with
      | disj p q m =>
          have hs := ihg p
          have ht := ihh q
          exact m.of_interleave hs ht (hs.interleave ht)
  | fresh label body ih =>
      cases p with
      | fresh p => exact ih p
  | letTerm e body ih =>
      cases p with
      | letTerm p => exact ih p
  | delay body _ => cases p; exact Stream.settles_call _ _
  | always => cases p; exact Stream.settles_call _ _
  | never => cases p; exact Stream.settles_call _ _
  | call site r args fits => cases p; exact Stream.settles_call _ _
  | host h =>
      cases p with
      | host _ hl => exact hl.settles

/-- So every search does. -/
theorem Program.settles (hP : P.Lists) (s : Search sg) :
    s.Settles P.start := by
  refine Stream.settles ?_ s
  intro c b t h
  obtain ⟨p⟩ := exists_applied hP h
  exact p.settles hP

/-- What suspended goals stand for. -/
noncomputable def Program.reading (hP : P.Lists) : Reading P.start where
  through := Closure.Through P
  opened h := (Classical.choice (exists_applied hP h)).ways

/-- **EVERY DERIVATION IS DELIVERED.** -/
theorem Applied.delivered (hP : P.Lists) {g : Goal sg n} {s : Search sg}
    (p : Applied P g scope frame st s) (d : Derivation P g scope frame st a) :
    Stream.Delivered (P.reading hP) ((p.ways a).symm d) := by
  have hsettles := P.settles hP
  induction d generalizing s with
  | eq hu =>
      cases p with
      | eq h =>
          cases hu.symm.trans h
          exact .here (.cons _ _) rfl
      | clash h => exact nomatch hu.symm.trans h
  | succeed =>
      cases p
      exact .here (.cons _ _) rfl
  | conj d e ihd ihe =>
      cases p with
      | conj p bd =>
          have hd := ihd p
          exact bd.delivered hd (hd.forEach hsettles fun head h => ihe _)
  | left d ih =>
      cases p with
      | disj p q m =>
          have hd := ih p
          exact m.delivered_left hd (hd.left hsettles _)
  | right d ih =>
      cases p with
      | disj p q m =>
          have hd := ih q
          exact m.delivered_right hd (hd.right hsettles _)
  | fresh d ih =>
      cases p with
      | fresh p => exact ih p
  | letTerm d ih =>
      cases p with
      | letTerm p => exact ih p
  | delay d ih =>
      cases p
      exact Stream.delivered_call fun head h => ih _
  | @always n scope frame st =>
      cases p
      -- the first round answers at once
      have hround : ∀ {head : Search sg}
          (q : Applied P (.disj .succeed .always) scope frame st head),
          Stream.Delivered (P.reading hP)
            ((q.ways st).symm (.left .succeed)) := by
        intro head q
        cases q with
        | disj q r m =>
            cases q
            have hd : Stream.Delivered (P.reading hP)
                (s := Stream.single st) (a := st) (.inl ⟨rfl⟩) :=
              .here (.cons _ _) rfl
            exact m.delivered_left hd (hd.left hsettles _)
      exact Stream.delivered_call fun head h => hround _
  | @again n scope frame st a d ih =>
      cases p
      have hround : ∀ {head : Search sg}
          (q : Applied P (.disj .succeed .always) scope frame st head),
          Stream.Delivered (P.reading hP) ((q.ways a).symm (.right d)) := by
        intro head q
        cases q with
        | disj q r m =>
            have hd := ih r
            exact m.delivered_right hd (hd.right hsettles _)
      exact Stream.delivered_call fun head h => hround _
  | call d ih =>
      cases p
      exact Stream.delivered_call fun head h => ih _
  | host h w =>
      cases p with
      | host h' hl => exact hl.delivered _

/-- Pulling an applied goal answers `a` as often as the goal has derivations
    of `a`. -/
theorem Applied.nth_equiv (hP : P.Lists) {g : Goal sg n} {s : Search sg}
    (p : Applied P g scope frame st s) (hs : s.NeverAborts P.start)
    (a : State) :
    Nonempty ({k // s.Nth P.start k a} ≃ Derivation P g scope frame st a) := by
  have hdelivered : ∀ w : s.Ways (P.reading hP).through a,
      Stream.Delivered (P.reading hP) w := by
    intro w
    obtain ⟨d, rfl⟩ := (p.ways a).symm.surjective w
    exact p.delivered hP d
  obtain ⟨e⟩ := Stream.nth_equiv_ways hdelivered hs
  exact ⟨e.trans (p.ways a)⟩

/-- **THE SEARCH LOSES AND INVENTS NO ANSWER.**  If the goal is applied and
    the search is never given up, the pulls that answer `a` are as many as
    the derivations of `a`, be it none, finitely many or infinitely many; so
    each derivation has its pull, after finitely many steps, and each pull
    its derivation. -/
theorem Program.answers_equiv_derivations (hP : P.Lists) {g : Goal sg 0}
    {s : Search sg} (hrun : P.run g st = .ok s)
    (hs : s.NeverAborts P.start) (a : State) :
    Nonempty ({k // s.Nth P.start k a} ≃ P.Derives g st a) := by
  obtain ⟨p⟩ := exists_applied hP hrun
  exact p.nth_equiv hP hs a

/-- A program without relations and host goals. -/
def Program.bare : Program ⟨Empty, Empty.elim, Empty⟩ :=
  ⟨fun r => r.elim, fun h => h.elim⟩

/-- What holds without end is answered without end: each of its derivations
    is found. -/
theorem Program.answers_equiv_derivations_always :
    let st : State := .initial {}
    let s : Search ⟨Empty, Empty.elim, Empty⟩ :=
      .call ⟨0, .disj .succeed .always, .empty, .outermost⟩ st
    Program.bare.Lists ∧ Program.bare.run .always st = .ok s ∧
    s.NeverAborts Program.bare.start ∧
    Nonempty ({k // s.Nth Program.bare.start k st} ≃
      Program.bare.Derives .always st st) := by
  intro st s
  have hlists : Program.bare.Lists := fun h => h.elim
  have hrun : Program.bare.run .always st = .ok s := rfl
  have hs : s.NeverAborts Program.bare.start := by
    -- the work that waits is always the next round
    let next : Closure ⟨Empty, Empty.elim, Empty⟩ :=
      ⟨0, .disj .succeed .always, .empty, .outermost⟩
    have hround : ∀ (c : Closure ⟨Empty, Empty.elim, Empty⟩) (b : State),
        c = next → True → ∃ t, Program.bare.start c b = .ok t ∧
          t.Every (fun _ => True) (· = next) := by
      rintro c b rfl -
      exact ⟨_, rfl, ⟨trivial, trivial⟩, rfl, trivial⟩
    have hevery : s.Every (fun _ => True) (· = next) := ⟨rfl, trivial⟩
    exact hevery.neverAborts hround
  exact ⟨hlists, hrun, hs,
    Program.answers_equiv_derivations hlists hrun hs st⟩

end LogicSearch
