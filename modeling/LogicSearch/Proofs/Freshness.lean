import LogicSearch.Proofs.HostFree
import LogicSearch.Proofs.Lineage
import LogicSearch.Proofs.TruthSearch

/-! # Variables are fresh on every branch

    Sibling branches mint the same ids, under labels of their own, and their
    states travel through suspended goals before the next variable is
    minted.  Still no variable leaks from one branch to another: along a
    branch states only gain variables and bindings, and a suspended goal is
    started only on states in which all that it speaks about was minted
    (`Closure.Fits`).

    - Minting and unifying keep states well scoped (`WellScoped.fresh`,
      `WellScoped.unify`), and so do goals (`Goal.apply_after`).
    - A well scoped state mints what it has not seen
      (`WellScoped.isNew_fresh`), wherever a search mints
      (`Program.search_fresh`). -/

namespace LogicSearch

namespace State

variable {st st' : State}

/-! ## Well scoped states -/

theorem minted_iff_mem_history {x : Var} :
    st.Minted x ↔ x ∈ st.history := by
  rw [history, List.mem_reverse]
  rfl

theorem Extends.minted_of_minted (h : st.Extends st') {x : Var}
    (hx : st.Minted x) : st'.Minted x := by
  rw [minted_iff_mem_history] at hx ⊢
  exact h.minted.subset hx

theorem Covers.extends {t : Term} (ht : st.Covers t) (h : st.Extends st') :
    st'.Covers t :=
  fun x hx => h.minted_of_minted (ht x hx)

theorem covers_of_ground {t : Term} (h : t.IsGround) : st.Covers t :=
  fun x hx => absurd hx (h.not_mem x)

theorem WellScoped.minted_lt (h : st.WellScoped) {x : Var}
    (hx : st.Minted x) : x.id < st.counter := by
  have hid : x.id ∈ st.history.map (·.id) :=
    List.mem_map_of_mem (minted_iff_mem_history.mp hx)
  rw [h.ids] at hid
  exact List.mem_range.mp hid

/-- The values are over the minted variables. -/
theorem WellScoped.over (h : st.WellScoped) :
    st.substitution.Over st.Covers := by
  intro i t hi
  obtain ⟨b, hb, -, rfl⟩ := Substitution.exists_mem_bindings hi
  exact h.values b hb

/-- **WHAT A WELL SCOPED STATE MINTS IS NEW** to all there is. -/
theorem WellScoped.isNew_fresh (h : st.WellScoped) (label : String) :
    st.IsNew (st.fresh label).1 where
  unbound := by
    cases hx : st.substitution.get? (st.fresh label).1 with
    | none => rfl
    | some t =>
        obtain ⟨b, hb, hid, -⟩ := Substitution.exists_mem_bindings hx
        have hkey := h.minted_lt (h.keys b hb)
        rw [hid] at hkey
        exact absurd hkey (Nat.lt_irrefl _)
  absent b hb y hy := (h.minted_lt (h.values b hb y hy)).ne
  distinct y hy := (h.minted_lt hy).ne

theorem WellScoped.fresh (h : st.WellScoped) (label : String) :
    (st.fresh label).2.WellScoped where
  ids := by
    rw [history_fresh, List.map_append, h.ids]
    exact List.range_succ.symm
  keys b hb := (extends_fresh st label).minted_of_minted (h.keys b hb)
  values b hb := Covers.extends (h.values b hb) (extends_fresh st label)

theorem covers_fresh (st : State) (label : String) :
    (st.fresh label).2.Covers (.var (st.fresh label).1) := by
  intro x hx
  rw [List.mem_singleton.mp hx]
  exact List.mem_cons_self ..

/-- Unifying keeps all there is. -/
theorem extends_unify {u v : Term} {s : Substitution}
    (h : st.unify u v = .unified s) :
    st.Extends (st.withSubstitution s) where
  config := rfl
  minted := List.prefix_refl _
  bindings _ hb := (Substitution.grows_of_unify h).mem_bindings hb

theorem WellScoped.unify (hst : st.WellScoped) {u v : Term}
    {s : Substitution} (hu : st.Covers u) (hv : st.Covers v)
    (h : st.unify u v = .unified s) :
    (st.withSubstitution s).WellScoped := by
  have hgrow : Substitution.Grows st.config st.Covers st.substitution s :=
    Substitution.unify_grows (Substitution.itemClosed_vars st.Minted)
      hst.over.valueClosed hu hv h
  constructor
  · exact hst.ids
  · intro b hb
    rcases hgrow.of_mem_bindings hb with hold | ⟨hkey, -⟩
    · exact hst.keys b hold
    · exact hkey b.key (List.mem_singleton_self _)
  · intro b hb
    rcases hgrow.of_mem_bindings hb with hold | ⟨-, hvalue⟩
    · exact hst.values b hold
    · exact hvalue

theorem wellScoped_initial (config : Config) :
    (initial config).WellScoped where
  ids := rfl
  keys _ hb := nomatch hb
  values _ hb := nomatch hb

/-- **ALL THAT MINTING AND UNIFYING LEAD TO IS WELL SCOPED.** -/
theorem Reached.wellScoped {config : Config} {good : Term → Prop}
    (h : Reached config good st) : st.WellScoped := by
  induction h with
  | initial => exact wellScoped_initial config
  | fresh label _ ih => exact ih.fresh label
  | unify _ _ _ hu hv hs ih => exact ih.unify hu hv hs

/-- The second state is well scoped and has all that the first one has. -/
def Precedes (st a : State) : Prop := a.WellScoped ∧ st.Extends a

theorem WellScoped.precedes_self (h : st.WellScoped) : st.Precedes st :=
  ⟨h, .refl st⟩

theorem Precedes.trans {a b c : State} (hab : a.Precedes b)
    (hbc : b.Precedes c) : a.Precedes c :=
  ⟨hbc.1, hab.2.trans hbc.2⟩

theorem WellScoped.precedes_fresh (h : st.WellScoped) (label : String) :
    st.Precedes (st.fresh label).2 :=
  ⟨h.fresh label, extends_fresh st label⟩

end State

/-! ## Goals that fit a state -/

variable {sg : Signature} {P : Program sg} {n : Nat} {scope : Scope n}
  {frame : Frame} {st : State}

/-- The goal has no host goals, and all that it and its scope speak about was
    minted in the state. -/
structure Closure.Fits (c : Closure sg) (st : State) : Prop where
  wellScoped : st.WellScoped
  hostFree : c.HostFree
  scope : c.scope.Related (fun t _ => st.Covers t) c.scope
  goal : c.goal.All st.Covers fun _ => True

/-- All answers of the search come after the state, and its suspended goals
    fit theirs. -/
abbrev Search.After (s : Search sg) (st : State) : Prop :=
  Stream.After State.Precedes Closure.Fits s st

/-- What is written in a goal is about minted variables if its scope is. -/
theorem Expr.covers_eval {e : Expr n}
    (hscope : scope.Related (fun t _ => st.Covers t) scope)
    (he : e.All st.Covers fun _ => True) :
    st.Covers (e.eval scope frame) :=
  Expr.related_eval (Term.compatible_vars st.Minted) hscope e he

namespace Closure.Fits

theorem later {c : Closure sg} {a : State} (h : c.Fits st)
    (hle : st.Precedes a) : c.Fits a where
  wellScoped := hle.1
  hostFree := h.hostFree
  scope i := State.Covers.extends (h.scope i) hle.2
  goal := h.goal.mono (fun _ ht => ht.extends hle.2) fun _ _ => trivial

/-- Another goal in the same scope. -/
theorem inScope {g g' : Goal sg n} (h : Fits ⟨n, g, scope, frame⟩ st)
    (hfree : g'.HostFree) (hgoal : g'.All st.Covers fun _ => True) :
    Fits ⟨n, g', scope, frame⟩ st :=
  ⟨h.wellScoped, hfree, h.scope, hgoal⟩

/-- The variable that is in scope from now on is minted. -/
theorem fresh {label : String} {body : Goal sg (n + 1)}
    (h : Fits ⟨n, .fresh label body, scope, frame⟩ st) :
    Fits ⟨n + 1, body, scope.push (.var (st.fresh label).1), frame⟩
      (st.fresh label).2 := by
  have hlater := h.later (h.wellScoped.precedes_fresh label)
  exact ⟨hlater.wellScoped, h.hostFree,
    hlater.scope.push (State.covers_fresh st label), hlater.goal⟩

theorem letTerm {e : Expr n} {body : Goal sg (n + 1)}
    (h : Fits ⟨n, .letTerm e body, scope, frame⟩ st) :
    Fits ⟨n + 1, body, scope.push (e.eval scope frame), frame⟩ st :=
  ⟨h.wellScoped, h.hostFree,
    h.scope.push (Expr.covers_eval h.scope h.goal.1), h.goal.2⟩

/-- The body of a relation sees its arguments only. -/
theorem call (hP : P.HostFree) (hclosed : P.Closed) {site : Nat}
    {r : sg.Rel} {args : List (Expr n)} {hlen : args.length = sg.arity r}
    (h : Fits ⟨n, .call site r args hlen, scope, frame⟩ st) :
    Fits ⟨sg.arity r, P.body r, scope.evalArgs frame args hlen,
      frame.enter site⟩ st := by
  have hscope : (scope.evalArgs frame args hlen).Related
      (fun t _ => st.Covers t) (scope.evalArgs frame args hlen) :=
    Scope.Related.evalArgs (Term.compatible_vars st.Minted) h.scope h.goal
  have hbody : (P.body r).All st.Covers fun _ => True :=
    (hclosed r).mono (fun _ ht => State.covers_of_ground ht)
      fun _ _ => trivial
  exact ⟨h.wellScoped, hP r, hscope, hbody⟩

end Closure.Fits

/-- **WHAT A GOAL ANSWERS COMES AFTER THE STATE** in which it is started. -/
theorem Goal.apply_after (hP : P.HostFree) (hclosed : P.Closed)
    {g : Goal sg n} (hfits : Closure.Fits ⟨n, g, scope, frame⟩ st)
    {s : Search sg} (h : g.apply P scope frame st = .ok s) :
    Search.After s st := by
  have hself := hfits.wellScoped.precedes_self
  induction g generalizing st s with
  | eq u v =>
      rw [apply, equate] at h
      cases hu : st.unify (u.eval scope frame) (v.eval scope frame) with
      | unified s' =>
          rw [hu] at h
          cases h
          have hscoped := hfits.wellScoped.unify
            (Expr.covers_eval hfits.scope hfits.goal.1)
            (Expr.covers_eval hfits.scope hfits.goal.2) hu
          exact ⟨⟨hscoped, State.extends_unify hu⟩, trivial⟩
      | clash => rw [hu] at h; cases h; trivial
      | broken e => rw [hu] at h; cases h
      | unanswered => rw [hu] at h; cases h
  | succeed => cases h; exact ⟨hself, trivial⟩
  | fail => cases h; trivial
  | conj g g' ih _ =>
      have hleft := hfits.inScope hfits.hostFree.1 hfits.goal.1
      have hright := hfits.inScope hfits.hostFree.2 hfits.goal.2
      rw [apply] at h
      cases hg : g.apply P scope frame st with
      | error e => rw [hg] at h; cases h
      | ok s' =>
          rw [hg] at h
          cases h
          exact Stream.After.bind hself hright (ih hleft hg hself)
  | disj g g' ih ih' =>
      have hleft := hfits.inScope hfits.hostFree.1 hfits.goal.1
      have hright := hfits.inScope hfits.hostFree.2 hfits.goal.2
      rw [apply] at h
      cases hg : g.apply P scope frame st with
      | error e => rw [hg] at h; cases h
      | ok s' =>
          rw [hg] at h
          dsimp only at h
          cases hg' : g'.apply P scope frame st with
          | error e => rw [hg'] at h; cases h
          | ok t' =>
              rw [hg'] at h
              cases h
              exact Stream.After.merge (ih hleft hg hself)
                (ih' hright hg' hself)
  | fresh label body ih =>
      have hfresh := hfits.wellScoped.precedes_fresh label
      exact (ih hfits.fresh h hfresh.1.precedes_self).of_le hfresh
        State.Precedes.trans
  | letTerm e body ih => exact ih hfits.letTerm h hself
  | delay body _ =>
      cases h
      exact ⟨hself, hfits.inScope hfits.hostFree hfits.goal⟩
  | always =>
      cases h
      exact ⟨hself, hfits.inScope ⟨trivial, trivial⟩ ⟨trivial, trivial⟩⟩
  | never => cases h; exact ⟨hself, hfits⟩
  | call site r args hlen => cases h; exact ⟨hself, hfits.call hP hclosed⟩
  | host h => exact hfits.hostFree.elim

/-- So does what is answered by goals that were suspended. -/
theorem Program.lineage (hP : P.HostFree) (hclosed : P.Closed) :
    Lineage P.start State.Precedes Closure.Fits where
  trans := State.Precedes.trans
  later := Closure.Fits.later
  started hfits h := Goal.apply_after hP hclosed hfits h

/-! ## Where variables are minted -/

/-- Starting a goal mints after the state in which it is started. -/
theorem Goal.Mints.precedes {g : Goal sg n} {b : State} {label : String}
    (h : g.Mints P scope frame st b label)
    (hfits : Closure.Fits ⟨n, g, scope, frame⟩ st) : st.Precedes b := by
  induction h with
  | here => exact hfits.wellScoped.precedes_self
  | body _ ih =>
      exact (hfits.wellScoped.precedes_fresh _).trans (ih hfits.fresh)
  | conj _ ih => exact ih (hfits.inScope hfits.hostFree.1 hfits.goal.1)
  | left _ ih => exact ih (hfits.inScope hfits.hostFree.1 hfits.goal.1)
  | right _ ih => exact ih (hfits.inScope hfits.hostFree.2 hfits.goal.2)
  | letTerm _ ih => exact ih hfits.letTerm

/-- So does every step of a search that comes after the state. -/
theorem Search.Mints.precedes (hP : P.HostFree) (hclosed : P.Closed)
    {t : Search sg} {b : State} {label : String} (h : t.Mints P b label)
    (ht : Search.After t st) : st.Precedes b := by
  obtain ⟨c, a, hstarts, hmints⟩ := h
  obtain ⟨hle, hfits⟩ := ht.of_starts (P.lineage hP hclosed) hstarts
  exact hle.trans (Goal.Mints.precedes hmints hfits)

/-- The variables of the state are old or were minted as `minting` says. -/
def State.MintedBy (old : State) (minting : State → String → Prop)
    (a : State) : Prop :=
  ∀ x, a.Minted x → old.Minted x ∨
    ∃ b label, minting b label ∧ x = (b.fresh label).1

/-- Unifying mints nothing. -/
theorem State.keptByUnifying_mintedBy {old : State}
    {minting : State → String → Prop} :
    State.KeptByUnifying (old.MintedBy minting) fun _ => True where
  unify hst _ := hst
  broken _ _ := trivial
  unanswered _ _ := trivial

theorem State.MintedBy.fresh {old a : State}
    {minting : State → String → Prop} {label : String}
    (h : old.MintedBy minting a) (hmint : minting a label) :
    old.MintedBy minting (a.fresh label).2 := by
  intro x hx
  rcases List.mem_cons.mp hx with rfl | hx
  · exact .inr ⟨a, label, hmint, rfl⟩
  · exact h x hx

/-- **NO VARIABLE IS MINTED ELSEWHERE**: those of an answer are variables of
    the first state or were minted where `Program.Mints` says. -/
theorem Program.mintedBy_of_nth (hP : P.HostFree) {g : Goal sg 0}
    (hg : g.HostFree) {s : Search sg} (hs : P.run g st = .ok s) {k : Nat}
    {a : State} (h : s.Nth P.start k a) : st.MintedBy (P.Mints g st) a := by
  have hrun : Meets (Stream.Every (st.MintedBy (P.Mints g st))
      Closure.HostFree) (fun _ => True) (P.run g st) :=
    Goal.apply_kept_of_mints State.keptByUnifying_mintedBy hP hg
      (fun b label hb hmint => hmint.fresh (.inl hb)) fun x hx => .inl hx
  have hsteps : ∀ t c b, s.Leads P.start t → t.Starts P.start c b →
      c.HostFree → st.MintedBy (P.Mints g st) b →
      Meets (Stream.Every (st.MintedBy (P.Mints g st)) Closure.HostFree)
        (fun _ => True) (P.start c b) := by
    intro t c b ht hstarts hc hb
    exact Goal.apply_kept_of_mints State.keptByUnifying_mintedBy hP hc
      (fun b' label hb' hmint =>
        hmint.fresh (.inr ⟨s, t, hs, ht, c, b, hstarts, hb'⟩)) hb
  exact (hrun.ok hs).nth_of_starts hsteps h

/-- **ANSWERS EXTEND THE STATE, AND ALL THAT IS MINTED IS NEW.**  Whatever
    the branch, an answer is well scoped, has all that the first state has,
    and has no further variables but those that the search minted; and
    wherever the search mints a variable, it is new to the state there,
    which has all that the first state has, too. -/
theorem Program.search_fresh (hP : P.HostFree) (hclosed : P.Closed)
    {g : Goal sg 0} (hg : g.HostFree) (hst : st.WellScoped)
    (hvars : g.All st.Covers fun _ => True) :
    (∀ s k a, P.run g st = .ok s → s.Nth P.start k a →
      a.WellScoped ∧ st.Extends a ∧ st.MintedBy (P.Mints g st) a) ∧
    ∀ b label, P.Mints g st b label →
      b.WellScoped ∧ st.Extends b ∧ b.IsNew (b.fresh label).1 := by
  have hfits : Closure.Fits ⟨0, g, .empty, .outermost⟩ st :=
    ⟨hst, hg, Scope.related_empty, hvars⟩
  constructor
  · intro s k a h hnth
    have hs := Goal.apply_after hP hclosed hfits h
    obtain ⟨hscoped, hext⟩ := hs.nth (P.lineage hP hclosed) hnth
    exact ⟨hscoped, hext, P.mintedBy_of_nth hP hg h hnth⟩
  · intro b label h
    have hle : st.Precedes b := by
      rcases h with h | ⟨s, t, h, hleads, hmints⟩
      · exact h.precedes hfits
      · have hs := Goal.apply_after hP hclosed hfits h
        exact hmints.precedes hP hclosed
          (hs.leads (P.lineage hP hclosed) hleads)
    exact ⟨hle.1, hle.2, hle.1.isNew_fresh label⟩

/-- Both sides of a disjunction mint a second variable.  The left side binds
    the first one to its own; then the right side calls a relation, which
    mints a third variable, and the sibling's are not in its way. -/
theorem Program.search_fresh_siblings :
    let st := ((State.initial .checked).fresh "q").2
    let g : Goal ⟨Unit, fun _ => 1, Empty⟩ 0 :=
      .disj (.fresh "left" (.eq (.given (.var ⟨0, "q"⟩)) (.bound 0)))
        (.fresh "right" (.call 4 () [.bound 0] rfl))
    let b := (st.fresh "right").2
    st.WellScoped ∧ (g.All st.Covers fun _ => True) ∧
    (∃ s, Program.unary.run g st = .ok s ∧
      ∀ k a, s.Nth Program.unary.start k a → a.WellScoped ∧ st.Extends a ∧
        st.MintedBy (Program.unary.Mints g st) a) ∧
    Program.unary.Mints g st b "m" ∧ b.WellScoped ∧ st.Extends b ∧
    b.IsNew ⟨2, "m"⟩ := by
  intro st g b
  have hg : g.HostFree := ⟨trivial, trivial⟩
  have hst : st.WellScoped := (State.wellScoped_initial .checked).fresh "q"
  have hvars : g.All st.Covers fun _ => True :=
    ⟨⟨State.covers_fresh (.initial .checked) "q", trivial⟩, trivial, trivial⟩
  obtain ⟨hanswers, hnew⟩ :=
    Program.unary.search_fresh unary_hostFree unary_closed hg hst hvars
  have hmints : Program.unary.Mints g st b "m" :=
    -- the left side answers, and then the call of the right side is resumed
    .inr ⟨_, _, rfl, .yield rfl (.refl _), _, _, .call, .right .here⟩
  exact ⟨hst, hvars, ⟨_, rfl, fun k a => hanswers _ k a rfl⟩, hmints,
    hnew b "m" hmints⟩

end LogicSearch
