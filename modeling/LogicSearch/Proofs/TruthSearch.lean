import LogicSearch.Proofs.Agreement
import LogicSearch.Proofs.HostFree

/-! # Searching is deciding truth

    A checked search for a goal without host goals finds what is true and
    nothing else.

    - **Soundness**, by induction on the derivation: an assignment that
      satisfies an answer satisfies the state the goal was started in, and
      makes the goal true (`Derivation.holds`).  The term that a minted
      variable is assigned is the witness of the fresh variable.
    - **Completeness**, by induction on the truth of the goal: from a model
      of a state, a derivation leads to an answer with a model that agrees
      with the first on all variables there were (`Holds.derivation`).  A
      witness of a fresh variable is assigned to the minted one, which
      nothing in the state speaks about; equations that hold unify, as
      unification keeps all common solutions.

    That derivations are the answers of the pulls joins the two. -/

namespace LogicSearch

open Assignment

variable {sg : Signature} {P : Program sg} {θ θ' θ'' : Assignment}

/-! ## What is true of an answer was true before -/

/-- **SOUNDNESS**: what satisfies an answer satisfies the state it came from
    and makes the goal true. -/
theorem Derivation.holds (hP : P.HostFree) (hclosed : P.Closed)
    (hθ : θ.IsGround) {n : Nat} {g : Goal sg n} {scope : Scope n}
    {frame : Frame} {st a : State} (d : Derivation P g scope frame st a)
    (hg : g.HostFree) (ha : θ.Satisfies a.substitution) :
    θ.Satisfies st.substitution ∧ Holds P θ g scope frame := by
  induction d with
  | @eq n u v scope frame st s h =>
      have hkeeps := Substitution.unify_keeps st.config st.substitution
        (u.eval scope frame) (v.eval scope frame)
      rw [← State.unify, h] at hkeeps
      obtain ⟨hst, heq⟩ := (hkeeps θ).mp ha
      exact ⟨hst, .eq heq⟩
  | succeed => exact ⟨ha, .succeed⟩
  | conj _ _ ihd ihe =>
      obtain ⟨hb, hh⟩ := ihe hg.2 ha
      obtain ⟨hst, hg⟩ := ihd hg.1 hb
      exact ⟨hst, .conj hg hh⟩
  | left _ ih =>
      obtain ⟨hst, hg⟩ := ih hg.1 ha
      exact ⟨hst, .left hg⟩
  | right _ ih =>
      obtain ⟨hst, hh⟩ := ih hg.2 ha
      exact ⟨hst, .right hh⟩
  | @fresh n label body scope frame st a _ ih =>
      obtain ⟨hst, hbody⟩ := ih hg ha
      -- the minted variable is traded for the term it stands for
      refine ⟨hst, .fresh (θ st.counter) (hθ st.counter)
        (hbody.congr hclosed (fun _ => rfl) ?_ ?_)⟩
      · exact Scope.Related.push (fun i => sameValue_self _)
          (sameValue_var hθ ⟨st.counter, label⟩)
      · exact Goal.all_of_forall (fun t => sameValue_self t)
          (fun _ => trivial) body
  | letTerm _ ih =>
      obtain ⟨hst, hbody⟩ := ih hg ha
      exact ⟨hst, .letTerm hbody⟩
  | delay _ ih =>
      obtain ⟨hst, hbody⟩ := ih hg ha
      exact ⟨hst, .delay hbody⟩
  | always => exact ⟨ha, .always⟩
  | again _ ih => exact ih hg ha
  | @call n site r args fits scope frame st a _ ih =>
      obtain ⟨hst, hbody⟩ := ih (hP r) ha
      exact ⟨hst, .call hbody⟩
  | host _ _ => exact hg.elim

/-! ## Models of states -/

/-- The assignment is without variables and satisfies the state. -/
structure State.Model (st : State) (θ : Assignment) : Prop where
  ground : θ.IsGround
  satisfies : θ.Satisfies st.substitution

/-- A sound state that comes later, with a model that agrees on the variables
    of the earlier one. -/
structure Later (st : State) (θ : Assignment) (a : State)
    (θ' : Assignment) : Prop where
  sound : a.Sound
  model : a.Model θ'
  counter_le : st.counter ≤ a.counter
  agree : θ.AgreeBelow st.counter θ'

theorem Later.refl {st : State} (hst : st.Sound) (hθ : st.Model θ) :
    Later st θ st θ :=
  ⟨hst, hθ, Nat.le_refl _, fun _ _ => rfl⟩

theorem Later.trans {st b a : State} (h : Later st θ b θ')
    (h' : Later b θ' a θ'') : Later st θ a θ'' where
  sound := h'.sound
  model := h'.model
  counter_le := h.counter_le.trans h'.counter_le
  agree i hi :=
    (h.agree i hi).trans (h'.agree i (hi.trans_le h.counter_le))

namespace Assignment

/-- Terms below `n` have the same value if the assignments agree there. -/
theorem AgreeBelow.value {n : Nat} (h : θ.AgreeBelow n θ') {t : Term}
    (ht : t.Below n) : θ.value t = θ'.value t :=
  Term.instantiate_congr t fun x hx => h x.id (ht x hx)

/-- A substitution below `n` does not look at other variables. -/
theorem AgreeBelow.satisfies {n : Nat} (h : θ.AgreeBelow n θ')
    {s : Substitution} (hs : s.Below n) (hθ : θ.Satisfies s) :
    θ'.Satisfies s := by
  intro x t hx
  have hkey : (Term.var x).Below n := Term.below_var (hs.keys x.id t hx)
  have heq : θ.Equates (.var x) t := hθ x t hx
  rw [Equates, h.value hkey, h.value (hs.values x.id t hx)] at heq
  exact heq

/-- The first term stands under `θ` for what the second, which is below `n`,
    stands for under `θ'`. -/
def Reads (θ θ' : Assignment) (n : Nat) (t u : Term) : Prop :=
  θ.SameValue θ' t u ∧ u.Below n

theorem compatible_reads (θ θ' : Assignment) (n : Nat) :
    Compatible (θ.Reads θ' n) := by
  have hvalue := compatible_sameValue θ θ'
  have hbelow := Term.compatible_below n
  constructor
  · intro a
    exact ⟨hvalue.atom a, hbelow.atom a⟩
  · intro m ts us h
    refine ⟨hvalue.composite m (h.imp fun _ _ htu => htu.1), ?_⟩
    have hus : List.Forall₂ (fun u _ => u.Below n) us ts :=
      h.flip.imp fun _ _ htu => htu.2
    exact hbelow.composite m hus

theorem reads_of_ground {n : Nat} {t : Term} (h : t.IsGround) :
    θ.Reads θ' n t t :=
  ⟨sameValue_of_ground h, Term.below_of_ground h⟩

/-- Later states read the same. -/
theorem Reads.later {st a : State} (h : Later st θ' a θ'') {t u : Term}
    (htu : θ.Reads θ' st.counter t u) : θ.Reads θ'' a.counter t u := by
  obtain ⟨hvalue, hbelow⟩ := htu
  refine ⟨?_, hbelow.mono h.counter_le⟩
  rw [SameValue, ← h.agree.value hbelow]
  exact hvalue

/-- Assigning one variable anew. -/
theorem agreeBelow_update (θ : Assignment) (n : Nat) (t : Term) :
    θ.AgreeBelow n (Function.update θ n t) :=
  fun _ hi => (Function.update_of_ne hi.ne t θ).symm

theorem IsGround.update (hθ : θ.IsGround) (n : Nat) {t : Term}
    (ht : t.IsGround) : IsGround (Function.update θ n t) := by
  intro i
  by_cases hi : i = n
  · subst hi
    rw [Function.update_self]
    exact ht
  · rw [Function.update_of_ne hi]
    exact hθ i

end Assignment

/-- Minting a variable and assigning it a term. -/
theorem Later.fresh {st : State} (hst : st.Sound) (hθ : st.Model θ)
    (label : String) {t : Term} (ht : t.IsGround) :
    Later st θ (st.fresh label).2 (Function.update θ st.counter t) where
  sound := hst.fresh label
  model :=
    ⟨hθ.ground.update st.counter ht,
      (agreeBelow_update θ st.counter t).satisfies hst.below hθ.satisfies⟩
  counter_le := Nat.le_succ _
  agree := agreeBelow_update θ st.counter t

/-! ## What is true is found -/

/-- An equation that holds unifies, and the model stays one. -/
theorem Later.unify {st : State} (hst : st.Sound) (hθ : st.Model θ)
    {u v : Term} (hu : u.Below st.counter) (hv : v.Below st.counter)
    (heq : θ.Equates u v) :
    ∃ s, st.unify u v = .unified s ∧ Later st θ (st.withSubstitution s) θ := by
  have hkeeps := Substitution.unify_keeps st.config st.substitution u v
  rw [← State.unify] at hkeeps
  rcases hst.unify_cases u v with h | ⟨s, h⟩
  · rw [h] at hkeeps
    exact absurd ⟨hθ.satisfies, heq⟩ (hkeeps θ)
  · rw [h] at hkeeps
    have hmodel : θ.Satisfies s := (hkeeps θ).mpr ⟨hθ.satisfies, heq⟩
    exact ⟨s, h, hst.unify hu hv h, ⟨hθ.ground, hmodel⟩, Nat.le_refl _,
      fun _ _ => rfl⟩

/-- **COMPLETENESS**: from a model of a sound state, under which the goal
    reads as a true one, a derivation leads to a later state with a model
    that agrees with the first. -/
theorem Holds.derivation (hclosed : P.Closed) {n : Nat} {g : Goal sg n}
    {scope scope' : Scope n} {frame : Frame} {st : State}
    (h : Holds P θ g scope frame) (hst : st.Sound) (hθ : st.Model θ')
    (hscope : scope.Related (θ.Reads θ' st.counter) scope')
    (hg : g.All (fun t => θ.Reads θ' st.counter t t) fun _ => True) :
    ∃ a θ'', Nonempty (Derivation P g scope' frame st a) ∧
      Later st θ' a θ'' := by
  have hR := compatible_reads θ
  induction h generalizing θ' st with
  | @eq n u v scope frame heq =>
      have hu : θ.Reads θ' st.counter (u.eval scope frame)
          (u.eval scope' frame) := Expr.related_eval (hR _ _) hscope u hg.1
      have hv : θ.Reads θ' st.counter (v.eval scope frame)
          (v.eval scope' frame) := Expr.related_eval (hR _ _) hscope v hg.2
      obtain ⟨s, hs, hlater⟩ :=
        Later.unify hst hθ hu.2 hv.2 (heq.of_sameValue hu.1 hv.1)
      exact ⟨st.withSubstitution s, θ', ⟨.eq hs⟩, hlater⟩
  | succeed => exact ⟨st, θ', ⟨.succeed⟩, .refl hst hθ⟩
  | conj _ _ ihg ihh =>
      obtain ⟨b, θ₁, ⟨d⟩, hb⟩ := ihg hst hθ hscope hg.1
      -- the second goal is read under the model that the first leads to
      obtain ⟨a, θ₂, ⟨e⟩, ha⟩ := ihh hb.sound hb.model
        (fun i => (hscope i).later hb)
        (hg.2.mono (fun _ ht => ht.later hb) fun _ _ => trivial)
      exact ⟨a, θ₂, ⟨.conj d e⟩, hb.trans ha⟩
  | left _ ih =>
      obtain ⟨a, θ₁, ⟨d⟩, ha⟩ := ih hst hθ hscope hg.1
      exact ⟨a, θ₁, ⟨.left d⟩, ha⟩
  | right _ ih =>
      obtain ⟨a, θ₁, ⟨d⟩, ha⟩ := ih hst hθ hscope hg.2
      exact ⟨a, θ₁, ⟨.right d⟩, ha⟩
  | @fresh n label body scope frame t ht _ ih =>
      have hx := Later.fresh hst hθ label ht
      have hvar : θ.Reads (Function.update θ' st.counter t) (st.counter + 1)
          t (.var ⟨st.counter, label⟩) := by
        refine ⟨?_, Term.below_var (Nat.lt_succ_self _)⟩
        show (θ.value t).equal (Function.update θ' st.counter t _) = true
        rw [Function.update_self, Term.equal_comm]
        exact Term.equal_value_of_ground θ t ht
      obtain ⟨a, θ₁, ⟨d⟩, ha⟩ := ih hx.sound hx.model
        (Scope.Related.push (fun i => (hscope i).later hx) hvar)
        (Goal.All.mono (fun _ ht => ht.later hx) (fun _ _ => trivial) hg)
      exact ⟨a, θ₁, ⟨.fresh d⟩, hx.trans ha⟩
  | @letTerm n e body scope frame _ ih =>
      have he : θ.Reads θ' st.counter (e.eval scope frame)
          (e.eval scope' frame) := Expr.related_eval (hR _ _) hscope e hg.1
      obtain ⟨a, θ₁, ⟨d⟩, ha⟩ := ih hst hθ (hscope.push he) hg.2
      exact ⟨a, θ₁, ⟨.letTerm d⟩, ha⟩
  | delay _ ih =>
      obtain ⟨a, θ₁, ⟨d⟩, ha⟩ := ih hst hθ hscope hg
      exact ⟨a, θ₁, ⟨.delay d⟩, ha⟩
  | always => exact ⟨st, θ', ⟨.always⟩, .refl hst hθ⟩
  | @call n site r args fits scope frame _ ih =>
      have hbody : (P.body r).All
          (fun t => θ.Reads θ' st.counter t t) fun _ => True :=
        (hclosed r).mono (fun _ ht => reads_of_ground ht) fun _ _ => trivial
      obtain ⟨a, θ₁, ⟨d⟩, ha⟩ := ih hst hθ (hscope.evalArgs (hR _ _) hg) hbody
      exact ⟨a, θ₁, ⟨.call d⟩, ha⟩

/-! ## Searching is deciding truth -/

/-- **A GOAL IS TRUE IF AND ONLY IF THE SEARCH FINDS IT SO.**  From a state
    that minting and checked unification lead to, the search for a goal over
    the variables of the state starts and is never given up; and the goal is
    true under a model of the state if and only if some pull, after finitely
    many steps, answers a state that has a model which agrees with the first
    on the variables of the state. -/
theorem Program.holds_iff_answered (hP : P.HostFree) (hclosed : P.Closed)
    {good : Term → Prop} {st : State} (hst : State.Reached .checked good st)
    {g : Goal sg 0} (hg : g.HostFree)
    (hvars : g.All (fun t => ∀ x ∈ t.vars, st.Minted x) fun _ => True) :
    ∃ s, P.run g st = .ok s ∧ s.NeverAborts P.start ∧
      ∀ θ : Assignment, θ.IsGround → θ.Satisfies st.substitution →
        (Holds P θ g .empty .outermost ↔
          ∃ k a θ', s.Nth P.start k a ∧ θ.AgreeBelow st.counter θ' ∧
            θ'.IsGround ∧ θ'.Satisfies a.substitution) := by
  have hsound := hst.sound
  have hbelow : g.All (Term.Below st.counter) fun _ => True :=
    hvars.mono (fun _ ht x hx => hst.minted_lt (ht x hx)) fun _ _ => trivial
  obtain ⟨s, hrun, hs⟩ : ∃ s, P.run g st = .ok s ∧ Search.Checked s :=
    Goal.apply_checked hP hg hsound.toChecked
  have hrun' : P.hostless.run g st = .ok s :=
    (Goal.apply_hostless hg).trans hrun
  have hnever : s.NeverAborts P.hostless.start :=
    hs.neverAborts (P := P.hostless) hP
  have hsame : ∀ r, P.hostless.body r = P.body r := fun _ => rfl
  refine ⟨s, hrun, hs.neverAborts hP, ?_⟩
  intro θ hθ hsat
  obtain ⟨p⟩ := exists_applied P.hostless_lists hrun'
  constructor
  · intro h
    have h' : Holds P.hostless θ g .empty .outermost :=
      h.congr hclosed hsame Scope.related_empty
        (Goal.all_of_forall (fun t => sameValue_self t) (fun _ => trivial) g)
    obtain ⟨a, θ', ⟨d⟩, ha⟩ := h'.derivation (P := P.hostless) hclosed
      hsound ⟨hθ, hsat⟩ Scope.related_empty
      (hbelow.mono (fun t ht => ⟨sameValue_self t, ht⟩) fun _ _ => trivial)
    obtain ⟨e⟩ := p.nth_equiv P.hostless_lists hnever a
    have hnth := (hs.nth_hostless hP).mp (e.symm d).2
    exact ⟨_, a, θ', hnth, ha.agree, ha.model.ground, ha.model.satisfies⟩
  · rintro ⟨k, a, θ', hnth, hagree, hθ', ha⟩
    obtain ⟨e⟩ := p.nth_equiv P.hostless_lists hnever a
    have d := e ⟨k, (hs.nth_hostless hP).mpr hnth⟩
    have h := (d.holds (P := P.hostless) hP hclosed hθ' hg ha).2
    -- the goal speaks about the variables of the state only
    have hclosed' : P.hostless.Closed := hclosed
    refine h.congr hclosed' (fun r => (hsame r).symm) Scope.related_empty
      (hbelow.mono ?_ fun _ _ => trivial)
    intro t ht
    rw [SameValue, hagree.value ht]
    exact Term.equal_self _

/-- Unary numbers: `()`, and `(m)` for every unary number `m`. -/
def Program.unary : Program ⟨Unit, fun _ => 1, Empty⟩ where
  body _ :=
    .disj (.eq (.bound 0) (.composite 0 []))
      (.fresh "m" (.conj (.eq (.bound 0) (.composite 1 [.bound 1]))
        (.call 2 () [.bound 1] rfl)))
  host h := h.elim

theorem Program.unary_hostFree : Program.unary.HostFree :=
  fun _ => ⟨trivial, trivial, trivial⟩

theorem Program.unary_closed : Program.unary.Closed :=
  fun _ => ⟨⟨trivial, trivial⟩, ⟨trivial, trivial, trivial⟩, trivial,
    trivial⟩

/-- The search for the unary numbers finds `(())`. -/
theorem Program.holds_iff_answered_unary :
    let st : State := ((State.initial .checked).fresh "x").2
    let g : Goal ⟨Unit, fun _ => 1, Empty⟩ 0 :=
      .call 3 () [.given (.var ⟨0, "x"⟩)] rfl
    let θ : Assignment := fun _ => .composite none [.composite none []]
    State.Reached .checked (fun _ => True) st ∧
    Holds Program.unary θ g .empty .outermost ∧
    ∃ s, Program.unary.run g st = .ok s ∧
      ∃ k a θ', s.Nth Program.unary.start k a ∧ θ.AgreeBelow 1 θ' ∧
        θ'.IsGround ∧ θ'.Satisfies a.substitution := by
  intro st g θ
  have hst : State.Reached .checked (fun _ => True) st :=
    .fresh "x" .initial
  have hvars : g.All (fun t => ∀ x ∈ t.vars, st.Minted x) fun _ => True :=
    ⟨fun x hx => hx, trivial⟩
  have hfree : Program.unary.HostFree :=
    fun _ => ⟨trivial, trivial, trivial⟩
  have hclosed : Program.unary.Closed :=
    fun _ => ⟨⟨trivial, trivial⟩, ⟨trivial, trivial, trivial⟩,
      trivial, trivial⟩
  have hθ : θ.IsGround := fun _ => rfl
  have hsat : θ.Satisfies st.substitution := satisfies_empty θ
  have htrue : Holds Program.unary θ g .empty .outermost :=
    .call (.right (.fresh (.composite none []) rfl
      (.conj (.eq rfl) (.call (.left (.eq rfl))))))
  obtain ⟨s, hrun, -, hiff⟩ :=
    Program.holds_iff_answered hfree hclosed hst (g := g) trivial hvars
  exact ⟨hst, htrue, s, hrun, (hiff θ hθ hsat).mp htrue⟩

end LogicSearch
