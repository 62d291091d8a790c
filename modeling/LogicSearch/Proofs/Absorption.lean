import LogicSearch.Proofs.OccursFilter
import LogicSearch.Proofs.ReadableAnswers

/-! # Later values absorb earlier ones

    Resolving a term stops at the variables that are unbound.  A substitution
    with more bindings may bind these, and to terms over variables that were
    replaced already.  Still it makes no difference whether a term is resolved
    under it at once or was resolved under the smaller one before
    (`Within.absorbs`): what was replaced would have been replaced in the same
    way.  With one substitution for both, resolving twice is resolving once.

    A state has the bindings of the states that it came from.  So a value
    that was read on the way to an answer can be resolved again in the
    answer, and comes to what the answer says (`Extends.readsThrough`). -/

namespace LogicSearch

namespace Substitution

variable {s s' : Substitution}

/-- What is bound in `s` is bound in `s'`, to an equal term. -/
def Within (s s' : Substitution) : Prop :=
  ∀ x t, s.get? x = some t → ∃ u, s'.get? x = some u ∧ t.equal u = true

/-- Resolved once more, the first term comes to the second. -/
def Rereads (s : Substitution) (t w : Term) : Prop :=
  ∃ u, s.resolve t = .ok u ∧ u.equal w = true

theorem within_of_bindings (h : ∀ b ∈ s.bindings, b ∈ s'.bindings) :
    s.Within s' := by
  intro x t hx
  obtain ⟨b, hb, hid, rfl⟩ := exists_mem_bindings hx
  refine ⟨b.value, ?_, Term.equal_self _⟩
  rw [← get?_congr hid]
  exact get?_of_mem_bindings (h b hb)

theorem within_refl (s : Substitution) : s.Within s :=
  within_of_bindings fun _ hb => hb

/-- Full values in the place of variables, and then those of the larger
    substitution: the induction goes through the values of the smaller one,
    and where it binds a variable, the larger one continues with the same
    term. -/
theorem Within.equal_instantiate (h : s.Within s') (hs : s.Acyclic)
    (hs' : s'.Acyclic) (t : Term) :
    ((t.instantiate s.fullValue).instantiate s'.fullValue).equal
      (t.instantiate s'.fullValue) = true := by
  induction t using hs.induct with
  | unbound x hx =>
      rw [Term.instantiate, fullValue_unbound hx]
      exact Term.equal_self _
  | bound x t hx ih =>
      obtain ⟨u, hu, htu⟩ := h x t hx
      have hvalues : (t.instantiate s'.fullValue).equal
          (u.instantiate s'.fullValue) = true :=
        Term.equal_instantiate_of_equal (fun _ _ => hs'.fullValue_congr) htu
      rw [Term.instantiate, Term.instantiate, hs.fullValue_bound hx,
        hs'.fullValue_bound hu]
      exact Term.equal_trans ih hvalues
  | atom a => exact Term.equal_self _
  | composite m ts ih =>
      rw [Term.instantiate, Term.instantiate, Term.instantiate,
        Term.equal_composite]
      simp only [Term.instantiateAll_eq_map, List.forall₂_map_left_iff,
        List.forall₂_map_right_iff, List.forall₂_same]
      exact ih

/-- **THE LATER RESOLUTION ABSORBS THE EARLIER ONE**, and none of them
    fails. -/
theorem Within.absorbs (h : s.Within s') (hs : s.Acyclic)
    (hs' : s'.Acyclic) (t : Term) :
    ∃ r w, s.resolve t = .ok r ∧ s'.resolve t = .ok w ∧ s'.Rereads r w :=
  ⟨_, _, hs.resolve_eq t, hs'.resolve_eq t, _, hs'.resolve_eq _,
    h.equal_instantiate hs hs' t⟩

end Substitution

/-! ## Reading again -/

namespace State

variable {st a : State}

/-- What is read in `st` comes in `a`, resolved once more, to what is read
    there: by the variable, by its label, and with all minted variables.  In
    `a` the label may have gone over to a variable that was minted later. -/
structure ReadsThrough (st a : State) : Prop where
  lookup (x : Var) : ∃ t w, st.lookup x = .ok t ∧ a.lookup x = .ok w ∧
    a.substitution.Rereads t w
  lookupNamed {label : String} {x : Var} : st.named? label = some x →
    ∃ t w, st.lookupNamed label = .ok (some t) ∧ a.lookup x = .ok w ∧
      a.substitution.Rereads t w ∧
      (a.lookupNamed label = .ok (some w) ∨
        ∃ y later, a.named? label = some y ∧ y ∈ later ∧
          a.history = st.history ++ later)
  bindings : ∃ bs cs, st.bindings = .ok bs ∧ a.bindings = .ok cs ∧
    List.Forall₂ (fun b c => c.key = b.key ∧
      a.substitution.Rereads b.value c.value) bs (cs.take bs.length)

theorem lookupNamed_eq {label : String} {x : Var}
    (hx : st.named? label = some x) {t : Term} (ht : st.lookup x = .ok t) :
    st.lookupNamed label = .ok (some t) := by
  rw [State.lookupNamed, hx]
  dsimp only
  rw [ht]
  rfl

/-- A label goes on to name its variable, or it names one minted later. -/
theorem Extends.named? (h : st.Extends a) {label : String} {x : Var}
    (hx : st.named? label = some x) :
    a.named? label = some x ∨ ∃ y later, a.named? label = some y ∧
      y ∈ later ∧ a.history = st.history ++ later := by
  obtain ⟨later, hlater⟩ := h.minted
  have hminted : a.minted = later.reverse ++ st.minted := by
    have hreverse := congrArg List.reverse hlater
    rw [List.reverse_append, history, history, List.reverse_reverse,
      List.reverse_reverse] at hreverse
    exact hreverse.symm
  rw [State.named?] at hx
  rw [State.named?, hminted, List.find?_append, hx]
  cases hy : later.reverse.find? fun y => y.label == label with
  | none => exact .inl rfl
  | some y =>
      have hmem := List.mem_reverse.mp (List.mem_of_find?_eq_some hy)
      exact .inr ⟨y, later, rfl, hmem, hlater.symm⟩

/-- **VALUES READ ON THE WAY** come to what the later state says. -/
theorem Extends.readsThrough (h : st.Extends a)
    (ha : a.substitution.Acyclic) : st.ReadsThrough a := by
  have hst := h.acyclic ha
  have hwithin := Substitution.within_of_bindings h.bindings
  have hreads : ∀ x, a.substitution.Rereads (st.substitution.fullValue x)
      (a.substitution.fullValue x) := fun x =>
    ⟨_, ha.resolve_eq _, hwithin.equal_instantiate hst ha (.var x)⟩
  refine ⟨fun x => ⟨_, _, lookup_eq hst x, lookup_eq ha x, hreads x⟩, ?_, ?_⟩
  · intro label x hx
    refine ⟨_, _, lookupNamed_eq hx (lookup_eq hst x), lookup_eq ha x,
      hreads x, ?_⟩
    rcases h.named? hx with hsame | hlater
    · exact .inl (lookupNamed_eq hsame (lookup_eq ha x))
    · exact .inr hlater
  · refine ⟨_, _, lookupAll_eq hst st.history, lookupAll_eq ha a.history, ?_⟩
    obtain ⟨later, hlater⟩ := h.minted
    rw [← hlater, List.map_append, List.length_map,
      List.take_left' (List.length_map ..), List.forall₂_map_left_iff,
      List.forall₂_map_right_iff, List.forall₂_same]
    intro x _
    exact ⟨rfl, hreads x⟩

end State

/-! ## In a search -/

/-- **LATER RESOLUTION ABSORBS EARLIER RESOLUTION.**

    - If an acyclic substitution has the bindings of another one, a term that
      was resolved under the smaller one and is resolved again under the
      larger one comes to what the term comes to under the larger one.
    - In particular, what was resolved stays as it is.
    - A checked search is never given up, and what was read in any state that
      an answer of it extends comes in the answer to what the answer says. -/
theorem Program.later_resolution_absorbs :
    (∀ s s' : Substitution, s.Acyclic → s'.Acyclic → s.Within s' →
      ∀ t, ∃ r u w, s.resolve t = .ok r ∧ s'.resolve r = .ok u ∧
        s'.resolve t = .ok w ∧ u.equal w = true) ∧
    (∀ s : Substitution, s.Acyclic → ∀ t, ∃ r u, s.resolve t = .ok r ∧
      s.resolve r = .ok u ∧ u.equal r = true) ∧
    ∀ (sg : Signature) (P : Program sg) (g : Goal sg 0),
      P.HostFree → g.HostFree →
      ∃ s, P.solve g .checked = .ok s ∧ s.NeverAborts P.start ∧
        ∀ k a, s.Nth P.start k a → ∀ st : State, st.Extends a →
          st.ReadsThrough a := by
  refine ⟨?_, ?_, ?_⟩
  · intro s s' hs hs' h t
    obtain ⟨r, w, hr, hw, u, hu, huw⟩ := h.absorbs hs hs' t
    exact ⟨r, u, w, hr, hu, hw, huw⟩
  · intro s hs t
    obtain ⟨r, w, hr, hw, u, hu, huw⟩ :=
      (Substitution.within_refl s).absorbs hs hs t
    cases hr.symm.trans hw
    exact ⟨r, u, hr, hu, huw⟩
  · intro sg P g hP hg
    obtain ⟨s, hs, hnever, hreadable⟩ := P.answers_readable hP hg
    refine ⟨s, hs, hnever, ?_⟩
    intro k a ha st hst
    exact hst.readsThrough (hreadable k a ha).acyclic

/-- `x = (y)`, and `y` is a unary number: what is read for `x` before `y` is
    known comes in the first answer to what is read there. -/
theorem Program.later_resolution_absorbs_unary :
    let x : Var := ⟨0, "x"⟩
    let y : Var := ⟨1, "y"⟩
    let g : Goal ⟨Unit, fun _ => 1, Empty⟩ 0 :=
      .fresh "x" (.fresh "y" (.conj
        (.eq (.bound 0) (.composite 3 [.bound 1]))
        (.call 4 () [.bound 1] rfl)))
    let st : State := ⟨⟨(∅ : Std.ExtTreeMap Nat Entry).insert 0
      ⟨"x", .composite (some ⟨3, .outermost⟩) [.var y]⟩⟩, 2, [y, x], .checked⟩
    st.substitution.Acyclic ∧ Program.unary.HostFree ∧ g.HostFree ∧
    (∃ r u, st.substitution.resolve (.var x) = .ok r ∧
      st.substitution.resolve r = .ok u ∧ u.equal r = true) ∧
    ∃ s a, Program.unary.solve g .checked = .ok s ∧
      s.Nth Program.unary.start 0 a ∧ st.Extends a ∧ st.ReadsThrough a ∧
      st.lookupNamed "x" = .ok (some (.composite none [.var y])) ∧
      a.lookupNamed "x"
        = .ok (some (.composite none [.composite none []])) := by
  intro x y g st
  have hbuilt : Substitution.Built (· = .checked) st.substitution :=
    .unify (u := .var x) (v := .composite (some ⟨3, .outermost⟩) [.var y])
      .empty rfl rfl
  have hg : g.HostFree := ⟨trivial, trivial⟩
  obtain ⟨-, hidempotent, hsearch⟩ := Program.later_resolution_absorbs
  obtain ⟨s, hs, -, hreads⟩ := hsearch _ Program.unary g unary_hostFree hg
  -- in the first answer `y` is `()`, as it is written in the relation
  let a : State := st.withSubstitution ⟨st.substitution.entries.insert 1
    ⟨"y", .composite (some ⟨0, Frame.outermost.enter 4⟩) []⟩⟩
  have hextends : st.Extends a := State.extends_unify (u := .var y)
    (v := .composite (some ⟨0, Frame.outermost.enter 4⟩) []) rfl
  have hfirst : s.Nth Program.unary.start 0 a := by
    cases hs
    exact .working rfl (.pending rfl (.here rfl))
  exact ⟨hbuilt.acyclic, unary_hostFree, hg,
    hidempotent _ hbuilt.acyclic (.var x), s, a, hs, hfirst, hextends,
    hreads 0 a hfirst st hextends, rfl, rfl⟩

end LogicSearch
