import LogicSearch.Proofs.ChainEnds
import LogicSearch.Proofs.HostFree
import LogicSearch.Proofs.TruthSearch

/-! # No search breaks its substitution

    A search that is started in the state in which nothing is bound never
    meets a broken substitution, whatever its goal is and with or without
    the occurs check.  What holds of every state on every branch depends on
    the settings (`State.Intact`): all chains have ends, and with the occurs
    check the substitution is acyclic.  Minting and unifying keep it, and a
    unification in an intact state can fail only by having no answer
    (`State.kept_intact`). -/

namespace LogicSearch

/-- All chains have ends, and with the occurs check there are no cycles at
    all. -/
structure State.Intact (st : State) : Prop where
  chains : st.substitution.ChainsEnd
  acyclic : st.config = .checked → st.substitution.Acyclic

namespace State

variable {st : State}

theorem intact_of_acyclic (h : st.substitution.Acyclic) : st.Intact :=
  ⟨h.chainsEnd, fun _ => h⟩

theorem intact_initial (config : Config) : (initial config).Intact :=
  intact_of_acyclic Substitution.acyclic_empty

/-- With the occurs check, intact is checked. -/
theorem Intact.checked (h : st.Intact) (hconfig : st.config = .checked) :
    st.Checked :=
  ⟨hconfig, h.acyclic hconfig⟩

/-- Without it, unification does not fail and keeps the ends of chains. -/
theorem Intact.unify_unchecked (h : st.Intact)
    (hconfig : st.config = .unchecked) (u v : Term) :
    (st.unify u v).KeepsChains := by
  rw [unify, hconfig]
  exact h.chains.unify_unchecked u v

theorem Intact.unify (h : st.Intact) {u v : Term} {s : Substitution}
    (hs : st.unify u v = .unified s) : (st.withSubstitution s).Intact := by
  rcases st.config.checked_or_unchecked with hconfig | hconfig
  · exact intact_of_acyclic ((h.checked hconfig).unify hs).acyclic
  · have hchains := h.unify_unchecked hconfig u v
    rw [hs] at hchains
    have hne : st.config ≠ .checked := by
      rw [hconfig]
      decide
    exact ⟨hchains, fun hc => absurd hc hne⟩

/-- No substitution of an intact state is broken. -/
theorem Intact.unify_ne_broken (h : st.Intact) (u v : Term) (e : Error) :
    st.unify u v ≠ .broken e := by
  intro hbroken
  rcases st.config.checked_or_unchecked with hconfig | hconfig
  · rcases (h.checked hconfig).unify_cases u v with hclash | ⟨s, hs⟩
    · exact nomatch hbroken.symm.trans hclash
    · exact nomatch hbroken.symm.trans hs
  · have hchains := h.unify_unchecked hconfig u v
    rw [hbroken] at hchains
    exact hchains

/-- **A SEARCH KEEPS ITS STATES INTACT**, and only a unification without an
    answer can end it early. -/
theorem kept_intact : State.Kept Intact (· = .unanswered) where
  fresh _ hst := ⟨hst.chains, hst.acyclic⟩
  unify hst h := hst.unify h
  broken hst h := absurd h (hst.unify_ne_broken _ _ _)
  unanswered _ _ := rfl

end State

/-! ## Searches -/

namespace Stream

variable {α γ ε : Type} {run : γ → α → Except ε (Stream α γ)}

/-- A pull is given up where a step is. -/
theorem exists_of_pull_error {fuel : Nat} {s : Stream α γ} {e : ε}
    (h : s.pull run fuel = .error e) :
    ∃ t, Leads run s t ∧ t.advance run = .error e := by
  induction fuel generalizing s with
  | zero => cases h
  | succ fuel ih =>
      rw [pull] at h
      cases hs : s.advance run with
      | error e' =>
          rw [hs] at h
          cases h
          exact ⟨s, .refl s, hs⟩
      | ok m =>
          rw [hs] at h
          cases m with
          | done => cases h
          | yield a rest => cases h
          | pending rest =>
              obtain ⟨t, ht, he⟩ := ih h
              exact ⟨t, .pending hs ht, he⟩
          | working rest =>
              obtain ⟨t, ht, he⟩ := ih h
              exact ⟨t, .working hs ht, he⟩

/-- What is left after an answer comes later in the search. -/
theorem leads_of_pull {fuel : Nat} {s rest : Stream α γ} {a : α}
    (h : s.pull run fuel = .ok (.answer a rest)) : Leads run s rest := by
  induction fuel generalizing s with
  | zero => cases h
  | succ fuel ih =>
      rw [pull] at h
      cases hs : s.advance run with
      | error e => rw [hs] at h; cases h
      | ok m =>
          rw [hs] at h
          cases m with
          | done => cases h
          | yield b r =>
              cases h
              exact .yield hs (.refl _)
          | pending r => exact .pending hs (ih h)
          | working r => exact .working hs (ih h)

/-- A series of pulls is given up where a step is. -/
theorem exists_of_harvest_aborted {fuel count : Nat} {s : Stream α γ}
    {e : ε} (h : (s.harvest run fuel count).2 = .aborted e) :
    ∃ t, Leads run s t ∧ t.advance run = .error e := by
  induction count generalizing s with
  | zero => cases h
  | succ count ih =>
      rw [harvest] at h
      cases hs : s.pull run fuel with
      | error e' =>
          rw [hs] at h
          cases h
          exact exists_of_pull_error hs
      | ok found =>
          rw [hs] at h
          cases found with
          | exhausted => cases h
          | unfinished rest => cases h
          | answer a rest =>
              obtain ⟨t, ht, he⟩ := ih h
              exact ⟨t, (leads_of_pull hs).trans ht, he⟩

/-- Where no step fails, no series of pulls does. -/
theorem NeverAborts.harvest_ne_aborted {s : Stream α γ}
    (h : s.NeverAborts run) (fuel count : Nat) (e : ε) :
    (s.harvest run fuel count).2 ≠ .aborted e := by
  intro he
  obtain ⟨t, ht, herr⟩ := exists_of_harvest_aborted he
  obtain ⟨m, hm⟩ := h t ht
  rw [hm] at herr
  cases herr

end Stream

variable {sg : Signature} {P : Program sg}

/-- Suspended work keeps states intact. -/
theorem Program.start_intact (hP : P.HostFree) (c : Closure sg)
    (st : State) (hc : c.HostFree) (hst : st.Intact) :
    Meets (Stream.Every State.Intact Closure.HostFree) (· = .unanswered)
      (P.start c st) :=
  P.start_kept State.kept_intact hP c st hc hst

/-- From an intact state, a search is given up only for a unification
    without an answer. -/
theorem Program.abort_eq_unanswered (hP : P.HostFree) {g : Goal sg 0}
    (hg : g.HostFree) {st : State} (hst : st.Intact) :
    (∀ e, P.run g st = .error e → e = .unanswered) ∧
    ∀ s t e, P.run g st = .ok s → s.Leads P.start t →
      t.advance P.start = .error e → e = .unanswered := by
  have hrun : Meets (Stream.Every State.Intact Closure.HostFree)
      (· = .unanswered) (P.run g st) :=
    Goal.apply_kept State.kept_intact hP hg hst
  constructor
  · intro e h
    exact hrun.error h
  · intro s t e h hst he
    exact (hrun.ok h).allowed_of_leads (P.start_intact hP) hst he

/-- **NO SEARCH FROM THE EMPTY STATE MEETS A BROKEN SUBSTITUTION.**  With and
    without the occurs check, starting the goal, every step that the search
    ever takes, and so every series of pulls, is given up only if a
    unification has no answer: never with an error. -/
theorem Program.solve_unbroken (hP : P.HostFree) {g : Goal sg 0}
    (hg : g.HostFree) (config : Config) :
    (∀ e, P.solve g config = .error e → e = .unanswered) ∧
    ∀ s, P.solve g config = .ok s →
      (∀ t e, s.Leads P.start t → t.advance P.start = .error e →
        e = .unanswered) ∧
      ∀ fuel count e, (P.harvest fuel count s).2 = .aborted e →
        e = .unanswered := by
  obtain ⟨hstart, hsteps⟩ :=
    P.abort_eq_unanswered hP hg (State.intact_initial config)
  refine ⟨hstart, ?_⟩
  intro s hs
  refine ⟨fun t e => hsteps s t e hs, ?_⟩
  intro fuel count e h
  obtain ⟨t, ht, he⟩ := Stream.exists_of_harvest_aborted h
  exact hsteps s t e hs ht he

/-- Without the occurs check, `x = (x)` gives `x` an infinite value, which is
    compared with one unary number after the other: none is equal, and no
    pull fails with an error. -/
theorem Program.solve_unbroken_knot :
    let g : Goal ⟨Unit, fun _ => 1, Empty⟩ 0 :=
      .fresh "x" (.fresh "y" (.conj
        (.eq (.bound 0) (.composite 3 [.bound 0]))
        (.conj (.call 4 () [.bound 1] rfl) (.eq (.bound 1) (.bound 0)))))
    Program.unary.HostFree ∧ g.HostFree ∧
    ∃ s, Program.unary.solve g .unchecked = .ok s ∧
      (∀ t e, s.Leads Program.unary.start t →
        t.advance Program.unary.start = .error e → e = .unanswered) ∧
      ∀ fuel count e,
        (Program.unary.harvest fuel count s).2 = .aborted e →
          e = .unanswered := by
  intro g
  have hg : g.HostFree := ⟨trivial, trivial, trivial⟩
  exact ⟨unary_hostFree, hg, _, rfl,
    (Program.unary.solve_unbroken unary_hostFree hg .unchecked).2 _ rfl⟩

end LogicSearch
