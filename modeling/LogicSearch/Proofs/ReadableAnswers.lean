import LogicSearch.Proofs.FullValues
import LogicSearch.Proofs.TruthSearch

/-! # The answers of a checked search can be read

    Reading a variable meets an error only where the substitution of the
    state has a cycle.  The occurs check keeps cycles out of every state of
    a search, and under an acyclic substitution every variable has a full
    value (`State.lookup_eq`), so all answers are `Readable`. -/

namespace LogicSearch

namespace State

variable {st : State}

/-- The variables that are left in the term are unbound in the state. -/
def Final (st : State) (t : Term) : Prop :=
  ∀ y ∈ t.vars, st.substitution.get? y = none

/-- The substitution has no cycle, and no way of reading a variable fails:
    not by the variable, not by its label, not with all minted variables.
    The values that are read are final. -/
structure Readable (st : State) : Prop where
  acyclic : st.substitution.Acyclic
  lookup (x : Var) : ∃ t, st.lookup x = .ok t ∧ st.Final t
  lookupNamed (label : String) : ∃ r, st.lookupNamed label = .ok r ∧
    ∀ t, r = some t → st.Final t
  bindings : ∃ bs, st.bindings = .ok bs ∧
    bs.map (·.key) = st.history ∧ ∀ b ∈ bs, st.Final b.value

theorem lookup_eq (h : st.substitution.Acyclic) (x : Var) :
    st.lookup x = .ok (st.substitution.fullValue x) :=
  h.resolve_eq (.var x)

theorem final_fullValue (h : st.substitution.Acyclic) (x : Var) :
    st.Final (st.substitution.fullValue x) :=
  fun _ hy => h.unbound_of_mem (.var x) hy

/-- All variables are read, to the last. -/
theorem lookupAll_eq (h : st.substitution.Acyclic) (xs : List Var) :
    st.lookupAll xs
      = .ok (xs.map fun x => ⟨x, st.substitution.fullValue x⟩) := by
  induction xs with
  | nil => rfl
  | cons x xs ih =>
      rw [lookupAll, lookup_eq h, ih]
      rfl

/-- **WITHOUT CYCLES A STATE IS READABLE.** -/
theorem readable (h : st.substitution.Acyclic) : st.Readable where
  acyclic := h
  lookup x := ⟨_, lookup_eq h x, final_fullValue h x⟩
  lookupNamed label := by
    rw [State.lookupNamed]
    cases st.named? label with
    | none => exact ⟨none, rfl, fun t ht => by cases ht⟩
    | some x =>
        dsimp only
        rw [lookup_eq h x]
        refine ⟨_, rfl, ?_⟩
        rintro t ⟨⟩
        exact final_fullValue h x
  bindings := by
    refine ⟨_, lookupAll_eq h st.history, ?_, ?_⟩
    · rw [List.map_map]
      exact List.map_id st.history
    · intro b hb
      obtain ⟨x, -, rfl⟩ := List.mem_map.mp hb
      exact final_fullValue h x

end State

variable {sg : Signature} {P : Program sg}

/-- **THE ANSWERS OF A CHECKED SEARCH CAN BE READ.**  The search is started,
    it is never given up, and whatever a pull of it answers is readable. -/
theorem Program.answers_readable (hP : P.HostFree) {g : Goal sg 0}
    (hg : g.HostFree) :
    ∃ s, P.solve g .checked = .ok s ∧ s.NeverAborts P.start ∧
      ∀ k a, s.Nth P.start k a → a.Readable := by
  have hinitial : (State.initial .checked).Checked :=
    ⟨rfl, Substitution.acyclic_empty⟩
  obtain ⟨s, hs, hevery⟩ : ∃ s, P.solve g .checked = .ok s ∧
      Search.Checked s := Goal.apply_checked hP hg hinitial
  refine ⟨s, hs, hevery.neverAborts hP, ?_⟩
  intro k a ha
  have hchecked : a.Checked :=
    Stream.Every.nth (P.start_kept State.kept_checked hP) hevery ha
  exact State.readable hchecked.acyclic

/-- `x = (y)`, and `y` is a unary number: the first answer reads `x` through
    `y`, which is bound later. -/
theorem Program.answers_readable_unary :
    let g : Goal ⟨Unit, fun _ => 1, Empty⟩ 0 :=
      .fresh "x" (.fresh "y" (.conj
        (.eq (.bound 0) (.composite 3 [.bound 1]))
        (.call 4 () [.bound 1] rfl)))
    Program.unary.HostFree ∧ g.HostFree ∧
    ∃ s, Program.unary.solve g .checked = .ok s ∧
      (∃ a, s.Nth Program.unary.start 0 a ∧ a.lookupNamed "x"
        = .ok (some (.composite none [.composite none []]))) ∧
      ∀ k a, s.Nth Program.unary.start k a → a.Readable := by
  intro g
  have hg : g.HostFree := ⟨trivial, trivial⟩
  obtain ⟨s, hs, -, hreadable⟩ :=
    Program.answers_readable unary_hostFree (g := g) hg
  refine ⟨unary_hostFree, hg, s, hs, ?_, hreadable⟩
  cases hs
  exact ⟨_, .working rfl (.pending rfl (.here rfl)), rfl⟩

end LogicSearch
