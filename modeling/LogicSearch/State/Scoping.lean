import LogicSearch.State
import LogicSearch.Term.Variables

/-! # Scoping and history of states

    A state is well scoped if the minted variables have the ids below the
    counter, in order, and nothing else occurs in its substitution.
    `Reached` describes the states that minting and unification lead to, and
    `Arises` does so for unifications of terms of any kind. -/

namespace LogicSearch

namespace State

/-- The variable was minted in the state, with its label. -/
def Minted (st : State) (x : Var) : Prop := x ∈ st.minted

/-- The minted variables have the ids below the counter, and every variable
    of the substitution is one of them, label included. -/
structure WellScoped (st : State) : Prop where
  ids : st.history.map (·.id) = List.range st.counter
  keys : ∀ b ∈ st.substitution.bindings, st.Minted b.key
  values : ∀ b ∈ st.substitution.bindings, ∀ x ∈ b.value.vars, st.Minted x

/-- All variables of the term were minted in the state. -/
def Covers (st : State) (t : Term) : Prop := ∀ x ∈ t.vars, st.Minted x

/-- The variable is unbound and none of the variables that occur in values
    or were minted. -/
structure IsNew (st : State) (x : Var) : Prop where
  unbound : st.substitution.get? x = none
  absent : ∀ b ∈ st.substitution.bindings, ∀ y ∈ b.value.vars, y.id ≠ x.id
  distinct : ∀ y, st.Minted y → y.id ≠ x.id

/-- The state comes from the initial one by minting variables and by
    unifying terms over minted variables that are as asked. -/
inductive Reached (config : Config) (good : Term → Prop) : State → Prop where
  | initial : Reached config good (.initial config)
  | fresh {st : State} (label : String) : Reached config good st →
      Reached config good (st.fresh label).2
  | unify {st : State} {u v : Term} {s : Substitution} :
      Reached config good st → good u → good v →
      (∀ x ∈ u.vars, st.Minted x) → (∀ x ∈ v.vars, st.Minted x) →
      st.unify u v = .unified s → Reached config good (st.withSubstitution s)

/-- The state comes from an initial one by minting variables and by unifying
    terms of any kind, also over variables that were not minted. -/
inductive Arises : State → Prop where
  | initial (config : Config) : Arises (.initial config)
  | fresh {st : State} (label : String) : Arises st →
      Arises (st.fresh label).2
  | unify {st : State} {u v : Term} {s : Substitution} : Arises st →
      st.unify u v = .unified s → Arises (st.withSubstitution s)

/-- The second state has all that the first one has: its settings, its
    minted variables, oldest first, and its bindings. -/
structure Extends (st st' : State) : Prop where
  config : st'.config = st.config
  minted : st.history <+: st'.history
  bindings : ∀ b ∈ st.substitution.bindings, b ∈ st'.substitution.bindings

@[simp] theorem history_initial (config : Config) :
    (State.initial config).history = [] := rfl

/-- Minting appends the new variable. -/
theorem history_fresh (st : State) (label : String) :
    (st.fresh label).2.history
      = st.history ++ [(st.fresh label).1] := by
  rw [history, fresh]
  exact List.reverse_cons

theorem Extends.refl (st : State) : st.Extends st :=
  ⟨rfl, List.prefix_refl _, fun _ hb => hb⟩

theorem Extends.trans {a b c : State} (hab : a.Extends b)
    (hbc : b.Extends c) : a.Extends c :=
  ⟨hbc.config.trans hab.config, hab.minted.trans hbc.minted,
    fun d hd => hbc.bindings d (hab.bindings d hd)⟩

/-- Minting a variable keeps all there is. -/
theorem extends_fresh (st : State) (label : String) :
    st.Extends (st.fresh label).2 := by
  refine ⟨rfl, ?_, fun _ hb => hb⟩
  rw [history_fresh]
  exact List.prefix_append ..

end State

end LogicSearch
