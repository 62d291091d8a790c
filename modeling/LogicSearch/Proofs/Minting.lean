import LogicSearch.Proofs.CheckedUnification
import LogicSearch.Proofs.Evaluation
import LogicSearch.State.Scoping

/-! # Variables below the counter

    The variables of a state are those below its counter: nothing else is
    bound, occurs in a value or is in scope.  So a minted variable is new to
    all of them.  `State.Sound` adds what the occurs check keeps up: the
    substitution is acyclic.  Minting and unifying keep it, so every state
    that they lead to has it (`State.Reached.sound`). -/

namespace LogicSearch

/-- All variables of the term are below `n`. -/
def Term.Below (n : Nat) (t : Term) : Prop := ∀ x ∈ t.vars, x.id < n

/-- All variables that are bound or occur in values are below `n`. -/
structure Substitution.Below (n : Nat) (s : Substitution) : Prop where
  keys : ∀ i t, s.value? i = some t → i < n
  values : s.Over (Term.Below n)

/-- The occurs check is on, and there is nothing that it would forbid. -/
structure State.Checked (st : State) : Prop where
  config : st.config = .checked
  acyclic : st.substitution.Acyclic

/-- A checked state with nothing at or above its counter. -/
structure State.Sound (st : State) : Prop extends st.Checked where
  below : st.substitution.Below st.counter

namespace Term

theorem Below.mono {m n : Nat} {t : Term} (h : t.Below m) (hmn : m ≤ n) :
    t.Below n :=
  fun x hx => (h x hx).trans_le hmn

theorem below_of_ground {n : Nat} {t : Term} (h : t.IsGround) :
    t.Below n := by
  intro x hx
  have hvars : t.vars = [] := h
  rw [hvars] at hx
  exact nomatch hx

theorem below_var {n : Nat} {x : Var} (h : x.id < n) :
    (Term.var x).Below n := by
  intro y hy
  rw [List.mem_singleton.mp hy]
  exact h

/-- What is asked of all variables is handed on by the terms in scope. -/
theorem compatible_vars (q : Var → Prop) :
    Compatible fun t _ => ∀ x ∈ t.vars, q x := by
  constructor
  · intro a x hx
    exact nomatch hx
  · intro m ts us h x hx
    obtain ⟨t, ht, hxt⟩ := mem_vars_composite.mp hx
    obtain ⟨i, hi, rfl⟩ := List.getElem_of_mem ht
    exact h.get hi (h.length_eq ▸ hi) x hxt

theorem compatible_below (n : Nat) : Compatible fun t _ => t.Below n :=
  compatible_vars fun x => x.id < n

end Term

namespace Substitution

/-- And it passes from composites to their items. -/
theorem itemClosed_vars (q : Var → Prop) :
    ItemClosed fun t => ∀ x ∈ t.vars, q x :=
  fun _ _ h t ht x hx => h x (Term.mem_vars_composite.mpr ⟨t, ht, hx⟩)

theorem itemClosed_below (n : Nat) : ItemClosed (Term.Below n) :=
  itemClosed_vars fun x => x.id < n

theorem below_empty (n : Nat) : Below n .empty := by
  refine ⟨fun i t h => ?_, fun i t h => ?_⟩
  · rw [value?_empty] at h
    exact nomatch h
  · rw [value?_empty] at h
    exact nomatch h

theorem Below.mono {m n : Nat} {s : Substitution} (h : s.Below m)
    (hmn : m ≤ n) : s.Below n :=
  ⟨fun i t hi => (h.keys i t hi).trans_le hmn,
    fun i t hi => (h.values i t hi).mono hmn⟩

/-- Bindings of variables below to terms below stay below. -/
theorem Below.grows {config : Config} {n : Nat} {s s' : Substitution}
    (hs : s.Below n) (h : Grows config (Term.Below n) s s') :
    s'.Below n := by
  refine ⟨?_, h.over hs.values⟩
  have hkeys := hs.keys
  clear hs
  induction h with
  | refl s => exact hkeys
  | @add s s' _ x t hadd _ ih =>
      refine ih ?_
      intro i u hi
      rw [hadd.value?] at hi
      by_cases hix : i = x.id
      · rw [hix]
        exact hadd.key x (List.mem_singleton_self x)
      · rw [if_neg hix] at hi
        exact hkeys i u hi

/-- So does unifying terms below. -/
theorem Below.unify {config : Config} {n : Nat} {s s' : Substitution}
    {u v : Term} (hs : s.Below n) (hu : u.Below n) (hv : v.Below n)
    (h : s.unify config u v = .unified s') : s'.Below n := by
  have hgrow : Grows config (Term.Below n) s s' :=
    unify_grows (itemClosed_below n) hs.values.valueClosed hu hv h
  exact hs.grows hgrow

end Substitution

namespace State

variable {st : State}

theorem Checked.fresh (h : st.Checked) (label : String) :
    (st.fresh label).2.Checked := ⟨h.config, h.acyclic⟩

theorem Checked.unify (h : st.Checked) {u v : Term} {s : Substitution}
    (hs : st.unify u v = .unified s) : (st.withSubstitution s).Checked := by
  refine ⟨h.config, ?_⟩
  rw [State.unify, h.config] at hs
  exact h.acyclic.unify hs

/-- Unification is decided in a checked state. -/
theorem Checked.unify_cases (h : st.Checked) (u v : Term) :
    st.unify u v = .clash ∨ ∃ s, st.unify u v = .unified s := by
  rw [State.unify, h.config]
  exact h.acyclic.unify_cases u v

theorem sound_initial : (State.initial .checked).Sound where
  config := rfl
  acyclic := Substitution.acyclic_empty
  below := Substitution.below_empty 0

theorem Sound.fresh (h : st.Sound) (label : String) :
    (st.fresh label).2.Sound where
  toChecked := h.toChecked.fresh label
  below := h.below.mono (Nat.le_succ _)

theorem Sound.unify (h : st.Sound) {u v : Term} (hu : u.Below st.counter)
    (hv : v.Below st.counter) {s : Substitution}
    (hs : st.unify u v = .unified s) : (st.withSubstitution s).Sound where
  toChecked := h.toChecked.unify hs
  below := h.below.unify hu hv hs

/-- Minted variables are below the counter. -/
theorem Reached.minted_lt {config : Config} {good : Term → Prop}
    (h : Reached config good st) {x : Var} (hx : st.Minted x) :
    x.id < st.counter := by
  induction h with
  | initial => exact nomatch hx
  | fresh label _ ih =>
      rcases List.mem_cons.mp hx with rfl | hx
      · exact Nat.lt_succ_self _
      · exact (ih hx).trans (Nat.lt_succ_self _)
  | unify _ _ _ _ _ _ ih => exact ih hx

/-- **ALL THAT MINTING AND CHECKED UNIFICATION LEAD TO IS SOUND.** -/
theorem Reached.sound {good : Term → Prop}
    (h : Reached .checked good st) : st.Sound := by
  induction h with
  | initial => exact sound_initial
  | fresh label _ ih => exact ih.fresh label
  | unify hst _ _ hu hv hs ih =>
      refine ih.unify (fun x hx => ?_) (fun x hx => ?_) hs
      · exact hst.minted_lt (hu x hx)
      · exact hst.minted_lt (hv x hx)

end State

end LogicSearch
