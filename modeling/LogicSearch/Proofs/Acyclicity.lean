import LogicSearch.Proofs.Chain
import LogicSearch.Substitution.Graph
import Mathlib.Data.Finset.Card

/-! # Acyclic substitutions

    Under an acyclic substitution references lead down: the number of bound
    variables that can be reached drops with every one of them (`rank_lt`).
    So there is an induction over terms that goes through the values of
    variables (`Acyclic.induct`), and every walk comes to its end
    (`Acyclic.walk`).

    A binding closes a cycle only if the variable could be reached from its
    new value (`Acyclic.extend`). -/

namespace LogicSearch.Substitution

variable {s s' : Substitution}

/-! ## The rank of a variable -/

/-- The ids of the bound variables. -/
def domain (s : Substitution) : Finset Nat := s.entries.keys.toFinset

theorem mem_domain {i : Nat} : i ∈ s.domain ↔ (s.value? i).isSome := by
  rw [domain, List.mem_toFinset, Std.ExtTreeMap.mem_keys,
    ← Std.ExtTreeMap.contains_iff_mem,
    Std.ExtTreeMap.contains_eq_isSome_getElem?, value?, Option.isSome_map]

theorem card_domain (s : Substitution) : s.domain.card = s.size := by
  rw [domain, size, ← Std.ExtTreeMap.length_keys]
  exact List.toFinset_card_of_nodup Std.ExtTreeMap.nodup_keys

open Classical in
/-- The ids of the bound variables that can be reached. -/
noncomputable def reachable (s : Substitution) (i : Nat) : Finset Nat :=
  s.domain.filter fun k => s.Reaches i k

theorem mem_reachable {i k : Nat} :
    k ∈ s.reachable i ↔ (s.value? k).isSome ∧ s.Reaches i k := by
  classical
  rw [reachable, Finset.mem_filter, mem_domain]

/-- The number of bound variables that can be reached. -/
noncomputable def rank (s : Substitution) (i : Nat) : Nat :=
  (s.reachable i).card

theorem rank_le_size (s : Substitution) (i : Nat) : s.rank i ≤ s.size := by
  refine (Finset.card_le_card ?_).trans s.card_domain.le
  intro k hk
  exact mem_domain.mpr (mem_reachable.mp hk).1

theorem Refers.isSome {i j : Nat} (h : s.Refers i j) :
    (s.value? i).isSome := by
  obtain ⟨t, ht, -⟩ := h
  rw [ht]
  rfl

theorem rank_le {i j : Nat} (h : s.Reaches i j) : s.rank j ≤ s.rank i := by
  refine Finset.card_le_card ?_
  intro k hk
  rw [mem_reachable] at hk ⊢
  exact ⟨hk.1, h.trans hk.2⟩

/-- References lead down: the variable that refers can no more be reached. -/
theorem Acyclic.rank_lt (hs : s.Acyclic) {i j : Nat} (h : s.Refers i j) :
    s.rank j < s.rank i := by
  refine Finset.card_lt_card ((Finset.ssubset_iff_of_subset ?_).mpr ?_)
  · intro k hk
    rw [mem_reachable] at hk ⊢
    exact ⟨hk.1, .step h hk.2⟩
  · refine ⟨i, mem_reachable.mpr ⟨h.isSome, .refl i⟩, ?_⟩
    -- `i` cannot be reached from `j`, or the reference closed a cycle
    intro hi
    exact hs i j h (mem_reachable.mp hi).2

/-! ## Induction through the values of variables -/

/-- What holds of atoms and unbound variables and passes from values to their
    variables and from items to their composite holds of every term. -/
theorem Acyclic.induct (hs : s.Acyclic) {motive : Term → Prop}
    (unbound : ∀ x, s.get? x = none → motive (.var x))
    (bound : ∀ x t, s.get? x = some t → motive t → motive (.var x))
    (atom : ∀ a, motive (.atom a))
    (composite : ∀ m ts, (∀ t ∈ ts, motive t) → motive (.composite m ts))
    (t : Term) : motive t := by
  -- the outer induction is on a bound of the ranks, the inner on the term
  have main : ∀ n t, (∀ y ∈ t.vars, s.rank y.id < n) → motive t := by
    intro n
    induction n using Nat.strong_induction_on with
    | _ n ihn =>
        intro t ht
        induction t with
        | var x =>
            have hxn := ht x (List.mem_singleton_self x)
            cases hx : s.get? x with
            | none => exact unbound x hx
            | some v =>
                refine bound x v hx (ihn (s.rank x.id) hxn v ?_)
                intro y hy
                exact hs.rank_lt ⟨v, hx, y, hy, rfl⟩
        | atom a => exact atom a
        | composite m ts ih =>
            refine composite m ts ?_
            intro t hmem
            refine ih t hmem ?_
            intro y hy
            exact ht y (Term.mem_vars_composite.mpr ⟨t, hmem, hy⟩)
  exact main (s.size + 1) t fun y _ =>
    Nat.lt_succ_of_le (s.rank_le_size y.id)

/-- **WALKS END** under an acyclic substitution. -/
theorem Acyclic.walk (hs : s.Acyclic) (t : Term) :
    ∃ u, s.walk t = .ok u := by
  induction t using hs.induct with
  | unbound x hx => exact ⟨.var x, walk_of_isEnd (isEnd_var hx)⟩
  | bound x t hx ih =>
      obtain ⟨u, hu⟩ := ih
      exact ⟨u, (walk_bound hx).mpr hu⟩
  | atom a => exact ⟨.atom a, rfl⟩
  | composite m ts _ => exact ⟨.composite m ts, rfl⟩

/-! ## Reaching an unbound variable -/

theorem reachesFrom_var {x : Var} {j : Nat} :
    s.ReachesFrom (.var x) j ↔ s.Reaches x.id j := by
  simp [ReachesFrom, Term.vars]

/-- From a bound variable goes on what goes on from its value. -/
theorem reaches_bound {x : Var} {t : Term} {j : Nat}
    (hx : s.get? x = some t) :
    s.Reaches x.id j ↔ j = x.id ∨ s.ReachesFrom t j := by
  constructor
  · intro h
    cases h with
    | refl => exact .inl rfl
    | step href hrest =>
        obtain ⟨v, hv, y, hy, rfl⟩ := href
        rw [← get?, hx] at hv
        cases hv
        exact .inr ⟨y, hy, hrest⟩
  · rintro (rfl | ⟨y, hy, hrest⟩)
    · exact .refl _
    · exact .step ⟨t, hx, y, hy, rfl⟩ hrest

/-- An unbound variable is reached from a term or from the end of its
    chain. -/
theorem reachesFrom_walk {t u : Term} {j : Nat} (h : s.walk t = .ok u)
    (hj : s.value? j = none) : s.ReachesFrom t j ↔ s.ReachesFrom u j := by
  refine walk_induct (motive := fun v => s.ReachesFrom t j
    ↔ s.ReachesFrom v j) h Iff.rfl ?_
  intro x v hx ih
  rw [ih, reachesFrom_var, reaches_bound hx]
  refine or_iff_right ?_
  intro hjx
  rw [hjx, ← get?, hx] at hj
  cases hj

/-! ## One more binding -/

/-- References after an extension are the old ones and those of the new
    value. -/
theorem refers_extend {x : Var} {t : Term} (h : s.extend x t = .ok s')
    {i j : Nat} : s'.Refers i j ↔
      s.Refers i j ∨ i = x.id ∧ ∃ y ∈ t.vars, y.id = j := by
  have hx : s.value? x.id = none := (extend_eq_ok_iff.mp h).1
  have hvalue : s'.value? i = if i = x.id then some t else s.value? i :=
    get?_extend h ⟨i, ""⟩
  unfold Refers
  rw [hvalue]
  by_cases hi : i = x.id
  · simp [hi, hx]
  · simp [hi]

/-- A way after an extension goes through the new binding at most once,
    unless that closes a cycle. -/
theorem reaches_extend {x : Var} {t : Term} (h : s.extend x t = .ok s')
    (hxt : ¬ s.ReachesFrom t x.id) {i j : Nat} (hij : s'.Reaches i j) :
    s.Reaches i j ∨ s.Reaches i x.id ∧ s.ReachesFrom t j := by
  induction hij with
  | refl i => exact .inl (.refl i)
  | step href _ ih =>
      rcases (refers_extend h).mp href with hold | ⟨rfl, y, hy, rfl⟩
      · rcases ih with ih | ⟨ihx, iht⟩
        · exact .inl (.step hold ih)
        · exact .inr ⟨.step hold ihx, iht⟩
      · rcases ih with ih | ⟨ihx, -⟩
        · exact .inr ⟨.refl _, y, hy, ih⟩
        · exact absurd ⟨y, hy, ihx⟩ hxt

/-- **NO CYCLE IS CLOSED** by a value from which its variable cannot be
    reached. -/
theorem Acyclic.extend (hs : s.Acyclic) {x : Var} {t : Term}
    (h : s.extend x t = .ok s') (hxt : ¬ s.ReachesFrom t x.id) :
    s'.Acyclic := by
  intro i j href hback
  -- the reference is old or new, and so is the way back; only two old ones
  -- make a cycle that there was before
  rcases (refers_extend h).mp href with hold | ⟨rfl, y, hy, rfl⟩
  · rcases reaches_extend h hxt hback with hji | ⟨hjx, z, hz, hzi⟩
    · exact hs i j hold hji
    · exact hxt ⟨z, hz, hzi.trans (.step hold hjx)⟩
  · rcases reaches_extend h hxt hback with hyx | ⟨hyx, -⟩
    · exact hxt ⟨y, hy, hyx⟩
    · exact hxt ⟨y, hy, hyx⟩

end LogicSearch.Substitution
