import LogicSearch.Substitution.Basic
import Mathlib.Data.List.Perm.Subperm
import Mathlib.Data.List.Nodup
import Mathlib.Data.Nat.Find

/-! # Chains of variables

    `walk` gives up after as many steps as there are bindings.  That limit
    costs nothing: the variables of a chain that ends are bound and different
    from each other (`chase_variables`), so there are no more of them than
    bindings, and `walk` finds the end of every chain that has one
    (`walk_eq_ok_iff`).

    What a walk finds is an `IsEnd`, and walking on from there stays. -/

namespace LogicSearch.Substitution

variable {s : Substitution}

/-! ## One step of a chain -/

theorem chase_unbound {x : Var} (h : s.get? x = none) (n : Nat) :
    s.chase n (.var x) = some (.var x) :=
  chase.eq_1 s x n h

theorem chase_zero {x : Var} {t : Term} (h : s.get? x = some t) :
    s.chase 0 (.var x) = none :=
  chase.eq_2 s x t h

theorem chase_succ {x : Var} {t : Term} (h : s.get? x = some t) (n : Nat) :
    s.chase (n + 1) (.var x) = s.chase n t :=
  chase.eq_3 s x t n h

/-! ## Ends -/

/-- The term is no variable or an unbound one. -/
def IsEnd (s : Substitution) (t : Term) : Prop :=
  ∀ x, t = .var x → s.get? x = none

theorem isEnd_atom (a : Atom) : s.IsEnd (.atom a) :=
  fun _ h => nomatch h

theorem isEnd_composite (m : Option Mark) (ts : List Term) :
    s.IsEnd (.composite m ts) :=
  fun _ h => nomatch h

theorem isEnd_var {x : Var} (h : s.get? x = none) : s.IsEnd (.var x) := by
  intro y hy
  cases hy
  exact h

theorem chase_of_isEnd {t : Term} (h : s.IsEnd t) (n : Nat) :
    s.chase n t = some t := by
  cases t with
  | var x => exact chase_unbound (h x rfl) n
  | atom a => rw [chase]; exact fun _ hx => nomatch hx
  | composite m ts => rw [chase]; exact fun _ hx => nomatch hx

/-- A step towards an end exists from everything that is no end. -/
theorem isEnd_or_bound (s : Substitution) (t : Term) :
    s.IsEnd t ∨ ∃ x u, t = .var x ∧ s.get? x = some u := by
  cases t with
  | var x =>
      cases hx : s.get? x with
      | none => exact .inl (isEnd_var hx)
      | some u => exact .inr ⟨x, u, rfl, hx⟩
  | atom a => exact .inl (isEnd_atom a)
  | composite m ts => exact .inl (isEnd_composite m ts)

/-- A chain read backwards from its end: what the end has and every step
    hands back to the term before it, the first term has. -/
theorem chase_back_induct {motive : Nat → Term → Prop} {u : Term}
    (stop : ∀ n, s.IsEnd u → motive n u)
    (step : ∀ n x v, s.get? x = some v → motive n v →
      motive (n + 1) (.var x)) :
    ∀ {n : Nat} {t : Term}, s.chase n t = some u → motive n t := by
  intro n
  induction n with
  | zero =>
      intro t h
      rcases s.isEnd_or_bound t with ht | ⟨x, v, rfl, hx⟩
      · rw [chase_of_isEnd ht] at h
        cases h
        exact stop 0 ht
      · rw [chase_zero hx] at h
        exact nomatch h
  | succ n ih =>
      intro t h
      rcases s.isEnd_or_bound t with ht | ⟨x, v, rfl, hx⟩
      · rw [chase_of_isEnd ht] at h
        cases h
        exact stop (n + 1) ht
      · rw [chase_succ hx] at h
        exact step n x v hx (ih h)

/-- A chain holds what its first term has and what its steps pass on. -/
theorem chase_induct {motive : Term → Prop} {n : Nat} {t u : Term}
    (h : s.chase n t = some u) (start : motive t)
    (step : ∀ x v, s.get? x = some v → motive (.var x) → motive v) :
    motive u := by
  -- Read backwards, what is handed on is that the rest of the chain keeps it.
  have hkeeps : motive t → motive u := by
    refine chase_back_induct (motive := fun _ t => motive t → motive u)
      ?_ ?_ h
    · intro _ _ hu
      exact hu
    · intro _ x v hx hrest ht
      exact hrest (step x v hx ht)
  exact hkeeps start

/-- More steps find the same end. -/
theorem chase_mono {m n : Nat} {t u : Term} (h : s.chase m t = some u)
    (hmn : m ≤ n) : s.chase n t = some u := by
  have hmore : ∀ n, m ≤ n → s.chase n t = some u := by
    refine chase_back_induct
      (motive := fun m t => ∀ n, m ≤ n → s.chase n t = some u) ?_ ?_ h
    · intro _ hu n _
      exact chase_of_isEnd hu n
    · intro m x v hx hrest n hn
      obtain ⟨k, rfl⟩ : ∃ k, n = k + 1 := ⟨n - 1, by omega⟩
      rw [chase_succ hx]
      exact hrest k (by omega)
  exact hmore n hmn

/-- A chain has one end. -/
theorem chase_unique {m n : Nat} {t u v : Term} (hu : s.chase m t = some u)
    (hv : s.chase n t = some v) : u = v := by
  have hu' := chase_mono hu (Nat.le_max_left m n)
  have hv' := chase_mono hv (Nat.le_max_right m n)
  rw [hu'] at hv'
  exact Option.some.inj hv'

/-- The end of a chain is an end. -/
theorem isEnd_of_chase {n : Nat} {t u : Term} (h : s.chase n t = some u) :
    s.IsEnd u :=
  chase_back_induct (motive := fun _ _ => s.IsEnd u) (fun _ hu => hu)
    (fun _ _ _ _ hu => hu) h

/-! ## A chain is no longer than the substitution -/

/-- Different bound variables are no more than there are bindings. -/
theorem length_le_size {ids : List Nat} (hnodup : ids.Nodup)
    (hbound : ∀ i ∈ ids, (s.value? i).isSome) : ids.length ≤ s.size := by
  have hsub : ids ⊆ s.entries.keys := by
    intro i hi
    have hi' := hbound i hi
    rw [value?, Option.isSome_map] at hi'
    rw [Std.ExtTreeMap.mem_keys, ← Std.ExtTreeMap.contains_iff_mem,
      Std.ExtTreeMap.contains_eq_isSome_getElem?]
    exact hi'
  have hle := (List.subperm_of_subset hnodup hsub).length_le
  rw [Std.ExtTreeMap.length_keys] at hle
  exact hle

/-- It takes `n` steps from the term to its end, and no fewer. -/
def Takes (s : Substitution) (n : Nat) (t : Term) : Prop :=
  (∃ u, s.chase n t = some u) ∧ ∀ m < n, s.chase m t = none

/-- The first step of a chain is one of its steps. -/
theorem Takes.step {n : Nat} {t : Term} (h : s.Takes (n + 1) t) :
    ∃ x u, t = .var x ∧ s.get? x = some u ∧ s.Takes n u := by
  obtain ⟨⟨v, hv⟩, hless⟩ := h
  rcases s.isEnd_or_bound t with ht | ⟨x, u, rfl, hx⟩
  · have h0 := hless 0 (Nat.succ_pos n)
    rw [chase_of_isEnd ht] at h0
    exact nomatch h0
  · refine ⟨x, u, rfl, hx, ⟨v, ?_⟩, fun m hm => ?_⟩
    · rw [← chase_succ hx]
      exact hv
    · rw [← chase_succ hx]
      exact hless (m + 1) (by omega)

/-- The variables of a chain are bound and different from each other, because
    each is nearer to the end than the one before. -/
theorem chase_variables {n : Nat} {t : Term} (h : s.Takes n t) :
    ∃ ids : List Nat, ids.length = n ∧ ids.Nodup ∧ ∀ i ∈ ids,
      (s.value? i).isSome ∧ ∃ m ≤ n, ∃ x : Var, x.id = i
        ∧ 0 < m ∧ s.Takes m (.var x) := by
  induction n generalizing t with
  | zero => exact ⟨[], rfl, List.nodup_nil, nofun⟩
  | succ n ih =>
      obtain ⟨x, u, rfl, hx, hu⟩ := h.step
      obtain ⟨ids, hlen, hnodup, hids⟩ := ih hu
      refine ⟨x.id :: ids, by rw [List.length_cons, hlen], ?_, ?_⟩
      · refine List.nodup_cons.mpr ⟨?_, hnodup⟩
        intro hmem
        -- A later variable with the same number has the same value, so the
        -- end is as near from here as from there: too near.
        obtain ⟨-, m, hm, y, hy, hpos, ⟨⟨v, hv⟩, -⟩⟩ := hids _ hmem
        obtain ⟨k, rfl⟩ : ∃ k, m = k + 1 := ⟨m - 1, by omega⟩
        have hy' : s.get? y = some u := by rw [get?_congr hy, hx]
        have hnone := h.2 (k + 1) (by omega)
        rw [chase_succ hy'] at hv
        rw [chase_succ hx, hv] at hnone
        exact nomatch hnone
      · intro i hi
        rcases List.mem_cons.mp hi with rfl | hi
        · refine ⟨?_, n + 1, Nat.le_refl _, x, rfl, Nat.succ_pos n, h⟩
          rw [← get?, hx]
          rfl
        · obtain ⟨hb, m, hm, hrest⟩ := hids i hi
          exact ⟨hb, m, by omega, hrest⟩

/-- So there are no more of them than bindings. -/
theorem Takes.le_size {n : Nat} {t : Term} (h : s.Takes n t) :
    n ≤ s.size := by
  obtain ⟨ids, rfl, hnodup, hids⟩ := chase_variables h
  exact length_le_size hnodup fun i hi => (hids i hi).1

/-- **AS MANY STEPS AS BINDINGS ARE ENOUGH** for every chain that ends. -/
theorem chase_size {n : Nat} {t u : Term} (h : s.chase n t = some u) :
    s.chase s.size t = some u := by
  have hex : ∃ m, (s.chase m t).isSome := ⟨n, by rw [h]; rfl⟩
  have htakes : s.Takes (Nat.find hex) t := by
    refine ⟨Option.isSome_iff_exists.mp (Nat.find_spec hex), ?_⟩
    intro m hm
    exact Option.not_isSome_iff_eq_none.mp (Nat.find_min hex hm)
  obtain ⟨v, hv⟩ := htakes.1
  rw [chase_unique h hv]
  exact chase_mono hv htakes.le_size

/-! ## Walking -/

/-- **A WALK FINDS EVERY END.** -/
theorem walk_eq_ok_iff {t u : Term} :
    s.walk t = .ok u ↔ ∃ n, s.chase n t = some u := by
  constructor
  · intro h
    refine ⟨s.size, ?_⟩
    cases t with
    | var x =>
        rw [walk] at h
        cases hc : s.chase s.size (.var x) with
        | none => rw [hc] at h; exact nomatch h
        | some v => rw [hc] at h; cases h; rfl
    | atom a => cases h; exact chase_of_isEnd (isEnd_atom a) _
    | composite m ts => cases h; exact chase_of_isEnd (isEnd_composite m ts) _
  · rintro ⟨n, hn⟩
    have h := chase_size hn
    cases t with
    | var x => rw [walk, h]
    | atom a => rw [chase_of_isEnd (isEnd_atom a)] at h; cases h; rfl
    | composite m ts =>
        rw [chase_of_isEnd (isEnd_composite m ts)] at h
        cases h
        rfl

/-- Only a walk from a variable fails, and it fails in one way. -/
theorem eq_of_walk_error {t : Term} {e : Error} (h : s.walk t = .error e) :
    ∃ x, t = .var x ∧ e = .cyclicBinding x (s.size + 1) := by
  cases t with
  | var x =>
      refine ⟨x, rfl, ?_⟩
      rw [walk] at h
      cases hc : s.chase s.size (.var x) with
      | none => rw [hc] at h; cases h; rfl
      | some u => rw [hc] at h; cases h
  | atom a => cases h
  | composite m ts => cases h

theorem walk_of_isEnd {t : Term} (h : s.IsEnd t) : s.walk t = .ok t :=
  walk_eq_ok_iff.mpr ⟨0, chase_of_isEnd h 0⟩

theorem isEnd_of_walk {t u : Term} (h : s.walk t = .ok u) : s.IsEnd u := by
  obtain ⟨n, hn⟩ := walk_eq_ok_iff.mp h
  exact isEnd_of_chase hn

/-- A bound variable has the end of its value. -/
theorem walk_bound {x : Var} {t u : Term} (hx : s.get? x = some t) :
    s.walk (.var x) = .ok u ↔ s.walk t = .ok u := by
  rw [walk_eq_ok_iff, walk_eq_ok_iff]
  constructor
  · rintro ⟨n, hn⟩
    cases n with
    | zero => rw [chase_zero hx] at hn; exact nomatch hn
    | succ n =>
        rw [chase_succ hx] at hn
        exact ⟨n, hn⟩
  · rintro ⟨n, hn⟩
    refine ⟨n + 1, ?_⟩
    rw [chase_succ hx]
    exact hn

/-- Walking keeps what the first term has and what the values of variables
    have. -/
theorem walk_induct {motive : Term → Prop} {t u : Term}
    (h : s.walk t = .ok u) (start : motive t)
    (step : ∀ x v, s.get? x = some v → motive (.var x) → motive v) :
    motive u := by
  obtain ⟨n, hn⟩ := walk_eq_ok_iff.mp h
  exact chase_induct hn start step

end LogicSearch.Substitution
