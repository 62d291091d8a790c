import LogicSearch.Proofs.Occurrence
import LogicSearch.Substitution.Unfolding
import Mathlib.Data.Fintype.Pigeonhole

/-! # The budget is enough, and what errors are about

    A traversal enters a variable only if its value is a composite, and
    leaves it with the value, so the variables that it is inside of form a
    path along the references of the substitution (`Inside`).  They are
    bound and different from each other.  So a traversal whose budget is the
    number of bindings does what the recursion without a budget does
    (`Budgeted.traverses`), under every substitution.

    A variable that is entered a second time can be reached from its own
    value, and a chain without an end comes back to one of its variables.
    So an error is about a cycle (`Visits.fault`, `Fault.not_acyclicFrom`). -/

namespace LogicSearch

namespace Substitution

variable {s : Substitution}

/-! ## Chains without an end -/

/-- The variable that `x` is bound to, if it is bound to one. -/
def follow (s : Substitution) (x : Var) : Var :=
  match s.get? x with
  | some (.var y) => y
  | _ => x

/-- A variable whose walk fails is bound to such a variable. -/
theorem get?_follow {x : Var} (h : ∀ u, s.walk (.var x) ≠ .ok u) :
    s.get? x = some (.var (s.follow x)) ∧
      ∀ u, s.walk (.var (s.follow x)) ≠ .ok u := by
  rcases s.isEnd_or_bound (.var x) with hend | ⟨_, t, heq, hx⟩
  · exact absurd (walk_of_isEnd hend) (h _)
  · cases heq
    have ht : ∀ u, s.walk t ≠ .ok u := fun u hu => h u ((walk_bound hx).mpr hu)
    rcases s.isEnd_or_bound t with hend | ⟨y, v, rfl, -⟩
    · exact absurd (walk_of_isEnd hend) (ht _)
    · have hfollow : s.follow x = y := by
        rw [follow, hx]
      rw [hfollow]
      exact ⟨hx, ht⟩

/-- **A WALK FAILS ONLY AT A CHAIN WITHOUT AN END.** -/
theorem endless_of_walk {x : Var} {e : Error}
    (h : s.walk (.var x) = .error e) : s.Endless x := by
  have hfails : ∀ n u, s.walk (.var (s.follow^[n] x)) ≠ .ok u := by
    intro n
    induction n with
    | zero =>
        intro u hu
        rw [Function.iterate_zero_apply, h] at hu
        cases hu
    | succ n ih =>
        rw [Function.iterate_succ_apply']
        exact (get?_follow ih).2
  refine ⟨fun n => s.follow^[n] x, rfl, fun n => ?_⟩
  dsimp only
  rw [Function.iterate_succ_apply']
  exact (get?_follow (hfails n)).1

/-- The variables of such a chain are among finitely many, so one of them
    comes back. -/
theorem Endless.exists_cycle {x : Var} (h : s.Endless x) :
    ∃ i j, s.Reaches x.id i ∧ s.Refers i j ∧ s.Reaches j i := by
  obtain ⟨chain, hstart, hnext⟩ := h
  have hrefers : ∀ n, s.Refers (chain n).id (chain (n + 1)).id := fun n =>
    ⟨_, hnext n, _, List.mem_singleton_self _, rfl⟩
  have hreaches : ∀ m k, s.Reaches (chain m).id (chain (m + k)).id := by
    intro m k
    induction k with
    | zero => exact .refl _
    | succ k ih => exact ih.trans (.step (hrefers (m + k)) (.refl _))
  have hback : ∃ m k, (chain (m + 1 + k)).id = (chain m).id := by
    obtain ⟨m, n, hne, heq⟩ := Finite.exists_ne_map_eq_of_infinite
      fun n => (⟨(chain n).id, mem_domain.mpr (hrefers n).isSome⟩ : s.domain)
    have hid : (chain m).id = (chain n).id := congrArg Subtype.val heq
    rcases Nat.lt_or_gt_of_ne hne with hlt | hlt
    · exact ⟨m, n - (m + 1), by rw [Nat.add_sub_cancel' hlt, hid]⟩
    · exact ⟨n, m - (n + 1), by rw [Nat.add_sub_cancel' hlt, hid]⟩
  obtain ⟨m, k, hmk⟩ := hback
  refine ⟨(chain m).id, (chain (m + 1)).id, ?_, hrefers m, ?_⟩
  · have h0 := hreaches 0 m
    rw [hstart, Nat.zero_add] at h0
    exact h0
  · rw [← hmk]
    exact hreaches (m + 1) k

/-! ## The variables that a traversal is inside of -/

/-- What holds of the path when a traversal comes to `y`: the variables have
    composites for their values, they are different from each other, and `y`
    can be reached from the value of each of them. -/
structure Inside (s : Substitution) (path : List Var) (y : Var) : Prop where
  nodup : (path.map Var.id).Nodup
  above : ∀ p ∈ path, ∃ m ts, s.walk (.var p) = .ok (.composite m ts) ∧
    s.ReachesFrom (.composite m ts) y.id

theorem inside_nil (s : Substitution) (y : Var) : s.Inside [] y where
  nodup := List.nodup_nil
  above _ hp := absurd hp List.not_mem_nil

theorem isSome_of_walk {y : Var} {m : Option Mark} {ts : List Term}
    (h : s.walk (.var y) = .ok (.composite m ts)) :
    (s.value? y.id).isSome := by
  obtain ⟨v, hv⟩ := exists_get?_of_walk h
  rw [← get?, hv]
  rfl

/-- The value goes by the id. -/
theorem walk_of_same {p y : Var} {m : Option Mark} {ts : List Term}
    (h : s.walk (.var p) = .ok (.composite m ts)) (hid : p.id = y.id) :
    s.walk (.var y) = .ok (.composite m ts) := by
  obtain ⟨v, hp⟩ := exists_get?_of_walk h
  have hy : s.get? y = some v := by rw [← get?_congr hid, hp]
  exact (walk_bound hy).mpr ((walk_bound hp).mp h)

variable {path : List Var} {y : Var} {m : Option Mark} {ts : List Term}

theorem Inside.nodup_cons (h : s.Inside path y)
    (hnew : entered path y = false) : ((y :: path).map Var.id).Nodup := by
  refine List.nodup_cons.mpr ⟨?_, h.nodup⟩
  intro hmem
  obtain ⟨p, hp, hid⟩ := List.mem_map.mp hmem
  refine absurd (List.any_eq_true.mpr ⟨p, hp, ?_⟩) (Bool.eq_false_iff.mp hnew)
  exact beq_iff_eq.mpr hid

/-- From outside of a variable to inside of its value. -/
theorem Inside.enter (h : s.Inside path y)
    (hy : s.walk (.var y) = .ok (.composite m ts))
    (hnew : entered path y = false) {w : Var}
    (hw : w ∈ (Term.composite m ts).vars) : s.Inside (y :: path) w where
  nodup := h.nodup_cons hnew
  above p hp := by
    rcases List.mem_cons.mp hp with rfl | hp
    · exact ⟨m, ts, hy, w, hw, .refl _⟩
    · obtain ⟨m', ts', hp', hreach⟩ := h.above p hp
      obtain ⟨j, href, hjw⟩ := refers_of_walk hy hw
      exact ⟨m', ts', hp', hreach.trans (.step href hjw)⟩

/-- There is a binding for each variable of the path and one for the next. -/
theorem Inside.length_lt (h : s.Inside path y)
    (hy : s.walk (.var y) = .ok (.composite m ts))
    (hnew : entered path y = false) : path.length < s.size := by
  have hle := length_le_size (h.nodup_cons hnew) (s := s) (by
    intro i hi
    obtain ⟨p, hp, rfl⟩ := List.mem_map.mp hi
    rcases List.mem_cons.mp hp with rfl | hp
    · exact isSome_of_walk hy
    · obtain ⟨m', ts', hp', -⟩ := h.above p hp
      exact isSome_of_walk hp')
  rw [List.length_map, List.length_cons] at hle
  exact hle

/-- **A VARIABLE THAT IS MET AGAIN** can be reached from its own value. -/
theorem Inside.again (h : s.Inside path y)
    (hy : s.walk (.var y) = .ok (.composite m ts))
    (hagain : entered path y = true) :
    s.ReachesFrom (.composite m ts) y.id := by
  obtain ⟨p, hp, hpy⟩ := List.any_eq_true.mp hagain
  obtain ⟨m', ts', hp', hreach⟩ := h.above p hp
  have hy' := walk_of_same hp' (beq_iff_eq.mp hpy)
  rw [hy] at hy'
  cases hy'
  exact hreach

/-! ## The recursion with a budget and the one without -/

variable {β : Type} {v : Visitor β}

/-! ### What a traversal makes of a variable, by the end of its chain -/

theorem Visits.of_error {r : Except Error β} {e : Error}
    (h : s.Visits v path y r) (hy : s.walk (.var y) = .error e) :
    r = .error e := by
  cases h with
  | broken hy' => rw [hy] at hy'; cases hy'; rfl
  | leaf hy' _ => rw [hy] at hy'; cases hy'
  | again hy' _ => rw [hy] at hy'; cases hy'
  | inside hy' _ _ => rw [hy] at hy'; cases hy'

theorem Visits.of_leaf {r : Except Error β} {u : Term}
    (h : s.Visits v path y r) (hy : s.walk (.var y) = .ok u)
    (hu : ∀ m ts, u ≠ .composite m ts) : r = .ok (v.leaf u) := by
  cases h with
  | broken hy' => rw [hy] at hy'; cases hy'
  | leaf hy' _ => rw [hy] at hy'; cases hy'; rfl
  | again hy' _ => rw [hy] at hy'; cases hy'; exact absurd rfl (hu _ _)
  | inside hy' _ _ => rw [hy] at hy'; cases hy'; exact absurd rfl (hu _ _)

theorem Visits.of_again {r : Except Error β} (h : s.Visits v path y r)
    (hy : s.walk (.var y) = .ok (.composite m ts))
    (hagain : entered path y = true) : r = .error (.cyclicTerm y) := by
  cases h with
  | broken hy' => rw [hy] at hy'; cases hy'
  | leaf hy' hu => rw [hy] at hy'; cases hy'; exact absurd rfl (hu m ts)
  | again _ _ => rfl
  | inside _ hnew _ => rw [hagain] at hnew; cases hnew

theorem Visits.of_inside {r : Except Error β} (h : s.Visits v path y r)
    (hy : s.walk (.var y) = .ok (.composite m ts))
    (hnew : entered path y = false) :
    ∃ f, r = v.inside f (.composite m ts) ∧
      ∀ w ∈ (Term.composite m ts).vars, s.Visits v (y :: path) w (f w) := by
  cases h with
  | broken hy' => rw [hy] at hy'; cases hy'
  | leaf hy' hu => rw [hy] at hy'; cases hy'; exact absurd rfl (hu m ts)
  | again _ hagain => rw [hnew] at hagain; cases hagain
  | inside hy' _ hf => rw [hy] at hy'; cases hy'; exact ⟨_, rfl, hf⟩

/-- A traversal has one result. -/
theorem Visits.unique {r r' : Except Error β} (h : s.Visits v path y r)
    (h' : s.Visits v path y r') : r = r' := by
  induction h generalizing r' with
  | broken hy => exact (h'.of_error hy).symm
  | leaf hy hu => exact (h'.of_leaf hy hu).symm
  | again hy hagain => exact (h'.of_again hy hagain).symm
  | inside hy hnew _ ih =>
      obtain ⟨g, rfl, hg⟩ := h'.of_inside hy hnew
      exact v.inside_congr _ fun w hw => ih w hw (hg w hw)

/-! ### The budget -/

/-- One call of a traversal of variables, as long as its budget lasts. -/
structure Budgeted (s : Substitution) (v : Visitor β)
    (f : Nat → List Var → Var → Except Error β) : Prop where
  broken {n : Nat} {path : List Var} {y : Var} {e : Error} :
    s.walk (.var y) = .error e → f n path y = .error e
  leaf {n : Nat} {path : List Var} {y : Var} {u : Term} :
    s.walk (.var y) = .ok u → (∀ m ts, u ≠ .composite m ts) →
    f n path y = .ok (v.leaf u)
  again {n : Nat} {path : List Var} {y : Var} {m : Option Mark}
      {ts : List Term} : s.walk (.var y) = .ok (.composite m ts) →
    entered path y = true → f n path y = .error (.cyclicTerm y)
  inside {n : Nat} {path : List Var} {y : Var} {m : Option Mark}
      {ts : List Term} : s.walk (.var y) = .ok (.composite m ts) →
    entered path y = false →
    f (n + 1) path y = v.inside (f n (y :: path)) (.composite m ts)

theorem budgeted_resolveVar (s : Substitution) :
    s.Budgeted .resolving s.resolveVar where
  broken h := by rw [resolveVar.eq_def, h]
  leaf {_ _ _ u} h hu := by
    rw [resolveVar.eq_def, h]
    cases u with
    | composite m ts => exact absurd rfl (hu m ts)
    | var x => rfl
    | atom a => rfl
  again h hagain := by
    rw [resolveVar.eq_def, h]
    exact if_pos hagain
  inside h hnew := by
    rw [resolveVar.eq_def, h]
    exact if_neg (Bool.eq_false_iff.mp hnew)

theorem budgeted_occursVar (s : Substitution) (x : Var) :
    s.Budgeted (.finding x) (s.occursVar x) where
  broken h := by rw [occursVar.eq_def, h]
  leaf {_ _ _ u} h hu := by
    rw [occursVar.eq_def, h]
    cases u with
    | composite m ts => exact absurd rfl (hu m ts)
    | var x => rfl
    | atom a => rfl
  again h hagain := by
    rw [occursVar.eq_def, h]
    exact if_pos hagain
  inside h hnew := by
    rw [occursVar.eq_def, h]
    exact if_neg (Bool.eq_false_iff.mp hnew)

variable {f : Nat → List Var → Var → Except Error β}

/-- On a path of the recursion, the bindings that are left over for the
    budget are enough. -/
theorem Budgeted.visits (hf : s.Budgeted v f) {n : Nat}
    (h : s.Inside path y) (hn : path.length + n = s.size) :
    s.Visits v path y (f n path y) := by
  induction n using Nat.strong_induction_on generalizing path y with
  | _ n ih =>
      cases hy : s.walk (.var y) with
      | error e =>
          rw [hf.broken hy]
          exact .broken hy
      | ok u =>
          by_cases hu : ∀ m ts, u ≠ .composite m ts
          · rw [hf.leaf hy hu]
            exact .leaf hy hu
          · simp only [ne_eq, not_forall, not_not] at hu
            obtain ⟨m, ts, rfl⟩ := hu
            cases hp : entered path y with
            | true =>
                rw [hf.again hy hp]
                exact .again hy hp
            | false =>
                have hlt := h.length_lt hy hp
                obtain ⟨k, rfl⟩ : ∃ k, n = k + 1 := ⟨n - 1, by omega⟩
                rw [hf.inside hy hp]
                refine .inside hy hp fun w hw =>
                  ih k (Nat.lt_succ_self k) (h.enter hy hp hw) ?_
                rw [List.length_cons]
                omega

/-- From outside of all variables, the number of bindings is enough. -/
theorem Budgeted.visits_nil (hf : s.Budgeted v f) (y : Var) :
    s.Visits v [] y (f s.size [] y) :=
  hf.visits (s.inside_nil y) (Nat.zero_add _)

/-- **THE BUDGET CHANGES NOTHING**: with the number of bindings for it, a
    traversal comes to what the recursion without a budget comes to. -/
theorem Budgeted.traverses (hf : s.Budgeted v f) (t : Term)
    (r : Except Error β) :
    s.Traverses v t r ↔ v.inside (f s.size []) t = r := by
  constructor
  · rintro ⟨g, hg, rfl⟩
    exact v.inside_congr t fun y hy => (hf.visits_nil y).unique (hg y hy)
  · rintro rfl
    exact ⟨f s.size [], fun y _ => hf.visits_nil y, rfl⟩

/-! ## Errors -/

/-- **AN ERROR IS ABOUT A CYCLE** that can be reached. -/
theorem Visits.fault {t : Term} {e : Error}
    (h : s.Visits v path y (.error e)) (hin : s.Inside path y)
    (ht : s.ReachesFrom t y.id) : s.Fault t e := by
  generalize hr : (.error e : Except Error β) = r at h
  induction h with
  | broken hy =>
      cases hr
      obtain ⟨x, hx, rfl⟩ := eq_of_walk_error hy
      cases hx
      exact .endless ht (endless_of_walk hy)
  | leaf _ _ => cases hr
  | again hy hagain =>
      cases hr
      exact .infinite ht hy (hin.again hy hagain)
  | inside hy hnew _ ih =>
      obtain ⟨w, hw, hwe⟩ := v.exists_of_error hr.symm
      refine ih w hw (hin.enter hy hnew hw) ?_ hwe.symm
      obtain ⟨j, href, hjw⟩ := refers_of_walk hy hw
      exact ht.trans (.step href hjw)

theorem Traverses.fault {t : Term} {e : Error}
    (h : s.Traverses v t (.error e)) : s.Fault t e := by
  obtain ⟨f, hf, he⟩ := h
  obtain ⟨y, hy, hye⟩ := v.exists_of_error he
  have hvisits := hf y hy
  rw [hye] at hvisits
  exact hvisits.fault (s.inside_nil y) ⟨y, hy, .refl _⟩

/-- Either error needs a cycle. -/
theorem Fault.not_acyclicFrom {t : Term} {e : Error} (h : s.Fault t e) :
    ¬ s.AcyclicFrom t := by
  intro ht
  cases h with
  | infinite hx hwalk hback =>
      obtain ⟨w, hw, hwx⟩ := hback
      obtain ⟨j, href, hjw⟩ := refers_of_walk hwalk hw
      exact ht _ j hx href (hjw.trans hwx)
  | endless hx hendless =>
      obtain ⟨i, j, hi, href, hback⟩ := hendless.exists_cycle
      exact ht i j (hx.trans hi) href hback

end Substitution

end LogicSearch
