import LogicSearch.Proofs.Traversal

/-! # The limit of a walk is exact

    A walk counts the bindings that it follows, and rather than follow more
    than there are it gives up (`WalkLoop`).  Nothing is lost by that and
    nothing is spared:

    - a chain that ends has no more variables than there are bindings, so a
      walk finds the end of every chain that has one (`walk_eq_ok_iff_chain`),
      also of one that goes through all bindings;
    - a walk gives up at the chains that have no end (`walk_eq_error_iff`),
      whatever leads into the circle;
    - a smaller limit would miss ends: `ladder n` has `n` bindings, and its
      longest chain goes through all of them (`chain_ladder`). -/

namespace LogicSearch.Substitution

variable {s : Substitution}

/-! ## The loop with its counter -/

/-- What a walk from `origin` comes to when it has followed `steps` bindings
    and they led to the term.  It stops where nothing can be followed, and it
    gives up rather than follow more bindings than there are. -/
inductive WalkLoop (s : Substitution) (origin : Var) :
    Nat → Term → Except Error Term → Prop where
  | stop {steps : Nat} {t : Term} : s.IsEnd t →
      WalkLoop s origin steps t (.ok t)
  | follow {steps : Nat} {x : Var} {t : Term} {r : Except Error Term} :
      s.get? x = some t → steps + 1 ≤ s.size →
      WalkLoop s origin (steps + 1) t r →
      WalkLoop s origin steps (.var x) r
  | giveUp {steps : Nat} {x : Var} {t : Term} :
      s.get? x = some t → s.size < steps + 1 →
      WalkLoop s origin steps (.var x)
        (.error (.cyclicBinding origin (steps + 1)))

/-- The loop comes to one result. -/
theorem WalkLoop.unique {origin : Var} {steps : Nat} {t : Term}
    {r r' : Except Error Term} (h : s.WalkLoop origin steps t r)
    (h' : s.WalkLoop origin steps t r') : r = r' := by
  induction h with
  | stop hend =>
      cases h' with
      | stop _ => rfl
      | follow hx _ _ => rw [hend _ rfl] at hx; cases hx
      | giveUp hx _ => rw [hend _ rfl] at hx; cases hx
  | follow hx hle _ ih =>
      cases h' with
      | stop hend => rw [hend _ rfl] at hx; cases hx
      | follow hx' _ hrest =>
          rw [hx] at hx'
          cases hx'
          exact ih hrest
      | giveUp _ hlt => omega
  | giveUp hx hlt =>
      cases h' with
      | stop hend => rw [hend _ rfl] at hx; cases hx
      | follow _ hle _ => omega
      | giveUp _ _ => rfl

/-- With as many steps left as the limit allows, the loop finds the end if
    there is one in reach. -/
theorem walkLoop_ok (origin : Var) {n : Nat} {t u : Term}
    (h : s.chase n t = some u) {steps : Nat} (hn : steps + n = s.size) :
    s.WalkLoop origin steps t (.ok u) := by
  have hloop : ∀ steps, steps + n = s.size →
      s.WalkLoop origin steps t (.ok u) := by
    refine chase_back_induct (motive := fun n t => ∀ steps,
      steps + n = s.size → s.WalkLoop origin steps t (.ok u)) ?_ ?_ h
    · intro n hend steps _
      exact .stop hend
    · intro n x v hx ih steps hn
      exact .follow hx (by omega) (ih (steps + 1) (by omega))
  exact hloop steps hn

/-- And gives up if there is none, just beyond the limit. -/
theorem walkLoop_error (origin : Var) {n : Nat} {t : Term}
    (h : s.chase n t = none) {steps : Nat} (hn : steps + n = s.size) :
    s.WalkLoop origin steps t
      (.error (.cyclicBinding origin (s.size + 1))) := by
  induction n generalizing steps t with
  | zero =>
      rcases s.isEnd_or_bound t with hend | ⟨x, u, rfl, hx⟩
      · rw [chase_of_isEnd hend] at h
        cases h
      · rw [← hn]
        exact .giveUp hx (by omega)
  | succ n ih =>
      rcases s.isEnd_or_bound t with hend | ⟨x, u, rfl, hx⟩
      · rw [chase_of_isEnd hend] at h
        cases h
      · rw [chase_succ hx] at h
        exact .follow hx (by omega) (ih h (by omega))

/-- **THE LOOP ENDS** with what a walk comes to. -/
theorem walkLoop_iff {x : Var} {r : Except Error Term} :
    s.WalkLoop x 0 (.var x) r ↔ s.walk (.var x) = r := by
  have hloop : s.WalkLoop x 0 (.var x) (s.walk (.var x)) := by
    rw [walk]
    cases h : s.chase s.size (.var x) with
    | some u => exact walkLoop_ok x h (Nat.zero_add _)
    | none => exact walkLoop_error x h (Nat.zero_add _)
  constructor
  · intro h
    exact hloop.unique h
  · rintro rfl
    exact hloop

/-! ## Chains without a limit -/

/-- From the first term, bindings lead through the variables of the list to
    the second term, where nothing can be followed any more. -/
inductive Chain (s : Substitution) : List Var → Term → Term → Prop where
  | nil {u : Term} : s.IsEnd u → Chain s [] u u
  | cons {x : Var} {t u : Term} {xs : List Var} : s.get? x = some t →
      Chain s xs t u → Chain s (x :: xs) (.var x) u

theorem Chain.isEnd {xs : List Var} {t u : Term} (h : s.Chain xs t u) :
    s.IsEnd u := by
  induction h with
  | nil hend => exact hend
  | cons _ _ ih => exact ih

theorem Chain.chase {xs : List Var} {t u : Term} (h : s.Chain xs t u) :
    s.chase xs.length t = some u := by
  induction h with
  | nil hend => exact chase_of_isEnd hend 0
  | cons hx _ ih =>
      rw [List.length_cons, chase_succ hx]
      exact ih

/-- **IT TAKES AS MANY STEPS AS THERE ARE VARIABLES**, and no fewer. -/
theorem Chain.takes {xs : List Var} {t u : Term} (h : s.Chain xs t u) :
    s.Takes xs.length t := by
  refine ⟨⟨u, h.chase⟩, ?_⟩
  induction h with
  | nil _ =>
      intro m hm
      cases hm
  | cons hx _ ih =>
      intro m hm
      cases m with
      | zero => exact chase_zero hx
      | succ m =>
          rw [chase_succ hx]
          exact ih m (Nat.lt_of_succ_lt_succ hm)

/-- **A WALK FINDS EVERY END**, however long the chain. -/
theorem walk_eq_ok_iff_chain {t u : Term} :
    s.walk t = .ok u ↔ ∃ xs, s.Chain xs t u := by
  rw [walk_eq_ok_iff]
  constructor
  · rintro ⟨n, hn⟩
    refine chase_back_induct (motive := fun _ t => ∃ xs, s.Chain xs t u)
      ?_ ?_ hn
    · intro _ hend
      exact ⟨[], .nil hend⟩
    · rintro _ x v hx ⟨xs, hxs⟩
      exact ⟨x :: xs, .cons hx hxs⟩
  · rintro ⟨xs, hxs⟩
    exact ⟨xs.length, hxs.chase⟩

/-! ## Chains without an end -/

theorem Endless.chase {x : Var} (h : s.Endless x) (n : Nat) :
    s.chase n (.var x) = none := by
  obtain ⟨chain, hstart, hnext⟩ := h
  have hnone : ∀ k, s.chase n (.var (chain k)) = none := by
    induction n with
    | zero =>
        intro k
        exact chase_zero (hnext k)
    | succ n ih =>
        intro k
        rw [chase_succ (hnext k)]
        exact ih (k + 1)
  rw [← hstart]
  exact hnone 0

/-- **A WALK GIVES UP AT THE CHAINS WITHOUT AN END**, and at no others. -/
theorem walk_eq_error_iff {t : Term} {e : Error} :
    s.walk t = .error e ↔ ∃ x, t = .var x ∧ s.Endless x ∧
      e = .cyclicBinding x (s.size + 1) := by
  constructor
  · intro h
    obtain ⟨x, rfl, rfl⟩ := eq_of_walk_error h
    exact ⟨x, rfl, endless_of_walk h, rfl⟩
  · rintro ⟨x, rfl, hx, rfl⟩
    rw [walk, hx.chase]

/-! ## A chain through all bindings -/

/-- The variables with the ids up to `n`, each bound to the one before. -/
def ladder : Nat → Substitution
  | 0 => .empty
  | n + 1 => ⟨(ladder n).entries.insert (n + 1) ⟨"", .var ⟨n, ""⟩⟩⟩

theorem value?_ladder (n i : Nat) : (ladder n).value? i
    = if 0 < i ∧ i ≤ n then some (.var ⟨i - 1, ""⟩) else none := by
  induction n with
  | zero =>
      have hno : ¬ (0 < i ∧ i ≤ 0) := by omega
      rw [if_neg hno]
      exact value?_empty i
  | succ n ih =>
      rw [value?] at ih
      rw [value?, ladder, Std.ExtTreeMap.getElem?_insert]
      by_cases hi : i = n + 1
      · subst hi
        simp
      · have hbelow : (0 < i ∧ i ≤ n + 1) ↔ (0 < i ∧ i ≤ n) := by omega
        simp only [Std.compare_eq_iff_eq, Ne.symm hi, hbelow]
        exact ih

theorem extend_ladder (n : Nat) :
    (ladder n).extend ⟨n + 1, ""⟩ (.var ⟨n, ""⟩) = .ok (ladder (n + 1)) := by
  refine extend_eq_ok_iff.mpr ⟨?_, rfl⟩
  have hno : ¬ (0 < n + 1 ∧ n + 1 ≤ n) := by omega
  rw [get?, value?_ladder, if_neg hno]

theorem size_ladder (n : Nat) : (ladder n).size = n := by
  induction n with
  | zero => exact size_empty
  | succ n ih => rw [size_extend (extend_ladder n), ih]

/-- From every variable the chain goes down to the first. -/
theorem chain_ladder {n k : Nat} (hk : k ≤ n) :
    ∃ xs, xs.length = k ∧
      (ladder n).Chain xs (.var ⟨k, ""⟩) (.var ⟨0, ""⟩) := by
  induction k with
  | zero =>
      refine ⟨[], rfl, .nil (isEnd_var ?_)⟩
      rw [get?, value?_ladder]
      rfl
  | succ k ih =>
      obtain ⟨xs, hlen, hxs⟩ := ih (Nat.le_of_succ_le hk)
      refine ⟨⟨k + 1, ""⟩ :: xs, by rw [List.length_cons, hlen], .cons ?_ hxs⟩
      rw [get?, value?_ladder, if_pos ⟨Nat.succ_pos k, hk⟩]
      rfl

/-! ## The limit -/

/-- **THE LIMIT OF A WALK IS EXACT.**  Under every substitution and from
    every term

    - the loop comes to an end, and to what `walk` says;
    - a walk fails if and only if it starts at a variable from which bindings
      can be followed for ever; the error names that variable, and one step
      more than there are bindings;
    - otherwise it finds the end of the chain, which is an unbound variable
      or no variable, after at most as many steps as there are bindings.

    And there are substitutions of every size with a chain through all of
    their bindings: its end is found, and would not be with fewer steps. -/
theorem walk_exact :
    (∀ (s : Substitution) (t : Term),
      (∀ x r, t = .var x → (s.WalkLoop x 0 t r ↔ s.walk t = r)) ∧
      (∀ e, s.walk t = .error e ↔ ∃ x, t = .var x ∧ s.Endless x ∧
        e = .cyclicBinding x (s.size + 1)) ∧
      (∀ u, s.walk t = .ok u ↔ ∃ xs, s.Chain xs t u) ∧
      ∀ xs u, s.Chain xs t u → s.IsEnd u ∧ xs.length ≤ s.size) ∧
    ∀ n, ∃ (s : Substitution) (x : Var) (xs : List Var) (u : Term),
      s.size = n ∧ xs.length = n ∧ s.Chain xs (.var x) u ∧
      s.walk (.var x) = .ok u ∧ ∀ m < n, s.chase m (.var x) = none := by
  constructor
  · intro s t
    refine ⟨?_, fun e => walk_eq_error_iff, fun u => walk_eq_ok_iff_chain, ?_⟩
    · rintro x r rfl
      exact walkLoop_iff
    · intro xs u h
      exact ⟨h.isEnd, h.takes.le_size⟩
  · intro n
    obtain ⟨xs, hlen, hxs⟩ := chain_ladder (Nat.le_refl n)
    refine ⟨ladder n, ⟨n, ""⟩, xs, .var ⟨0, ""⟩, size_ladder n, hlen, hxs,
      walk_eq_ok_iff_chain.mpr ⟨xs, hxs⟩, ?_⟩
    intro m hm
    exact hxs.takes.2 m (by omega)

end LogicSearch.Substitution
