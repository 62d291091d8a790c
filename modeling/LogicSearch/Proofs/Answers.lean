import LogicSearch.Proofs.Fairness
import Mathlib.Data.Sum.Basic
import Mathlib.Tactic.Choose

/-! # Pulls and ways

    `Hits` ties the number of a pull to the way that its answer was reached
    by.  A pull hits one way and a way is hit by at most one pull, as a
    stream has one next step and a step keeps the ways one for one.  Where
    every way is delivered and the search is never given up, the pulls that
    answer `a` are as many as the ways to `a` (`nth_equiv_ways`). -/

namespace LogicSearch.Stream

variable {α γ ε : Type}

/-- However far the stream is advanced, the next step succeeds. -/
def NeverAborts (run : γ → α → Except ε (Stream α γ))
    (s : Stream α γ) : Prop :=
  ∀ t, Leads run s t → ∃ m, t.advance run = .ok m

variable {run : γ → α → Except ε (Stream α γ)}

theorem NeverAborts.of_leads {s t : Stream α γ} (h : s.NeverAborts run)
    (hst : Leads run s t) : t.NeverAborts run :=
  fun u htu => h u (hst.trans htu)

/-- The pull with number `k` answers what the way leads to. -/
inductive Hits (R : Reading run) : {s : Stream α γ} → {a : α} → Nat →
    s.Ways R.through a → Prop where
  | here {s rest : Stream α γ} {a : α} {w : s.Ways R.through a}
      (p : Advance run s (.yield a rest)) :
      p.ways R a w = .inl ⟨rfl⟩ → Hits R 0 w
  | later {s rest : Stream α γ} {a b : α} {k : Nat}
      {w : s.Ways R.through a} (p : Advance run s (.yield b rest))
      {w' : rest.Ways R.through a} : p.ways R a w = .inr w' →
      Hits R k w' → Hits R (k + 1) w
  | pending {s rest : Stream α γ} {a : α} {k : Nat}
      {w : s.Ways R.through a} (p : Advance run s (.pending rest))
      {w' : rest.Ways R.through a} : p.ways R a w = w' →
      Hits R k w' → Hits R k w
  | working {s rest : Stream α γ} {a : α} {k : Nat}
      {w : s.Ways R.through a} (p : Advance run s (.working rest))
      {w' : rest.Ways R.through a} : p.ways R a w = w' →
      Hits R k w' → Hits R k w

variable {R : Reading run} {s : Stream α γ} {a : α}

theorem Hits.nth {k : Nat} {w : s.Ways R.through a} (h : Hits R k w) :
    Nth run s k a := by
  induction h with
  | here p _ => exact .here p.advance_eq
  | later p _ _ ih => exact .later p.advance_eq ih
  | pending p _ _ ih => exact .pending p.advance_eq ih
  | working p _ _ ih => exact .working p.advance_eq ih

/-! The ways before a step are those that are left after it, and the yielded
    answer. -/

theorem hits_of_yield {rest : Stream α γ} (p : Advance run s (.yield a rest)) :
    Hits R 0 ((p.ways R a).symm (.inl ⟨rfl⟩)) :=
  .here p ((p.ways R a).apply_symm_apply _)

theorem Hits.of_yield {rest : Stream α γ} {b : α} {k : Nat}
    {w : rest.Ways R.through a} (h : Hits R k w)
    (p : Advance run s (.yield b rest)) :
    Hits R (k + 1) ((p.ways R a).symm (.inr w)) :=
  .later p ((p.ways R a).apply_symm_apply _) h

theorem Hits.of_pending {rest : Stream α γ} {k : Nat}
    {w : rest.Ways R.through a} (h : Hits R k w)
    (p : Advance run s (.pending rest)) :
    Hits R k ((p.ways R a).symm w) :=
  .pending p ((p.ways R a).apply_symm_apply _) h

theorem Hits.of_working {rest : Stream α γ} {k : Nat}
    {w : rest.Ways R.through a} (h : Hits R k w)
    (p : Advance run s (.working rest)) :
    Hits R k ((p.ways R a).symm w) :=
  .working p ((p.ways R a).apply_symm_apply _) h

/-- Every pull hits a way. -/
theorem exists_hits {k : Nat} (h : Nth run s k a) :
    ∃ w : s.Ways R.through a, Hits R k w := by
  induction h with
  | here h =>
      obtain ⟨p⟩ := exists_advance h
      exact ⟨_, hits_of_yield p⟩
  | later h _ ih =>
      obtain ⟨p⟩ := exists_advance h
      obtain ⟨w, hw⟩ := ih
      exact ⟨_, hw.of_yield p⟩
  | pending h _ ih =>
      obtain ⟨p⟩ := exists_advance h
      obtain ⟨w, hw⟩ := ih
      exact ⟨_, hw.of_pending p⟩
  | working h _ ih =>
      obtain ⟨p⟩ := exists_advance h
      obtain ⟨w, hw⟩ := ih
      exact ⟨_, hw.of_working p⟩

/-- A pull hits one way, and a way is hit by one pull. -/
theorem Hits.unique {k k' : Nat} {w w' : s.Ways R.through a}
    (h : Hits R k w) (h' : Hits R k' w') : k = k' ↔ w = w' := by
  -- Both pulls take the same step by the same rule, so they part only where
  -- one way is the yielded answer and the other is not.
  induction h generalizing k' with
  | @here s rest a w p hw =>
      cases h' with
      | here q hw' =>
          cases p.move_eq q
          cases p.eq_of_same q
          exact iff_of_true rfl ((p.ways R a).injective (hw.trans hw'.symm))
      | later q hw' _ =>
          cases p.move_eq q
          cases p.eq_of_same q
          refine iff_of_false (Nat.succ_ne_zero _).symm ?_
          intro h
          cases h
          exact nomatch hw.symm.trans hw'
      | pending q _ _ => exact nomatch p.move_eq q
      | working q _ _ => exact nomatch p.move_eq q
  | @later s rest a b k w p v hw _ ih =>
      cases h' with
      | here q hw' =>
          cases p.move_eq q
          cases p.eq_of_same q
          refine iff_of_false (Nat.succ_ne_zero _) ?_
          intro h
          cases h
          exact nomatch hw.symm.trans hw'
      | later q hw' hv' =>
          cases p.move_eq q
          cases p.eq_of_same q
          rw [Nat.succ_inj, ih hv', ← Sum.inr_injective.eq_iff (a := v), ← hw,
            ← hw']
          exact (p.ways R a).injective.eq_iff
      | pending q _ _ => exact nomatch p.move_eq q
      | working q _ _ => exact nomatch p.move_eq q
  | @pending s rest a k w p v hw _ ih =>
      cases h' with
      | here q _ => exact nomatch p.move_eq q
      | later q _ _ => exact nomatch p.move_eq q
      | pending q hw' hv' =>
          cases p.move_eq q
          cases p.eq_of_same q
          rw [ih hv', ← hw, ← hw']
          exact (p.ways R a).injective.eq_iff
      | working q _ _ => exact nomatch p.move_eq q
  | @working s rest a k w p v hw _ ih =>
      cases h' with
      | here q _ => exact nomatch p.move_eq q
      | later q _ _ => exact nomatch p.move_eq q
      | pending q _ _ => exact nomatch p.move_eq q
      | working q hw' hv' =>
          cases p.move_eq q
          cases p.eq_of_same q
          rw [ih hv', ← hw, ← hw']
          exact (p.ways R a).injective.eq_iff

/-- A delivery has a number if the search is never given up. -/
theorem Delivered.hits {w : s.Ways R.through a} (h : Delivered R w)
    (hs : s.NeverAborts run) : ∃ k, Hits R k w := by
  induction h with
  | @error s a w e h =>
      obtain ⟨m, hm⟩ := hs s (.refl s)
      exact nomatch h.symm.trans hm
  | here p hw => exact ⟨0, .here p hw⟩
  | later p hw _ ih =>
      obtain ⟨k, hk⟩ := ih (hs.of_leads (.yield p.advance_eq (.refl _)))
      exact ⟨k + 1, .later p hw hk⟩
  | pending p _ ih =>
      obtain ⟨k, hk⟩ := ih (hs.of_leads (.pending p.advance_eq (.refl _)))
      exact ⟨k, .pending p rfl hk⟩
  | working p _ ih =>
      obtain ⟨k, hk⟩ := ih (hs.of_leads (.working p.advance_eq (.refl _)))
      exact ⟨k, .working p rfl hk⟩

/-- **AS MANY PULLS AS WAYS.** -/
theorem nth_equiv_ways
    (hdelivered : ∀ w : s.Ways R.through a, Delivered R w)
    (hs : s.NeverAborts run) :
    Nonempty ({k // Nth run s k a} ≃ s.Ways R.through a) := by
  have hway : ∀ k : {k // Nth run s k a},
      ∃ w : s.Ways R.through a, Hits R k.1 w :=
    fun k => exists_hits k.2
  choose way hhits using hway
  refine ⟨Equiv.ofBijective way ⟨fun k k' h => ?_, fun w => ?_⟩⟩
  · exact Subtype.ext (((hhits k).unique (hhits k')).mpr h)
  · obtain ⟨k, hk⟩ := (hdelivered w).hits hs
    exact ⟨⟨k, hk.nth⟩, ((hhits ⟨k, hk.nth⟩).unique hk).mp rfl⟩

end LogicSearch.Stream
