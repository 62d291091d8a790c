import LogicSearch.Term.Basic

/-! # Laws of term equality

    `Term.equal` is reflexive, symmetric and transitive on all terms, and
    being shared does not depend on the order, either (`shared_comm`).
    `Term.alike` is the plain comparison that looks into every composite;
    it agrees with `equal` (`equal_eq_alike`), so the look at marks of
    composites only saves work, and shared terms are equal
    (`equal_of_shared`). -/

namespace LogicSearch

/-! ## Atoms -/

theorem Atom.equal_self (a : Atom) : a.equal a = true := by
  simp [Atom.equal]

theorem Atom.equal_comm (a b : Atom) : a.equal b = b.equal a := by
  unfold Atom.equal
  rw [Value.equal_comm, show (a == b) = (b == a) from BEq.comm]

theorem Atom.equal_trans {a b c : Atom} (hab : a.equal b = true)
    (hbc : b.equal c = true) : a.equal c = true := by
  simp only [Atom.equal, Bool.or_eq_true, beq_iff_eq] at hab hbc ⊢
  rcases hab with rfl | hab
  · exact hbc
  · rcases hbc with rfl | hbc
    · exact Or.inr hab
    · exact Or.inr (Value.equal_trans hab hbc)

namespace Term

/-! ## The plain comparison -/

mutual

/-- Equal contents, compared item by item all the way down. -/
def alike : Term → Term → Bool
  | .var x, .var y => x.same y
  | .atom a, .atom b => a.equal b
  | .composite _ ts, .composite _ us => alikeAll ts us
  | _, _ => false

/-- The lists agree item by item. -/
def alikeAll : List Term → List Term → Bool
  | [], [] => true
  | t :: ts, u :: us => alike t u && alikeAll ts us
  | _, _ => false

end

mutual

theorem alike_self : ∀ t : Term, alike t t = true
  | .var x => by simp [alike, Var.same]
  | .atom a => by simp [alike, Atom.equal_self]
  | .composite _ ts => by rw [alike]; exact alikeAll_self ts

theorem alikeAll_self : ∀ ts : List Term, alikeAll ts ts = true
  | [] => rfl
  | t :: ts => by rw [alikeAll, alike_self t, alikeAll_self ts]; rfl

end

mutual

theorem alike_comm : ∀ t u : Term, alike t u = alike u t
  | .var _, .var _ => BEq.comm
  | .atom a, .atom b => Atom.equal_comm a b
  | .composite _ ts, .composite _ us => alikeAll_comm ts us
  | .var _, .atom _ => rfl
  | .var _, .composite _ _ => rfl
  | .atom _, .var _ => rfl
  | .atom _, .composite _ _ => rfl
  | .composite _ _, .var _ => rfl
  | .composite _ _, .atom _ => rfl

theorem alikeAll_comm :
    ∀ ts us : List Term, alikeAll ts us = alikeAll us ts
  | [], [] => rfl
  | [], _ :: _ => rfl
  | _ :: _, [] => rfl
  | t :: ts, u :: us => by
      rw [alikeAll, alikeAll, alike_comm t u, alikeAll_comm ts us]

end

mutual

theorem alike_trans : ∀ {t u v : Term}, alike t u = true →
    alike u v = true → alike t v = true
  | .var x, .var y, .var z, hxy, hyz => by
      simp_all [alike, Var.same]
  | .atom a, .atom b, .atom c, hab, hbc => Atom.equal_trans hab hbc
  | .composite _ ts, .composite _ us, .composite _ vs, htu, huv =>
      @alikeAll_trans ts us vs htu huv

theorem alikeAll_trans : ∀ {ts us vs : List Term},
    alikeAll ts us = true → alikeAll us vs = true → alikeAll ts vs = true
  | [], [], [], _, _ => rfl
  | t :: ts, u :: us, v :: vs, htu, huv => by
      rw [alikeAll, Bool.and_eq_true] at htu huv ⊢
      exact ⟨alike_trans htu.1 huv.1, alikeAll_trans htu.2 huv.2⟩

end

/-! ## Identity does not depend on the order -/

mutual

theorem coincide_comm : ∀ t u : Term, coincide t u = coincide u t
  | .var _, .var _ => BEq.comm
  | .atom _, .atom _ => BEq.comm
  | .composite m ts, .composite n us => by
      rw [coincide, coincide, coincideAll_comm ts us,
        show (m == n) = (n == m) from BEq.comm]
  | .var _, .atom _ => rfl
  | .var _, .composite _ _ => rfl
  | .atom _, .var _ => rfl
  | .atom _, .composite _ _ => rfl
  | .composite _ _, .var _ => rfl
  | .composite _ _, .atom _ => rfl

theorem coincideAll_comm :
    ∀ ts us : List Term, coincideAll ts us = coincideAll us ts
  | [], [] => rfl
  | [], _ :: _ => rfl
  | _ :: _, [] => rfl
  | t :: ts, u :: us => by
      rw [coincideAll, coincideAll, coincide_comm t u,
        coincideAll_comm ts us]

end

theorem sameMark_comm (m n : Option Mark) :
    sameMark m n = sameMark n m := by
  cases m with
  | none => cases n <;> rfl
  | some m => cases n with
    | none => rfl
    | some n => exact BEq.comm

theorem shared_comm (t u : Term) : t.shared u = u.shared t := by
  cases t with
  | var x => cases u with
    | var y => exact BEq.comm
    | atom b => rfl
    | composite n us => rfl
  | atom a => cases u with
    | var y => rfl
    | atom b => exact BEq.comm
    | composite n us => rfl
  | composite m ts => cases u with
    | var y => rfl
    | atom b => rfl
    | composite n us =>
        rw [shared, shared, sameItems_eq, sameItems_eq, sameMark_comm m n,
          coincideAll_comm ts us]

/-! ## Equality is the plain comparison -/

mutual

theorem alike_of_coincide :
    ∀ {t u : Term}, coincide t u = true → alike t u = true
  | .var x, .var y, h => h
  | .atom a, .atom b, h => by
      rw [alike, Atom.equal, show (a == b) = true from h, Bool.true_or]
  | .composite _ ts, .composite _ us, h => by
      rw [coincide, Bool.and_eq_true] at h
      rw [alike]
      exact alikeAll_of_coincideAll h.2

theorem alikeAll_of_coincideAll :
    ∀ {ts us : List Term}, coincideAll ts us = true →
      alikeAll ts us = true
  | [], [], _ => rfl
  | t :: ts, u :: us, h => by
      rw [coincideAll, Bool.and_eq_true] at h
      rw [alikeAll, alike_of_coincide h.1, alikeAll_of_coincideAll h.2]
      rfl

end

mutual

/-- **THE MARKS SAVE WORK ONLY**: equality is the plain comparison. -/
theorem equal_eq_alike : ∀ t u : Term, equal t u = alike t u
  | .var _, .var _ => rfl
  | .atom _, .atom _ => rfl
  | .composite m ts, .composite n us => by
      rw [equal, alike, equalAll_eq_alikeAll ts us]
      cases hs : shared (.composite m ts) (.composite n us) with
      | false => rfl
      | true =>
          obtain ⟨-, -, h⟩ := shared_composite.mp hs
          rw [alikeAll_of_coincideAll h]
          rfl
  | .var _, .atom _ => rfl
  | .var _, .composite _ _ => rfl
  | .atom _, .var _ => rfl
  | .atom _, .composite _ _ => rfl
  | .composite _ _, .var _ => rfl
  | .composite _ _, .atom _ => rfl

theorem equalAll_eq_alikeAll :
    ∀ ts us : List Term, equalAll ts us = alikeAll ts us
  | [], [] => rfl
  | [], _ :: _ => rfl
  | _ :: _, [] => rfl
  | t :: ts, u :: us => by
      rw [equalAll, alikeAll, equal_eq_alike t u,
        equalAll_eq_alikeAll ts us]

end

theorem equal_self (t : Term) : t.equal t = true := by
  rw [equal_eq_alike]
  exact alike_self t

/-- Shared terms are equal. -/
theorem equal_of_shared {t u : Term} (h : t.shared u = true) :
    t.equal u = true := by
  cases t with
  | var x => cases u with
    | var y => exact h
    | atom b => cases h
    | composite n us => cases h
  | atom a => cases u with
    | var y => cases h
    | atom b =>
        rw [equal, beq_iff_eq.mp h]
        exact Atom.equal_self b
    | composite n us => cases h
  | composite m ts => cases u with
    | var y => cases h
    | atom b => cases h
    | composite n us => rw [equal, h, Bool.true_or]

theorem equal_comm (t u : Term) : t.equal u = u.equal t := by
  rw [equal_eq_alike, equal_eq_alike]
  exact alike_comm t u

theorem equal_trans {t u v : Term} (htu : t.equal u = true)
    (huv : u.equal v = true) : t.equal v = true := by
  rw [equal_eq_alike] at htu huv ⊢
  exact alike_trans htu huv

end Term

end LogicSearch
