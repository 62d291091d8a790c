import LogicSearch.Term.Equality
import Mathlib.Data.List.Forall2

/-! # Corresponding terms

    Two terms correspond if they have one shape and correspond in what
    stands in the corresponding places.  A `Correspondence` says which ids,
    which atoms and which marks do; the labels of variables play no part.
    It keeps what unification looks at: the order of the ids and the equality
    of the atoms.

    - Under `Correspondence.equality` equal terms correspond
      (`equal_iff_corresponds`).
    - Under `Correspondence.shift k` terms correspond that differ by `k` in
      all ids, and maybe in labels; sharing is among what they have in common
      (`Corresponds.shared_eq`). -/

namespace LogicSearch

/-- Which ids, atoms and marks correspond. -/
structure Correspondence where
  id : Nat → Nat → Prop
  atom : Atom → Atom → Prop
  mark : Option Mark → Option Mark → Prop
  /-- Corresponding variables have one order. -/
  lt_iff {i i' j j' : Nat} : id i i' → id j j' → (i < j ↔ i' < j')
  /-- What is minted next corresponds, too. -/
  succ {i j : Nat} : id i j → id (i + 1) (j + 1)
  /-- Corresponding atoms are equal to corresponding ones. -/
  equal_eq {a a' b b' : Atom} : atom a a' → atom b b' →
    a.equal b = a'.equal b'
  atom_refl (a : Atom) : atom a a
  mark_refl (m : Option Mark) : mark m m

namespace Correspondence

/-- The same ids, equal atoms and any marks. -/
def equality : Correspondence where
  id i j := i = j
  atom a b := a.equal b = true
  mark _ _ := True
  lt_iff := by
    rintro i _ j _ rfl rfl
    exact Iff.rfl
  succ := by
    rintro i _ rfl
    rfl
  equal_eq := by
    intro a a' b b' ha hb
    rw [Bool.eq_iff_iff]
    constructor
    · intro hab
      rw [Atom.equal_comm] at ha
      exact Atom.equal_trans ha (Atom.equal_trans hab hb)
    · intro hab
      rw [Atom.equal_comm] at hb
      exact Atom.equal_trans ha (Atom.equal_trans hab hb)
  atom_refl := Atom.equal_self
  mark_refl _ := trivial

/-- The ids are larger by `k`; atoms and marks are the same. -/
def shift (k : Nat) : Correspondence where
  id i j := j = i + k
  atom a b := a = b
  mark m n := m = n
  lt_iff := by
    rintro i _ j _ rfl rfl
    exact Nat.add_lt_add_iff_right.symm
  succ := by
    rintro i _ rfl
    exact Nat.add_right_comm i k 1
  equal_eq := by
    rintro a _ b _ rfl rfl
    rfl
  atom_refl _ := rfl
  mark_refl _ := rfl

/-- The same, read from right to left. -/
def symm (c : Correspondence) : Correspondence where
  id i j := c.id j i
  atom a b := c.atom b a
  mark m n := c.mark n m
  lt_iff hi hj := (c.lt_iff hi hj).symm
  succ := c.succ
  equal_eq ha hb := (c.equal_eq ha hb).symm
  atom_refl := c.atom_refl
  mark_refl := c.mark_refl

variable {c : Correspondence}

/-- One id corresponds to one id. -/
theorem eq_iff {i i' j j' : Nat} (hi : c.id i i') (hj : c.id j j') :
    i = j ↔ i' = j' := by
  have hlt := c.lt_iff hi hj
  have hgt := c.lt_iff hj hi
  omega

theorem same_eq {x x' y y' : Var} (hx : c.id x.id x'.id)
    (hy : c.id y.id y'.id) : x.same y = x'.same y' := by
  rw [Bool.eq_iff_iff, Var.same, Var.same, beq_iff_eq, beq_iff_eq]
  exact c.eq_iff hx hy

/-- Atoms and marks correspond to themselves only. -/
structure Exact (c : Correspondence) : Prop where
  atom {a b : Atom} : c.atom a b → a = b
  mark {m n : Option Mark} : c.mark m n → m = n

theorem exact_shift (k : Nat) : (shift k).Exact :=
  ⟨fun h => h, fun h => h⟩

theorem Exact.symm (hc : c.Exact) : c.symm.Exact :=
  ⟨fun h => (hc.atom h).symm, fun h => (hc.mark h).symm⟩

end Correspondence

namespace Term

mutual

/-- The terms have one shape, with corresponding ids, atoms and marks. -/
inductive Corresponds (c : Correspondence) : Term → Term → Prop where
  | var {x y : Var} : c.id x.id y.id → Corresponds c (.var x) (.var y)
  | atom {a b : Atom} : c.atom a b → Corresponds c (.atom a) (.atom b)
  | composite {m n : Option Mark} {ts us : List Term} : c.mark m n →
      CorrespondAll c ts us →
      Corresponds c (.composite m ts) (.composite n us)

/-- The terms of the lists correspond one by one. -/
inductive CorrespondAll (c : Correspondence) :
    List Term → List Term → Prop where
  | nil : CorrespondAll c [] []
  | cons {t u : Term} {ts us : List Term} : Corresponds c t u →
      CorrespondAll c ts us → CorrespondAll c (t :: ts) (u :: us)

end

variable {c : Correspondence}

theorem correspondAll_iff {ts us : List Term} :
    CorrespondAll c ts us ↔ List.Forall₂ (Corresponds c) ts us := by
  constructor
  · intro h
    induction ts generalizing us with
    | nil => cases h; exact .nil
    | cons t ts ih => cases h with
      | cons htu hts => exact .cons htu (ih hts)
  · intro h
    induction h with
    | nil => exact .nil
    | cons htu _ ih => exact .cons htu ih

theorem CorrespondAll.length_eq {ts us : List Term}
    (h : CorrespondAll c ts us) : ts.length = us.length :=
  (correspondAll_iff.mp h).length_eq

mutual

theorem Corresponds.symm : ∀ {t u : Term}, Corresponds c t u →
    Corresponds c.symm u t
  | _, _, .var h => .var h
  | _, _, .atom h => .atom h
  | _, _, .composite hm hts => .composite hm hts.symm

theorem CorrespondAll.symm : ∀ {ts us : List Term},
    CorrespondAll c ts us → CorrespondAll c.symm us ts
  | _, _, .nil => .nil
  | _, _, .cons ht hts => .cons ht.symm hts.symm

end

/-! ## Equal terms -/

mutual

theorem corresponds_of_alike : ∀ {t u : Term}, alike t u = true →
    Corresponds .equality t u
  | .var _, .var _, h => .var (beq_iff_eq.mp h)
  | .atom _, .atom _, h => .atom h
  | .composite _ ts, .composite _ us, h =>
      .composite trivial (@correspondAll_of_alikeAll ts us h)

theorem correspondAll_of_alikeAll : ∀ {ts us : List Term},
    alikeAll ts us = true → CorrespondAll .equality ts us
  | [], [], _ => .nil
  | _ :: _, _ :: _, h => by
      rw [alikeAll, Bool.and_eq_true] at h
      exact .cons (corresponds_of_alike h.1) (correspondAll_of_alikeAll h.2)

end

mutual

theorem Corresponds.alike : ∀ {t u : Term},
    Corresponds .equality t u → alike t u = true
  | _, _, .var h => beq_iff_eq.mpr h
  | _, _, .atom h => h
  | _, _, .composite _ hts => hts.alikeAll

theorem CorrespondAll.alikeAll : ∀ {ts us : List Term},
    CorrespondAll .equality ts us → alikeAll ts us = true
  | _, _, .nil => rfl
  | _, _, .cons ht hts => by
      rw [Term.alikeAll, ht.alike, hts.alikeAll]
      rfl

end

/-- **EQUAL TERMS CORRESPOND**, and no others do. -/
theorem equal_iff_corresponds {t u : Term} :
    t.equal u = true ↔ Corresponds .equality t u := by
  rw [equal_eq_alike]
  exact ⟨corresponds_of_alike, Corresponds.alike⟩

/-! ## Sharing under exact correspondences -/

mutual

theorem Corresponds.coincide (hc : c.Exact) : ∀ {t t' u u' : Term},
    Corresponds c t t' → Corresponds c u u' → coincide t u = coincide t' u'
  | _, _, _, _, .var hx, .var hy => c.same_eq hx hy
  | _, _, _, _, .atom ha, .atom hb => by rw [hc.atom ha, hc.atom hb]
  | _, _, _, _, .composite hm hts, .composite hn hus => by
      rw [Term.coincide, Term.coincide, hc.mark hm, hc.mark hn,
        CorrespondAll.coincideAll hc hts hus]
  | _, _, _, _, .var _, .atom _ => rfl
  | _, _, _, _, .var _, .composite _ _ => rfl
  | _, _, _, _, .atom _, .var _ => rfl
  | _, _, _, _, .atom _, .composite _ _ => rfl
  | _, _, _, _, .composite _ _, .var _ => rfl
  | _, _, _, _, .composite _ _, .atom _ => rfl

theorem CorrespondAll.coincideAll (hc : c.Exact) :
    ∀ {ts ts' us us' : List Term}, CorrespondAll c ts ts' →
      CorrespondAll c us us' → coincideAll ts us = coincideAll ts' us'
  | _, _, _, _, .nil, .nil => rfl
  | _, _, _, _, .nil, .cons _ _ => rfl
  | _, _, _, _, .cons _ _, .nil => rfl
  | _, _, _, _, .cons ht hts, .cons hu hus => by
      rw [Term.coincideAll, Term.coincideAll, Corresponds.coincide hc ht hu,
        CorrespondAll.coincideAll hc hts hus]

end

/-- **WHAT IS SHARED CORRESPONDS TO WHAT IS SHARED.** -/
theorem Corresponds.shared_eq (hc : c.Exact) {t t' u u' : Term}
    (ht : Corresponds c t t') (hu : Corresponds c u u') :
    t.shared u = t'.shared u' := by
  cases ht with
  | var hx => cases hu with
    | var hy => exact c.same_eq hx hy
    | atom _ => rfl
    | composite _ _ => rfl
  | atom ha => cases hu with
    | var _ => rfl
    | atom hb => rw [hc.atom ha, hc.atom hb]
    | composite _ _ => rfl
  | composite hm hts => cases hu with
    | var _ => rfl
    | atom _ => rfl
    | composite hn hus =>
        rw [shared, shared, sameItems_eq, sameItems_eq, hc.mark hm,
          hc.mark hn, hts.coincideAll hc hus]

end Term

end LogicSearch
