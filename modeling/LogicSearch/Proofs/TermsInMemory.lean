import LogicSearch.Term.Equality

/-! # Equality of terms in memory

    An object in memory has one content: behind the mark of an atom stands
    one value, behind the mark of a composite one list of items.  A `Memory`
    says which, and `Memory.Holds` that a term is laid out in it.

    - Among the terms of one memory the marks alone tell what is shared
      (`Memory.shared_eq_sameObject`), so a comparison that goes by the marks
      alone is equality (`Memory.equalByMark_eq`).
    - A NaN is equal to nothing but itself, and to itself only because it is
      one atom (`Term.equal_nan_iff`).  The plain comparison asks that of
      atoms, too.  That is why it finds a shared composite equal to itself
      without knowing that it is shared.

    `Term.equal_lawful` puts this together with the laws of equality. -/

namespace LogicSearch

/-! ## Equal terms are of one kind -/

/-- What a term is.  Atoms are of one kind if their values have one type. -/
inductive Term.Kind where
  | var
  | atom (type : ValueType)
  | composite
  deriving DecidableEq, Repr

/-- The kind of a term. -/
def Term.kind : Term → Term.Kind
  | .var _ => .var
  | .atom a => .atom a.value.type
  | .composite _ _ => .composite

/-- Equal atoms have one type. -/
theorem Atom.type_eq_of_equal {a b : Atom} (h : a.equal b = true) :
    a.value.type = b.value.type := by
  rw [Atom.equal, Bool.or_eq_true, beq_iff_eq] at h
  rcases h with rfl | h
  · rfl
  · exact Value.type_eq_of_equal h

/-- Equal terms are of one kind. -/
theorem Term.kind_eq_of_equal {t u : Term} (h : t.equal u = true) :
    t.kind = u.kind := by
  cases t with
  | var x => cases u with
    | var y => rfl
    | atom b => cases h
    | composite n us => cases h
  | atom a => cases u with
    | var y => cases h
    | atom b => exact congrArg Term.Kind.atom (Atom.type_eq_of_equal h)
    | composite n us => cases h
  | composite m ts => cases u with
    | var y => cases h
    | atom b => cases h
    | composite n us => rfl

/-! ## A NaN is equal to itself alone -/

/-- A NaN is not equal to any value.  If it were, it would be equal to
    itself. -/
theorem Value.not_equal_of_isNaN {u : Value} (hu : u.isNaN = true)
    (v : Value) : u.equal v = false := by
  refine Bool.eq_false_iff.mpr ?_
  intro huv
  have hvu : v.equal u = true := by
    rw [Value.equal_comm]
    exact huv
  have hself : u.equal u = true := Value.equal_trans huv hvu
  rw [Value.equal_self, hu] at hself
  cases hself

/-- An atom that carries a NaN is equal to nothing but this very atom. -/
theorem Term.equal_nan_iff {a : Atom} (ha : a.value.isNaN = true) (t : Term) :
    (Term.atom a).equal t = true ↔ t = .atom a := by
  constructor
  · intro h
    cases t with
    | var x => cases h
    | atom b =>
        rw [Term.equal, Atom.equal, Value.not_equal_of_isNaN ha,
          Bool.or_false, beq_iff_eq] at h
        rw [h]
    | composite m ts => cases h
  · rintro rfl
    exact Term.equal_self _

/-! ## Going by the marks alone -/

namespace Term

/-- The two are one variable, or their marks say that they are one object. -/
def sameObject : Term → Term → Bool
  | .var x, .var y => x.same y
  | .atom a, .atom b => a.mark == b.mark
  | .composite m _, .composite n _ => sameMark m n
  | _, _ => false

/-- Marks that agree are there. -/
theorem exists_of_sameMark {m n : Option Mark}
    (h : sameMark m n = true) : ∃ k, m = some k ∧ n = some k := by
  cases m with
  | none => cases h
  | some k => cases n with
    | none => cases h
    | some l => exact ⟨k, rfl, congrArg some (beq_iff_eq.mp h).symm⟩

mutual

/-- Equality that takes what has one mark to be equal, atoms and composites
    alike. -/
def equalByMark : Term → Term → Bool
  | .var x, .var y => x.same y
  | .atom a, .atom b =>
      sameObject (.atom a) (.atom b) || a.value.equal b.value
  | .composite m ts, .composite n us =>
      sameObject (.composite m ts) (.composite n us) || equalByMarkAll ts us
  | _, _ => false

/-- The same item by item. -/
def equalByMarkAll : List Term → List Term → Bool
  | [], [] => true
  | t :: ts, u :: us => equalByMark t u && equalByMarkAll ts us
  | _, _ => false

end

end Term

/-- What stands behind the marks: of an atom a value, of a composite its
    items. -/
structure Memory where
  value : Mark → Value
  items : Mark → List Term

namespace Memory

variable {M : Memory}

mutual

/-- The term is laid out in memory. -/
def Holds (M : Memory) : Term → Prop
  | .var _ => True
  | .atom a => M.value a.mark = a.value
  | .composite m ts => (∀ k ∈ m, M.items k = ts) ∧ HoldsAll M ts

/-- All terms of the list are. -/
def HoldsAll (M : Memory) : List Term → Prop
  | [] => True
  | t :: ts => Holds M t ∧ HoldsAll M ts

end

/-- Atoms of one mark are one atom. -/
theorem Holds.atom_eq {a b : Atom} (ha : M.Holds (.atom a))
    (hb : M.Holds (.atom b)) (h : a.mark = b.mark) : a = b := by
  obtain ⟨v, m⟩ := a
  obtain ⟨w, n⟩ := b
  cases h
  have hvalue : v = w := ha.symm.trans hb
  rw [hvalue]

/-- Composites of one mark have one list of items. -/
theorem Holds.items_eq {k : Mark} {ts us : List Term}
    (ht : M.Holds (.composite (some k) ts))
    (hu : M.Holds (.composite (some k) us)) : ts = us :=
  (ht.1 k rfl).symm.trans (hu.1 k rfl)

/-- **THE MARKS TELL WHAT IS SHARED** among the terms of one memory. -/
theorem shared_eq_sameObject {t u : Term} (ht : M.Holds t)
    (hu : M.Holds u) : t.shared u = t.sameObject u := by
  cases t with
  | var x => cases u <;> rfl
  | atom a => cases u with
    | var y => rfl
    | atom b =>
        show (a == b) = (a.mark == b.mark)
        rw [Bool.eq_iff_iff, beq_iff_eq, beq_iff_eq]
        exact ⟨congrArg Atom.mark, ht.atom_eq hu⟩
    | composite n us => rfl
  | composite m ts => cases u with
    | var y => rfl
    | atom b => rfl
    | composite n us =>
        show (Term.sameMark m n && Term.sameItems ts us) = Term.sameMark m n
        cases hmn : Term.sameMark m n with
        | false => rfl
        | true =>
            -- behind marks that agree stands one list of items
            obtain ⟨k, rfl, rfl⟩ := Term.exists_of_sameMark hmn
            rw [ht.items_eq hu, Term.sameItems_eq, Term.coincideAll_self]
            rfl

mutual

/-- **TRUSTING THE MARKS IS EQUALITY** on the terms of one memory. -/
theorem equalByMark_eq : ∀ {t u : Term}, M.Holds t → M.Holds u →
    t.equalByMark u = t.equal u
  | .var _, .var _, _, _ => rfl
  | .atom a, .atom b, ht, hu => by
      rw [Term.equalByMark, ← shared_eq_sameObject ht hu]
      rfl
  | .composite m ts, .composite n us, ht, hu => by
      rw [Term.equalByMark, Term.equal, shared_eq_sameObject ht hu,
        equalByMarkAll_eq ht.2 hu.2]
  | .var _, .atom _, _, _ => rfl
  | .var _, .composite _ _, _, _ => rfl
  | .atom _, .var _, _, _ => rfl
  | .atom _, .composite _ _, _, _ => rfl
  | .composite _ _, .var _, _, _ => rfl
  | .composite _ _, .atom _, _, _ => rfl

theorem equalByMarkAll_eq : ∀ {ts us : List Term}, M.HoldsAll ts →
    M.HoldsAll us → Term.equalByMarkAll ts us = Term.equalAll ts us
  | [], [], _, _ => rfl
  | [], _ :: _, _, _ => rfl
  | _ :: _, [], _, _ => rfl
  | t :: ts, u :: us, ht, hu => by
      rw [Term.equalByMarkAll, Term.equalAll, equalByMark_eq ht.1 hu.1,
        equalByMarkAll_eq ht.2 hu.2]

end

end Memory

/-! ## The laws of equality -/

/-- **EQUALITY OF TERMS IS LAWFUL, AND SHARING IS INVISIBLE IN IT.**

    - It is an equivalence on all terms, those that hold a NaN included.
    - Terms of different kinds are not equal, nor are atoms of different
      types.
    - A NaN is equal to itself alone.
    - It comes to the same as the plain comparison, which looks into every
      composite.
    - So does, for the terms of one memory, the comparison that trusts the
      marks. -/
theorem Term.equal_lawful :
    Equivalence (fun t u : Term => t.equal u = true) ∧
    (∀ t u : Term, t.kind ≠ u.kind → t.equal u = false) ∧
    (∀ a : Atom, a.value.isNaN = true → ∀ t : Term,
      (Term.atom a).equal t = true ↔ t = .atom a) ∧
    (∀ t u : Term, t.equal u = t.alike u) ∧
    ∀ (M : Memory) (t u : Term), M.Holds t → M.Holds u →
      t.equalByMark u = t.alike u := by
  refine ⟨⟨equal_self, ?_, equal_trans⟩, ?_, ?_, equal_eq_alike, ?_⟩
  · intro t u h
    rw [equal_comm]
    exact h
  · intro t u hkind
    exact Bool.eq_false_iff.mpr fun h => hkind (kind_eq_of_equal h)
  · intro a ha t
    exact equal_nan_iff ha t
  · intro M t u ht hu
    rw [Memory.equalByMark_eq ht hu]
    exact equal_eq_alike t u

/-- In one memory `s` and `t` hold one NaN, in composites of their own, and
    `u` holds another NaN.  Going by the marks, `s` is equal to itself and to
    `t`, but not to `u`.  The numbers `5` of two types differ. -/
theorem Term.equal_lawful_nan :
    let nan : Value := .float64 0x7ff8000000000000
    let a : Atom := ⟨nan, ⟨0, .outermost⟩⟩
    let b : Atom := ⟨nan, ⟨1, .outermost⟩⟩
    let s : Term := .composite (some ⟨2, .outermost⟩) [.atom a]
    let t : Term := .composite (some ⟨3, .outermost⟩) [.atom a]
    let u : Term := .composite (some ⟨4, .outermost⟩) [.atom b]
    let M : Memory :=
      ⟨fun _ => nan, fun m => if m.site < 4 then [.atom a] else [.atom b]⟩
    let five (type : IntType) : Term :=
      .atom ⟨.int type 5, ⟨5, .outermost⟩⟩
    M.Holds s ∧ M.Holds t ∧ M.Holds u ∧ nan.isNaN = true ∧
    s.equalByMark s = true ∧ s.equalByMark t = true ∧
    s.equalByMark u = false ∧ (Term.atom a).equal (.atom b) = false ∧
    (five ⟨true, .bits32⟩).kind ≠ (five ⟨true, .bits64⟩).kind ∧
    (five ⟨true, .bits32⟩).equal (five ⟨true, .bits64⟩) = false := by
  intro nan a b s t u M five
  obtain ⟨-, hkinds, hnan, hplain, hmarks⟩ := Term.equal_lawful
  have hs : M.Holds s := ⟨fun k hk => by cases hk; rfl, rfl, trivial⟩
  have ht : M.Holds t := ⟨fun k hk => by cases hk; rfl, rfl, trivial⟩
  have hu : M.Holds u := ⟨fun k hk => by cases hk; rfl, rfl, trivial⟩
  have hisNaN : nan.isNaN = true := by decide
  have hab : (Term.atom a).equal (.atom b) = false := by
    refine Bool.eq_false_iff.mpr ?_
    intro h
    exact absurd ((hnan a hisNaN (.atom b)).mp h) (by decide)
  have hfive : (five ⟨true, .bits32⟩).kind ≠ (five ⟨true, .bits64⟩).kind := by
    decide
  refine ⟨hs, ht, hu, hisNaN, ?_, ?_, ?_, hab, hfive, hkinds _ _ hfive⟩
  · rw [hmarks M s s hs hs]
    exact alike_self s
  · rw [hmarks M s t hs ht]
    exact alike_self s
  · rw [hmarks M s u hs hu]
    show ((Term.atom a).alike (.atom b) && true) = false
    rw [← hplain, hab]
    rfl

end LogicSearch
