import LogicSearch.Mark
import LogicSearch.Value

/-! # Terms

    A term is a variable, an atom or a composite of any number of terms.

    Variables are the same when their ids agree; the label only helps a
    reader.  Atoms and composites carry the mark of the literal they were
    built from.  A composite built by an operation instead of a literal has
    no mark and is shared with nothing.

    - `Term.shared` says that two terms are one and the same object.  It
      compares the contents along with the marks, so terms that pass as
      shared differ at most in the labels of variables, by construction
      (`Term.shared_composite`).  One list of items in memory is not compared
      with itself, so a term that holds a large part many times over costs no
      more than the part.
    - `Term.equal` is equality of contents, in which a shared atom equals
      itself even if it is a NaN. -/

namespace LogicSearch

/-- A logic variable. -/
structure Var where
  id : Nat
  label : String
  deriving DecidableEq, Repr

namespace Var

/-- The same variable: the labels do not matter. -/
def same (x y : Var) : Bool := x.id == y.id

/-- Variables are ordered by age, the oldest first. -/
def compare (x y : Var) : Ordering := Ord.compare x.id y.id

end Var

/-- A value with the mark of the literal it came from. -/
structure Atom where
  value : Value
  mark : Mark
  deriving DecidableEq, Repr

/-- Equal type and value, or the very same atom. -/
def Atom.equal (a b : Atom) : Bool := a == b || a.value.equal b.value

/-- A term of the language. -/
inductive Term where
  | var (x : Var)
  | atom (a : Atom)
  | composite (mark : Option Mark) (items : List Term)
  deriving Repr

namespace Term

/-! ## Induction over a term and its items -/

mutual

/-- A property that passes from the items to their composite holds of every
    term. -/
@[elab_as_elim, induction_eliminator]
theorem induct {motive : Term → Prop} (var : ∀ x, motive (.var x))
    (atom : ∀ a, motive (.atom a))
    (composite : ∀ m ts, (∀ t ∈ ts, motive t) → motive (.composite m ts)) :
    (t : Term) → motive t
  | .var x => var x
  | .atom a => atom a
  | .composite m ts => composite m ts (inductAll var atom composite ts)

private theorem inductAll {motive : Term → Prop}
    (var : ∀ x, motive (.var x)) (atom : ∀ a, motive (.atom a))
    (composite : ∀ m ts, (∀ t ∈ ts, motive t) → motive (.composite m ts)) :
    (ts : List Term) → ∀ t ∈ ts, motive t
  | [] => nofun
  | t :: ts => List.forall_mem_cons.mpr
      ⟨induct var atom composite t, inductAll var atom composite ts⟩

end

/-! ## Identity -/

mutual

/-- The terms agree in every detail, marks and labels included. -/
def identical : Term → Term → Bool
  | .var x, .var y => x == y
  | .atom a, .atom b => a == b
  | .composite m ts, .composite n us => m == n && identicalAll ts us
  | _, _ => false

/-- The lists agree item by item, in every detail. -/
def identicalAll : List Term → List Term → Bool
  | [], [] => true
  | t :: ts, u :: us => identical t u && identicalAll ts us
  | _, _ => false

end

mutual

theorem identical_iff : ∀ t u : Term, identical t u = true ↔ t = u
  | .var x, .var y => by simp [identical]
  | .atom a, .atom b => by simp [identical]
  | .composite m ts, .composite n us => by
      simp [identical, identicalAll_iff ts us]
  | .var _, .atom _ => by simp [identical]
  | .var _, .composite _ _ => by simp [identical]
  | .atom _, .var _ => by simp [identical]
  | .atom _, .composite _ _ => by simp [identical]
  | .composite _ _, .var _ => by simp [identical]
  | .composite _ _, .atom _ => by simp [identical]

theorem identicalAll_iff :
    ∀ ts us : List Term, identicalAll ts us = true ↔ ts = us
  | [], [] => by simp [identicalAll]
  | [], _ :: _ => by simp [identicalAll]
  | _ :: _, [] => by simp [identicalAll]
  | t :: ts, u :: us => by
      simp [identicalAll, identical_iff t u, identicalAll_iff ts us]

end

instance : DecidableEq Term := fun t u =>
  decidable_of_iff _ (identical_iff t u)

mutual

/-- The terms agree in every detail but the labels of variables. -/
def coincide : Term → Term → Bool
  | .var x, .var y => x.same y
  | .atom a, .atom b => a == b
  | .composite m ts, .composite n us => m == n && coincideAll ts us
  | _, _ => false

/-- The lists agree item by item, in every detail but labels. -/
def coincideAll : List Term → List Term → Bool
  | [], [] => true
  | t :: ts, u :: us => coincide t u && coincideAll ts us
  | _, _ => false

end

mutual

theorem coincide_self : ∀ t : Term, coincide t t = true
  | .var x => by simp [coincide, Var.same]
  | .atom a => by simp [coincide]
  | .composite m ts => by simp [coincide, coincideAll_self ts]

theorem coincideAll_self : ∀ ts : List Term, coincideAll ts ts = true
  | [] => rfl
  | t :: ts => by simp [coincideAll, coincide_self t, coincideAll_self ts]

end

/-- Both marks are there and agree. -/
def sameMark : Option Mark → Option Mark → Bool
  | some m, some n => m == n
  | _, _ => false

/-- The lists agree in every detail but labels.  A list that is met as both
    arguments is not looked into. -/
def sameItems (ts us : List Term) : Bool :=
  withPtrEq ts us (fun _ => coincideAll ts us) fun h => h ▸ coincideAll_self ts

theorem sameItems_eq (ts us : List Term) :
    sameItems ts us = coincideAll ts us := rfl

/-- The terms are one variable, one atom or one composite, passed around. -/
def shared : Term → Term → Bool
  | .var x, .var y => x.same y
  | .atom a, .atom b => a == b
  | .composite m ts, .composite n us => sameMark m n && sameItems ts us
  | _, _ => false

/-- A shared composite coincides with itself, and no other composite is
    shared. -/
theorem shared_composite {m n : Option Mark} {ts us : List Term} :
    shared (.composite m ts) (.composite n us) = true
      ↔ m.isSome ∧ m = n ∧ coincideAll ts us = true := by
  simp only [shared, Bool.and_eq_true, sameItems_eq]
  cases m <;> cases n <;> simp [sameMark]

/-! ## Equality -/

mutual

/-- Equal contents: the same variable, equal atoms, or composites with equal
    items.  Shared composites are not looked into. -/
def equal : Term → Term → Bool
  | .var x, .var y => x.same y
  | .atom a, .atom b => a.equal b
  | .composite m ts, .composite n us =>
      shared (.composite m ts) (.composite n us) || equalAll ts us
  | _, _ => false

/-- The lists are equal item by item. -/
def equalAll : List Term → List Term → Bool
  | [], [] => true
  | t :: ts, u :: us => equal t u && equalAll ts us
  | _, _ => false

end

/-- The term is the variable itself. -/
def isVar (t : Term) (x : Var) : Bool :=
  match t with
  | .var y => y.same x
  | _ => false

/-- The term is an atom that carries a value equal to `v`. -/
def hasValue (t : Term) (v : Value) : Bool :=
  match t with
  | .atom a => a.value.equal v
  | _ => false

/-- The term is an atom of the given type. -/
def hasType (t : Term) (type : ValueType) : Bool :=
  match t with
  | .atom a => a.value.type == type
  | _ => false

/-! ## Measures and marks -/

mutual

/-- The number of variables, atoms and composites of a term. -/
def nodes : Term → Nat
  | .var _ => 1
  | .atom _ => 1
  | .composite _ ts => 1 + nodesAll ts

/-- The nodes of all terms of a list. -/
def nodesAll : List Term → Nat
  | [] => 0
  | t :: ts => nodes t + nodesAll ts

end

mutual

/-- Give every composite without a mark one of its own, so that from now on
    the term is shared with its copies.  The frame is the way down to the
    composite. -/
def marked (site : Nat) (frame : Frame) : Term → Term
  | .composite none ts =>
      .composite (some ⟨site, frame⟩) (markedAll site frame 0 ts)
  | t => t

/-- Mark the items of a composite, each by its position. -/
def markedAll (site : Nat) (frame : Frame) : Nat → List Term → List Term
  | _, [] => []
  | i, t :: ts =>
      marked site (frame.enter i) t :: markedAll site frame (i + 1) ts

end

end Term

end LogicSearch
