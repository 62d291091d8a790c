import LogicSearch.Goal.Shape
import Mathlib.Data.List.Forall2

/-! # What is written in a goal, in two scopes

    A relation between terms that passes from items to composites passes
    from the terms in scope and the given terms to all that is written with
    them (`Expr.Related.eval`), also in two runs with frames of their own, if
    it does not tell their literals apart (`CompatibleIn`).  With two scopes
    it compares the readings of one expression (`Expr.related_eval`); with a
    relation that looks at one side only it is a property that the terms in
    scope hand on. -/

namespace LogicSearch

/-- The relation holds of an atom with itself, and of composites if it holds
    of their items. -/
structure Compatible (R : Term → Term → Prop) : Prop where
  atom (a : Atom) : R (.atom a) (.atom a)
  composite (m : Option Mark) {ts us : List Term} :
    List.Forall₂ R ts us → R (.composite m ts) (.composite m us)

/-- What is written at one place in two frames is related: atoms of the
    admitted values, and composites if their items are. -/
structure CompatibleIn (frame frame' : Frame) (literal : Value → Prop)
    (R : Term → Term → Prop) : Prop where
  atom (site : Nat) {v : Value} : literal v →
    R (.atom ⟨v, ⟨site, frame⟩⟩) (.atom ⟨v, ⟨site, frame'⟩⟩)
  composite (site : Nat) {ts us : List Term} : List.Forall₂ R ts us →
    R (.composite (some ⟨site, frame⟩) ts)
      (.composite (some ⟨site, frame'⟩) us)

/-- In one frame all values are admitted. -/
theorem Compatible.inFrame {R : Term → Term → Prop} (hR : Compatible R)
    (frame : Frame) : CompatibleIn frame frame (fun _ => True) R :=
  ⟨fun _ _ _ => hR.atom _, fun _ _ _ h => hR.composite _ h⟩

/-- The terms in scope are related one by one. -/
def Scope.Related (R : Term → Term → Prop) {n : Nat}
    (scope scope' : Scope n) : Prop :=
  ∀ i, R (scope.get i) (scope'.get i)

variable {R : Term → Term → Prop} {n : Nat} {scope scope' : Scope n}
  {frame frame' : Frame} {literal : Value → Prop}

theorem Scope.related_empty : Scope.empty.Related R .empty :=
  fun i => i.elim0

theorem Scope.Related.push (h : scope.Related R scope') {t u : Term}
    (htu : R t u) : (scope.push t).Related R (scope'.push u) := by
  intro i
  cases i using Fin.lastCases with
  | last =>
      rw [Scope.get_push_last, Scope.get_push_last]
      exact htu
  | cast i =>
      rw [Scope.get_push_castSucc, Scope.get_push_castSucc]
      exact h i

mutual

/-- The expressions differ at most in their given terms, which are
    related. -/
inductive Expr.Related (R : Term → Term → Prop) {n : Nat} :
    Expr n → Expr n → Prop where
  | bound (i : Fin n) : Related R (.bound i) (.bound i)
  | given {t u : Term} : R t u → Related R (.given t) (.given u)
  | atom (site : Nat) (v : Value) : Related R (.atom site v) (.atom site v)
  | composite (site : Nat) {es es' : List (Expr n)} :
      RelatedAll R es es' →
      Related R (.composite site es) (.composite site es')
  | copies (site count : Nat) {e e' : Expr n} : Related R e e' →
      Related R (.copies site count e) (.copies site count e')

/-- The expressions of the lists are related one by one. -/
inductive Expr.RelatedAll (R : Term → Term → Prop) {n : Nat} :
    List (Expr n) → List (Expr n) → Prop where
  | nil : RelatedAll R [] []
  | cons {e e' : Expr n} {es es' : List (Expr n)} : Related R e e' →
      RelatedAll R es es' → RelatedAll R (e :: es) (e' :: es')

end

theorem forall₂_replicate {t u : Term} (h : R t u) (count : Nat) :
    List.Forall₂ R (List.replicate count t) (List.replicate count u) := by
  induction count with
  | zero => exact .nil
  | succ count ih => exact .cons h ih

mutual

/-- **RELATED EXPRESSIONS GIVE RELATED TERMS** in related scopes. -/
theorem Expr.Related.eval (hR : CompatibleIn frame frame' literal R)
    (h : scope.Related R scope') : ∀ {e e' : Expr n}, e.Related R e' →
      e.All (fun _ => True) literal →
      R (e.eval scope frame) (e'.eval scope' frame')
  | _, _, .bound i, _ => h i
  | _, _, .given htu, _ => htu
  | _, _, .atom site _, hv => hR.atom site hv
  | _, _, .composite _ hes, hall => by
      rw [Expr.eval, Expr.eval]
      exact hR.composite _ (hes.evalAll hR h hall)
  | _, _, .copies _ count he, hall => by
      rw [Expr.eval, Expr.eval]
      have hitem := he.eval hR h hall
      exact hR.composite _ (forall₂_replicate hitem count)

theorem Expr.RelatedAll.evalAll (hR : CompatibleIn frame frame' literal R)
    (h : scope.Related R scope') : ∀ {es es' : List (Expr n)},
      Expr.RelatedAll R es es' → Expr.AllIn (fun _ => True) literal es →
      List.Forall₂ R (Expr.evalAll scope frame es)
        (Expr.evalAll scope' frame' es')
  | _, _, .nil, _ => .nil
  | _, _, .cons he hes, hall =>
      .cons (he.eval hR h hall.1) (hes.evalAll hR h hall.2)

end

/-- Related arguments make related scopes for the body of a relation. -/
theorem Expr.RelatedAll.evalArgs (hR : CompatibleIn frame frame' literal R)
    (h : scope.Related R scope') {k : Nat} {args args' : List (Expr n)}
    {fits : args.length = k} {fits' : args'.length = k}
    (hargs : Expr.RelatedAll R args args')
    (hall : Expr.AllIn (fun _ => True) literal args) :
    (scope.evalArgs frame args fits).Related R
      (scope'.evalArgs frame' args' fits') := by
  intro i
  have hitems : List.Forall₂ R (Expr.evalAll scope frame args)
      (Expr.evalAll scope' frame' args') := hargs.evalAll hR h hall
  exact hitems.get _ _

/-! ## Conditions on what a goal is written from -/

section All

variable {sg : Signature} {given given' : Term → Prop}
  {literal' : Value → Prop}

mutual

theorem Expr.All.mono (hg : ∀ t, given t → given' t)
    (hl : ∀ v, literal v → literal' v) :
    ∀ e : Expr n, e.All given literal → e.All given' literal'
  | .bound _, _ => trivial
  | .given t, h => hg t h
  | .atom _ v, h => hl v h
  | .composite _ es, h => Expr.AllIn.mono hg hl es h
  | .copies _ _ e, h => Expr.All.mono hg hl e h

theorem Expr.AllIn.mono (hg : ∀ t, given t → given' t)
    (hl : ∀ v, literal v → literal' v) :
    ∀ es : List (Expr n), Expr.AllIn given literal es →
      Expr.AllIn given' literal' es
  | [], _ => trivial
  | e :: es, h => ⟨Expr.All.mono hg hl e h.1, Expr.AllIn.mono hg hl es h.2⟩

end

theorem Goal.All.mono (hg : ∀ t, given t → given' t)
    (hl : ∀ v, literal v → literal' v) {n : Nat} {g : Goal sg n}
    (h : g.All given literal) : g.All given' literal' := by
  induction g with
  | eq u v => exact ⟨Expr.All.mono hg hl u h.1, Expr.All.mono hg hl v h.2⟩
  | conj g g' ih ih' => exact ⟨ih h.1, ih' h.2⟩
  | disj g g' ih ih' => exact ⟨ih h.1, ih' h.2⟩
  | fresh label body ih => exact ih h
  | letTerm e body ih => exact ⟨Expr.All.mono hg hl e h.1, ih h.2⟩
  | delay body ih => exact ih h
  | call site r args fits => exact Expr.AllIn.mono hg hl args h
  | _ => trivial

mutual

theorem Expr.all_of_forall (hg : ∀ t, given t) (hl : ∀ v, literal v) :
    ∀ e : Expr n, e.All given literal
  | .bound _ => trivial
  | .given t => hg t
  | .atom _ v => hl v
  | .composite _ es => Expr.allIn_of_forall hg hl es
  | .copies _ _ e => Expr.all_of_forall hg hl e

theorem Expr.allIn_of_forall (hg : ∀ t, given t) (hl : ∀ v, literal v) :
    ∀ es : List (Expr n), Expr.AllIn given literal es
  | [] => trivial
  | e :: es => ⟨Expr.all_of_forall hg hl e, Expr.allIn_of_forall hg hl es⟩

end

theorem Goal.all_of_forall (hg : ∀ t, given t) (hl : ∀ v, literal v)
    {n : Nat} (g : Goal sg n) : g.All given literal := by
  induction g with
  | eq u v => exact ⟨Expr.all_of_forall hg hl u, Expr.all_of_forall hg hl v⟩
  | conj g g' ih ih' => exact ⟨ih, ih'⟩
  | disj g g' ih ih' => exact ⟨ih, ih'⟩
  | fresh label body ih => exact ih
  | letTerm e body ih => exact ⟨Expr.all_of_forall hg hl e, ih⟩
  | delay body ih => exact ih
  | call site r args fits => exact Expr.allIn_of_forall hg hl args
  | _ => trivial

end All

/-! ## One expression in two scopes -/

mutual

/-- An expression is related to itself if its given terms are. -/
theorem Expr.related_self :
    ∀ e : Expr n, e.All (fun t => R t t) (fun _ => True) → e.Related R e
  | .bound i, _ => .bound i
  | .given _, he => .given he
  | .atom site v, _ => .atom site v
  | .composite site es, he => .composite site (Expr.relatedAll_self es he)
  | .copies site count e, he => .copies site count (Expr.related_self e he)

theorem Expr.relatedAll_self :
    ∀ es : List (Expr n), Expr.AllIn (fun t => R t t) (fun _ => True) es →
      Expr.RelatedAll R es es
  | [], _ => .nil
  | e :: es, he =>
      .cons (Expr.related_self e he.1) (Expr.relatedAll_self es he.2)

end

/-- **RELATED SCOPES GIVE RELATED TERMS.** -/
theorem Expr.related_eval (hR : Compatible R)
    (h : scope.Related R scope') (e : Expr n)
    (he : e.All (fun t => R t t) fun _ => True) :
    R (e.eval scope frame) (e.eval scope' frame) :=
  (Expr.related_self e he).eval (hR.inFrame frame) h
    (Expr.all_of_forall (fun _ => trivial) (fun _ => trivial) e)

/-- And related scopes for the body of a relation. -/
theorem Scope.Related.evalArgs (hR : Compatible R)
    (h : scope.Related R scope') {k : Nat} {args : List (Expr n)}
    {fits : args.length = k}
    (hargs : Expr.AllIn (fun t => R t t) (fun _ => True) args) :
    (scope.evalArgs frame args fits).Related R
      (scope'.evalArgs frame args fits) :=
  (Expr.relatedAll_self args hargs).evalArgs (hR.inFrame frame) h
    (Expr.allIn_of_forall (fun _ => trivial) (fun _ => trivial) args)

end LogicSearch
