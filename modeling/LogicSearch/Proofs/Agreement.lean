import LogicSearch.Goal.Truth
import LogicSearch.Proofs.Evaluation
import LogicSearch.Proofs.Solution

/-! # Truth depends on values only

    Two scopes, each under an assignment of its own, agree if their terms
    stand for equal terms.  Then what is written in a goal stands for equal
    terms on both sides, and a goal that is true on one side is true on the
    other (`Holds.congr`).  So a variable may be traded for the term it
    stands for, and an assignment for one that agrees with it where it
    matters. -/

namespace LogicSearch

/-! ## Terms without variables -/

namespace Term

theorem IsGround.not_mem {t : Term} (h : t.IsGround) (x : Var) :
    x ∉ t.vars := by
  have hvars : t.vars = [] := h
  rw [hvars]
  exact List.not_mem_nil

theorem IsGround.item {m : Option Mark} {ts : List Term}
    (h : (composite m ts).IsGround) {t : Term} (ht : t ∈ ts) :
    t.IsGround :=
  List.eq_nil_iff_forall_not_mem.mpr fun x hx =>
    h.not_mem x (mem_vars_composite.mpr ⟨t, ht, hx⟩)

theorem value_of_ground {θ θ' : Assignment} {t : Term} (h : t.IsGround) :
    θ.value t = θ'.value t :=
  instantiate_congr t fun x hx => absurd hx (h.not_mem x)

/-- A term without variables stands for itself. -/
theorem equal_value_of_ground (θ : Assignment) (t : Term)
    (h : t.IsGround) : t.equal (θ.value t) = true := by
  induction t with
  | var x => exact nomatch h
  | atom a => exact equal_self _
  | composite m ts ih =>
      show Term.equal _ (.composite none (instantiateAll _ ts)) = true
      rw [equal_eq_alike, alike, ← equalAll_eq_alikeAll, equalAll_iff,
        instantiateAll_eq_map, List.forall₂_map_right_iff,
        List.forall₂_same]
      exact fun t ht => ih t ht (h.item ht)

end Term

/-! ## Agreeing scopes -/

namespace Assignment

/-- The terms stand for equal terms, each under its assignment. -/
def SameValue (θ θ' : Assignment) (t u : Term) : Prop :=
  (θ.value t).equal (θ'.value u) = true

variable {θ θ' θ'' : Assignment}

theorem SameValue.symm {t u : Term} (h : θ.SameValue θ' t u) :
    θ'.SameValue θ u t := by
  rw [SameValue, Term.equal_comm]
  exact h

theorem SameValue.trans {t u v : Term} (htu : θ.SameValue θ' t u)
    (huv : θ'.SameValue θ'' u v) : θ.SameValue θ'' t v :=
  Term.equal_trans htu huv

theorem sameValue_self (t : Term) : θ.SameValue θ t t :=
  Term.equal_self _

theorem sameValue_of_ground {t : Term} (h : t.IsGround) :
    θ.SameValue θ' t t := by
  have hvalue : θ.value t = θ'.value t := Term.value_of_ground h
  rw [SameValue, hvalue]
  exact Term.equal_self _

/-- A variable agrees with the term it is assigned. -/
theorem sameValue_var (hθ : θ.IsGround) (x : Var) :
    θ.SameValue θ' (.var x) (θ x.id) :=
  Term.equal_value_of_ground θ' (θ x.id) (hθ x.id)

/-- Equations carry over to terms that agree. -/
theorem Equates.of_sameValue {u v u' v' : Term} (h : θ.Equates u v)
    (hu : θ.SameValue θ' u u') (hv : θ.SameValue θ' v v') :
    θ'.Equates u' v' := by
  have huv : θ.SameValue θ u v := h
  exact (hu.symm.trans huv).trans hv

theorem compatible_sameValue (θ θ' : Assignment) :
    Compatible (θ.SameValue θ') :=
  ⟨fun _ => Term.equal_self _, fun _ _ _ h => equal_value_composite.mpr h⟩

end Assignment

open Assignment

/-! ## Agreeing truth -/

variable {sg : Signature} {θ θ' : Assignment}

/-- What a closed goal is written from has the same value everywhere. -/
theorem Goal.Closed.sameValue {n : Nat} {g : Goal sg n} (h : g.Closed) :
    g.All (fun t => θ.SameValue θ' t t) fun _ => True :=
  h.mono (fun _ ht => sameValue_of_ground ht) fun _ _ => trivial

/-- **TRUTH DEPENDS ON VALUES ONLY.** -/
theorem Holds.congr {P P' : Program sg} (hP : P.Closed)
    (hbody : ∀ r, P'.body r = P.body r) {n : Nat} {g : Goal sg n}
    {scope scope' : Scope n} {frame : Frame}
    (h : Holds P θ g scope frame)
    (hscope : scope.Related (θ.SameValue θ') scope')
    (hg : g.All (fun t => θ.SameValue θ' t t) fun _ => True) :
    Holds P' θ' g scope' frame := by
  have hR := compatible_sameValue θ θ'
  induction h with
  | eq heq =>
      refine .eq (heq.of_sameValue ?_ ?_)
      · exact Expr.related_eval hR hscope _ hg.1
      · exact Expr.related_eval hR hscope _ hg.2
  | succeed => exact .succeed
  | conj _ _ ihg ihh => exact .conj (ihg hscope hg.1) (ihh hscope hg.2)
  | left _ ih => exact .left (ih hscope hg.1)
  | right _ ih => exact .right (ih hscope hg.2)
  | fresh t ht _ ih =>
      exact .fresh t ht (ih (hscope.push (sameValue_of_ground ht)) hg)
  | letTerm _ ih =>
      refine .letTerm (ih (hscope.push ?_) hg.2)
      exact Expr.related_eval hR hscope _ hg.1
  | delay _ ih => exact .delay (ih hscope hg)
  | always => exact .always
  | @call n site r args fits scope frame _ ih =>
      refine .call ?_
      rw [hbody r]
      exact ih (hscope.evalArgs hR hg) (hP r).sameValue

end LogicSearch
