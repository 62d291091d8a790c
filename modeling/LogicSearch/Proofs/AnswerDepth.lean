import LogicSearch.Proofs.Growth
import Mathlib.Data.Finset.Prod
import Mathlib.Data.Finset.Card

/-! # The depth bound costs no answer

    `unify` goes down to a depth that it computes from the sizes of the terms
    and of the substitution.  Here is why that is unification without any
    bound (`unify_eq_of_answered`): a pair of terms that has an answer at
    some depth has one at the computed depth.

    - All terms that come up are among the parts of the terms there are, a
      finite set `T`, and every binding turns one of its unbound variables
      into a bound one (`Grows.openVars_lt`).
    - From a pair that needs depth `d + 1` the recursion comes to a pair that
      needs depth `d` (`NeedsDepth.descend`).  While the substitution stays
      the same, all pairs on the way are different, because each needs a
      depth of its own.
    - So the depth needed is at most the number of pairs for every unbound
      variable, and once more at the end (`NeedsDepth.lt`). -/

namespace LogicSearch

/-! ## The parts of a term -/

namespace Term

mutual

/-- The term and all terms inside it. -/
def parts : Term → List Term
  | .var x => [.var x]
  | .atom a => [.atom a]
  | .composite m ts => .composite m ts :: partsAll ts

/-- The parts of all terms of a list. -/
def partsAll : List Term → List Term
  | [] => []
  | t :: ts => parts t ++ partsAll ts

end

mutual

theorem length_parts : ∀ t : Term, t.parts.length = t.nodes
  | .var _ => rfl
  | .atom _ => rfl
  | .composite _ ts => by
      rw [parts, nodes, List.length_cons, length_partsAll ts, Nat.add_comm]

theorem length_partsAll :
    ∀ ts : List Term, (partsAll ts).length = nodesAll ts
  | [] => rfl
  | t :: ts => by
      rw [partsAll, nodesAll, List.length_append, length_parts t,
        length_partsAll ts]

end

theorem mem_partsAll {t : Term} {us : List Term} :
    t ∈ partsAll us ↔ ∃ u ∈ us, t ∈ u.parts := by
  induction us with
  | nil => simp [partsAll]
  | cons u us ih => simp [partsAll, ih]

theorem mem_parts_self (t : Term) : t ∈ t.parts := by
  cases t with
  | var x => exact List.mem_singleton_self _
  | atom a => exact List.mem_singleton_self _
  | composite m ts => exact List.mem_cons_self ..

/-- The parts of a term include the items of its parts. -/
theorem mem_parts_item {m : Option Mark} {ts : List Term} {t : Term}
    (u : Term) (h : composite m ts ∈ u.parts) (ht : t ∈ ts) :
    t ∈ u.parts := by
  induction u with
  | var x => exact nomatch List.mem_singleton.mp h
  | atom a => exact nomatch List.mem_singleton.mp h
  | composite n us ih =>
      rw [parts] at h ⊢
      refine List.mem_cons_of_mem _ (mem_partsAll.mpr ?_)
      rcases List.mem_cons.mp h with heq | h
      · cases heq
        exact ⟨t, ht, mem_parts_self t⟩
      · obtain ⟨u, hu, hmem⟩ := mem_partsAll.mp h
        exact ⟨u, hu, ih u hu hmem⟩

end Term

namespace Substitution

variable {config : Config}

/-! ## Unbound variables run out -/

/-- The term is an unbound variable. -/
def isOpen (s : Substitution) : Term → Bool
  | .var x => (s.get? x).isNone
  | _ => false

/-- The unbound variables among some terms. -/
def openVars (s : Substitution) (T : Finset Term) : Finset Term :=
  T.filter fun t => s.isOpen t

theorem card_openVars_le (s : Substitution) (T : Finset Term) :
    (s.openVars T).card ≤ T.card :=
  Finset.card_filter_le ..

/-- A binding takes its variable from the unbound ones. -/
theorem Addition.openVars_lt {T : Finset Term} {s s' : Substitution}
    {x : Var} {t : Term} (h : Addition config (· ∈ T) s x t s') :
    (s'.openVars T).card < (s.openVars T).card := by
  refine Finset.card_lt_card ((Finset.ssubset_iff_of_subset ?_).mpr ?_)
  · intro u hu
    rw [openVars, Finset.mem_filter] at hu ⊢
    refine ⟨hu.1, ?_⟩
    cases u with
    | var y =>
        have hy : s'.value? y.id = none := Option.isNone_iff_eq_none.mp hu.2
        rw [h.value?] at hy
        split at hy
        · exact nomatch hy
        · exact Option.isNone_iff_eq_none.mpr hy
    | atom a => exact hu.2
    | composite m ts => exact hu.2
  · refine ⟨.var x, Finset.mem_filter.mpr ⟨h.key, ?_⟩, fun hmem => ?_⟩
    · exact Option.isNone_iff_eq_none.mpr h.unbound
    · have hx := Option.isNone_iff_eq_none.mp (Finset.mem_filter.mp hmem).2
      rw [get?, h.value?, if_pos rfl] at hx
      exact nomatch hx

/-- Growing leaves the substitution alone or has fewer unbound variables. -/
theorem Grows.openVars_lt {T : Finset Term} {s s' : Substitution}
    (h : Grows config (· ∈ T) s s') :
    s' = s ∨ (s'.openVars T).card < (s.openVars T).card := by
  induction h with
  | refl s => exact .inl rfl
  | add hadd _ ih =>
      rcases ih with rfl | hlt
      · exact .inr hadd.openVars_lt
      · exact .inr (hlt.trans hadd.openVars_lt)

/-! ## Where an answer is missing -/

theorem bind_ne_unanswered (s : Substitution) (x : Var) (t : Term) :
    s.bind config x t ≠ .unanswered := by
  intro h
  rcases bind_cases config s x t with
    ⟨e, -, -, hbind⟩ | ⟨-, -, hbind⟩ | ⟨-, hbind⟩
  · cases h.symm.trans hbind
  · cases h.symm.trans hbind
  · rcases s.assign_cases x t with ⟨s', -, hassign⟩ | ⟨e, -, hassign⟩
    · cases (h.symm.trans hbind).trans hassign
    · cases (h.symm.trans hbind).trans hassign

/-- Only two composites of one length can be left without an answer, by
    their items. -/
theorem unifyEnds_unanswered
    {unify : Substitution → Term → Term → Outcome} {s : Substitution}
    {u v : Term} (h : unifyEnds config unify s u v = .unanswered) :
    ∃ m n ts us, u = .composite m ts ∧ v = .composite n us
      ∧ ∀ f, unifyEnds config f s u v = unifyAll f s ts us := by
  have hmeet := unifyEnds_meeting config unify s u v
  have hns : u.shared v = false := by
    refine Bool.eq_false_iff.mpr ?_
    intro huv
    unfold unifyEnds at h
    rw [if_pos huv] at h
    exact nomatch h
  rw [h] at hmeet
  -- the outcome of a meeting is an index, which `cases` needs as a variable
  generalize ho : Outcome.unanswered = o at hmeet
  cases hmeet with
  | @items m n ts us hlen =>
      refine ⟨m, n, ts, us, rfl, rfl, ?_⟩
      intro f
      rw [unifyEnds, hns]
      exact if_pos hlen
  | left => exact (bind_ne_unanswered _ _ _ ho.symm).elim
  | right => exact (bind_ne_unanswered _ _ _ ho.symm).elim
  | shared => exact nomatch ho
  | lengths => exact nomatch ho
  | atoms => exact nomatch ho
  | values => exact nomatch ho
  | atomComposite => exact nomatch ho
  | compositeAtom => exact nomatch ho

/-- If lists are left without an answer by `f` but not by `g`, which goes on
    from the answers of `f`, so is some pair of items. -/
theorem unifyAll_unanswered {good : Term → Prop}
    {f g : Substitution → Term → Term → Outcome}
    (hfg : ∀ s t u, f s t u ≠ .unanswered → g s t u = f s t u)
    (hgrows : ∀ s s' t u, s.Over good → good t → good u →
      f s t u = .unified s' → Grows config good s s') :
    ∀ (ts us : List Term) (s : Substitution), s.Over good →
      (∀ t ∈ ts, good t) → (∀ u ∈ us, good u) →
      unifyAll f s ts us = .unanswered →
      unifyAll g s ts us ≠ .unanswered →
      ∃ s' t u, Grows config good s s' ∧ good t ∧ good u
        ∧ f s' t u = .unanswered ∧ g s' t u ≠ .unanswered := by
  intro ts
  induction ts with
  | nil => intro us s _ _ _ h _; cases h
  | cons t ts ih =>
      intro us s hs hts hus h hg
      cases us with
      | nil => cases h
      | cons u us =>
          have ht := hts t (List.mem_cons_self ..)
          have hu := hus u (List.mem_cons_self ..)
          rcases unifyAll_cons f s t u ts us with
            ⟨s₁, htu, hall⟩ | ⟨-, hall⟩
          · have hftu : f s t u ≠ .unanswered := by
              rw [htu]
              intro h
              cases h
            have hgtu : g s t u = .unified s₁ := by
              rw [hfg s t u hftu, htu]
            rw [unifyAll, hgtu] at hg
            have h₁ := hgrows s s₁ t u hs ht hu htu
            obtain ⟨s', t', u', hgrow, hrest⟩ := ih us s₁ (h₁.over hs)
              (fun t ht => hts t (List.mem_cons_of_mem _ ht))
              (fun u hu => hus u (List.mem_cons_of_mem _ hu))
              (hall.symm.trans h) hg
            exact ⟨s', t', u', h₁.trans hgrow, hrest⟩
          · refine ⟨s, t, u, .refl s, ht, hu, hall.symm.trans h, ?_⟩
            intro hgtu
            rw [unifyAll, hgtu] at hg
            exact hg rfl

/-! ## The depth that a pair needs -/

/-- The pair has an answer at depth `d + 1` and none at depth `d`. -/
def NeedsDepth (config : Config) (d : Nat) (s : Substitution)
    (u v : Term) : Prop :=
  unifyAt config d s u v = .unanswered
    ∧ unifyAt config (d + 1) s u v ≠ .unanswered

theorem NeedsDepth.unique {d e : Nat} {s : Substitution} {u v : Term}
    (hd : NeedsDepth config d s u v) (he : NeedsDepth config e s u v) :
    d = e := by
  -- an answer at a smaller depth would be one at the larger
  have hle : ∀ {a b}, NeedsDepth config a s u v →
      NeedsDepth config b s u v → a ≤ b := by
    intro a b ha hb
    by_contra hlt
    have hmono := unifyAt_mono (by omega : b + 1 ≤ a) s u v hb.2
    rw [ha.1] at hmono
    exact hb.2 hmono.symm
  exact Nat.le_antisymm (hle hd he) (hle he hd)

/-- What has an answer needs some depth. -/
theorem exists_needsDepth {n : Nat} {s : Substitution} {u v : Term}
    (h : unifyAt config n s u v ≠ .unanswered) :
    ∃ d < n, NeedsDepth config d s u v := by
  induction n with
  | zero => exact absurd rfl h
  | succ n ih =>
      by_cases hn : unifyAt config n s u v = .unanswered
      · exact ⟨n, Nat.lt_succ_self n, hn, h⟩
      · obtain ⟨d, hd, hneeds⟩ := ih hn
        exact ⟨d, Nat.lt_succ_of_lt hd, hneeds⟩

/-- **ONE STEP DOWN**: the recursion comes to a pair that needs one step
    less. -/
theorem NeedsDepth.descend {good : Term → Prop} (hgood : ItemClosed good)
    {d : Nat} {s : Substitution} {u v : Term} (hs : s.Over good)
    (hu : good u) (hv : good v) (h : NeedsDepth config (d + 1) s u v) :
    ∃ s' t t', Grows config good s s' ∧ good t ∧ good t'
      ∧ NeedsDepth config d s' t t' := by
  obtain ⟨hnone, hsome⟩ := h
  rw [unifyAt] at hnone hsome
  cases hwu : s.walk u with
  | error e => rw [hwu] at hnone; cases hnone
  | ok u' =>
      cases hwv : s.walk v with
      | error e => rw [hwu, hwv] at hnone; cases hnone
      | ok v' =>
          simp only [hwu, hwv] at hnone hsome
          obtain ⟨m, n, ts, us, rfl, rfl, hends⟩ :=
            unifyEnds_unanswered hnone
          rw [hends] at hnone hsome
          exact unifyAll_unanswered
            (fun s t u => unifyAt_mono (Nat.le_succ d) s t u)
            (fun s s' t u hs => unifyAt_grows hgood d s s' t u hs.valueClosed)
            ts us s hs
            (hgood _ _ (hs.walk hu hwu)) (hgood _ _ (hs.walk hv hwv))
            hnone hsome

open Classical in
/-- The pairs of terms of `T` that need at most depth `d`. -/
noncomputable def shallow (config : Config) (T : Finset Term) (d : Nat)
    (s : Substitution) : Finset (Term × Term) :=
  (T ×ˢ T).filter fun p => ∃ e ≤ d, NeedsDepth config e s p.1 p.2

theorem mem_shallow {T : Finset Term} {d : Nat} {s : Substitution}
    {u v : Term} : (u, v) ∈ shallow config T d s ↔
      (u ∈ T ∧ v ∈ T) ∧ ∃ e ≤ d, NeedsDepth config e s u v := by
  classical
  rw [shallow, Finset.mem_filter, Finset.mem_product]

theorem card_shallow_le (config : Config) (T : Finset Term) (d : Nat)
    (s : Substitution) :
    (shallow config T d s).card ≤ T.card * T.card := by
  rw [← Finset.card_product]
  refine Finset.card_le_card ?_
  intro p hp
  exact Finset.mem_product.mpr (mem_shallow.mp hp).1

/-- A pair that needs more depth is a further pair. -/
theorem NeedsDepth.card_shallow_lt {T : Finset Term} {d : Nat}
    {s : Substitution} {u v : Term} (hu : u ∈ T) (hv : v ∈ T)
    (h : NeedsDepth config (d + 1) s u v) :
    (shallow config T d s).card < (shallow config T (d + 1) s).card := by
  refine Finset.card_lt_card ((Finset.ssubset_iff_of_subset ?_).mpr ?_)
  · rintro ⟨a, b⟩ hab
    obtain ⟨hmem, e, he, hneeds⟩ := mem_shallow.mp hab
    exact mem_shallow.mpr ⟨hmem, e, Nat.le_succ_of_le he, hneeds⟩
  · refine ⟨(u, v), mem_shallow.mpr ⟨⟨hu, hv⟩, d + 1, Nat.le_refl _, h⟩, ?_⟩
    intro hmem
    obtain ⟨-, e, he, hneeds⟩ := mem_shallow.mp hmem
    have := hneeds.unique h
    omega

/-- **FEW PAIRS, LITTLE DEPTH**: the depth needed is less than the number of
    pairs that need no more, and all pairs for every unbound variable. -/
theorem NeedsDepth.lt {T : Finset Term} (hT : ItemClosed (· ∈ T))
    (d : Nat) : ∀ (s : Substitution) (u v : Term), s.Over (· ∈ T) →
      u ∈ T → v ∈ T → NeedsDepth config d s u v →
      d < (shallow config T d s).card
        + T.card * T.card * (s.openVars T).card := by
  induction d with
  | zero =>
      intro s u v _ hu hv h
      have hpos : 0 < (shallow config T 0 s).card :=
        Finset.card_pos.mpr ⟨(u, v), mem_shallow.mpr
          ⟨⟨hu, hv⟩, 0, Nat.le_refl 0, h⟩⟩
      omega
  | succ d ih =>
      intro s u v hs hu hv h
      have hmore := h.card_shallow_lt hu hv
      obtain ⟨s', t, t', hgrow, ht, ht', hneeds⟩ := h.descend hT hs hu hv
      have hlt := ih s' t t' (hgrow.over hs) ht ht' hneeds
      rcases hgrow.openVars_lt with rfl | hopen
      · omega
      · -- a variable was bound on the way, and the count starts anew
        have hall := card_shallow_le config T d s'
        have hmul := Nat.mul_le_mul_left (T.card * T.card)
          (Nat.succ_le_of_lt hopen)
        rw [Nat.mul_succ] at hmul
        omega

/-! ## The computed depth -/

/-- The parts of two terms and of all values. -/
def allParts (s : Substitution) (u v : Term) : Finset Term :=
  (Term.partsAll (u :: v :: s.bindings.map (·.value))).toFinset

theorem itemClosed_allParts (s : Substitution) (u v : Term) :
    ItemClosed (· ∈ s.allParts u v) := by
  intro m ts h t ht
  rw [allParts, List.mem_toFinset, Term.mem_partsAll] at h ⊢
  obtain ⟨w, hw, hmem⟩ := h
  exact ⟨w, hw, Term.mem_parts_item w hmem ht⟩

theorem mem_allParts {s : Substitution} {u v t : Term}
    (h : t = u ∨ t = v ∨ ∃ i, s.value? i = some t) :
    t ∈ s.allParts u v := by
  rw [allParts, List.mem_toFinset, Term.mem_partsAll]
  refine ⟨t, ?_, Term.mem_parts_self t⟩
  rcases h with rfl | rfl | ⟨i, hi⟩
  · exact List.mem_cons_self ..
  · exact List.mem_cons_of_mem _ (List.mem_cons_self ..)
  · obtain ⟨b, hb, -, rfl⟩ := exists_mem_bindings hi
    exact List.mem_cons_of_mem _
      (List.mem_cons_of_mem _ (List.mem_map_of_mem hb))

theorem card_allParts_le (s : Substitution) (u v : Term) :
    (s.allParts u v).card ≤ s.nodes + u.nodes + v.nodes := by
  refine (List.toFinset_card_le _).trans (Nat.le_of_eq ?_)
  rw [Term.length_partsAll, Term.nodesAll, Term.nodesAll, nodes]
  omega

/-- **THE BOUND COSTS NO ANSWER**: what unification answers at any depth is
    what it answers. -/
theorem unify_eq_of_answered {n : Nat} {s : Substitution} {u v : Term}
    (h : unifyAt config n s u v ≠ .unanswered) :
    s.unify config u v = unifyAt config n s u v := by
  obtain ⟨d, hdn, hneeds⟩ := exists_needsDepth h
  have hlt := hneeds.lt (itemClosed_allParts s u v) d s u v
    (fun i t hi => mem_allParts (.inr (.inr ⟨i, hi⟩)))
    (mem_allParts (.inl rfl)) (mem_allParts (.inr (.inl rfl)))
  have hpairs := card_shallow_le config (s.allParts u v) d s
  have hcard := card_allParts_le s u v
  have hopen := s.card_openVars_le (s.allParts u v)
  have hbound : d + 1 ≤ s.depthBound u v := by
    have hcount :
        (s.allParts u v).card + 1 ≤ s.nodes + u.nodes + v.nodes + 1 :=
      Nat.succ_le_succ hcard
    have hvars := Nat.mul_le_mul_left
      ((s.allParts u v).card * (s.allParts u v).card) hopen
    calc d + 1
        ≤ (s.allParts u v).card * (s.allParts u v).card
            * ((s.allParts u v).card + 1) := by rw [Nat.mul_succ]; omega
      _ ≤ s.depthBound u v :=
          Nat.mul_le_mul (Nat.mul_le_mul (Nat.le_of_lt hcount)
            (Nat.le_of_lt hcount)) hcount
  have hanswer := unifyAt_mono hdn s u v hneeds.2
  rw [unify_eq_unifyAt, hanswer]
  exact unifyAt_mono (hbound.trans (Nat.le_max_right ..)) s u v hneeds.2

/-- Without an answer there is none at any depth. -/
theorem unify_eq_unanswered_iff {s : Substitution} {u v : Term} :
    s.unify config u v = .unanswered ↔
      ∀ n, unifyAt config n s u v = .unanswered := by
  constructor
  · intro h n
    by_contra hn
    exact hn ((unify_eq_of_answered hn).symm.trans h)
  · intro h
    rw [unify_eq_unifyAt]
    exact h _

end Substitution

end LogicSearch
