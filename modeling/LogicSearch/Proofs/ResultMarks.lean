import LogicSearch.Proofs.Resolution
import LogicSearch.Term.Correspondence

/-! # The objects of a full value

    `resolve` builds all composites of a full value anew
    (`Unfolds.unmarked`), and marking gives each of them a mark of its own:
    the marks are the ways down to the composites, so no two agree
    (`Term.nodup_marks_marked`).  So a full value that was built at some
    place of a program holds what `resolve` says, and each of its composites
    is shared with its copies and with no other composite of it
    (`resolveAt_spec`). -/

namespace LogicSearch

namespace Term

mutual

/-- The marks of the composites of a term, from the outside in and from left
    to right. -/
def marks : Term → List (Option Mark)
  | .var _ => []
  | .atom _ => []
  | .composite m ts => m :: marksAll ts

/-- The marks of the composites of all terms of a list. -/
def marksAll : List Term → List (Option Mark)
  | [] => []
  | t :: ts => marks t ++ marksAll ts

end

/-- No composite of the term has a mark. -/
def Unmarked (t : Term) : Prop := ∀ m ∈ t.marks, m = none

/-- No composite of the terms has a mark. -/
def UnmarkedAll (ts : List Term) : Prop := ∀ m ∈ marksAll ts, m = none

theorem Unmarked.eq_none {m : Option Mark} {ts : List Term}
    (h : (composite m ts).Unmarked) : m = none :=
  h m (List.mem_cons_self ..)

theorem Unmarked.items {m : Option Mark} {ts : List Term}
    (h : (composite m ts).Unmarked) : UnmarkedAll ts :=
  fun n hn => h n (List.mem_cons_of_mem _ hn)

theorem UnmarkedAll.head {t : Term} {ts : List Term}
    (h : UnmarkedAll (t :: ts)) : t.Unmarked :=
  fun m hm => h m (List.mem_append_left _ hm)

theorem UnmarkedAll.tail {t : Term} {ts : List Term}
    (h : UnmarkedAll (t :: ts)) : UnmarkedAll ts :=
  fun m hm => h m (List.mem_append_right _ hm)

/-! ## Marking keeps the contents -/

mutual

theorem corresponds_marked (site : Nat) :
    ∀ (t : Term) (frame : Frame),
      t.Corresponds .equality (t.marked site frame)
  | .var _, _ => .var rfl
  | .atom a, _ => .atom (Atom.equal_self a)
  | .composite none ts, frame =>
      .composite trivial (correspondAll_marked site ts frame 0)
  | .composite (some m) ts, _ =>
      equal_iff_corresponds.mp (equal_self (.composite (some m) ts))

theorem correspondAll_marked (site : Nat) :
    ∀ (ts : List Term) (frame : Frame) (i : Nat),
      CorrespondAll .equality ts (markedAll site frame i ts)
  | [], _, _ => .nil
  | t :: ts, frame, i =>
      .cons (corresponds_marked site t (frame.enter i))
        (correspondAll_marked site ts frame (i + 1))

end

/-! ## The marks are the ways down -/

/-- The mark names a composite at or below the place with the given ways
    down. -/
def MarksBelow (site : Nat) (sites : List Nat) (m : Option Mark) : Prop :=
  ∃ mark, m = some mark ∧ mark.site = site ∧
    ∃ more, mark.frame.sites = more ++ sites

mutual

theorem marksBelow_marked {site : Nat} : ∀ {t : Term} {frame : Frame},
    t.Unmarked → ∀ m ∈ (t.marked site frame).marks,
      MarksBelow site frame.sites m
  | .var _, _, _, m, hm => absurd hm List.not_mem_nil
  | .atom _, _, _, m, hm => absurd hm List.not_mem_nil
  | .composite none ts, frame, h, m, hm => by
      rcases List.mem_cons.mp hm with rfl | hm
      · exact ⟨_, rfl, rfl, [], rfl⟩
      · obtain ⟨i, -, mark, rfl, hsite, more, hmore⟩ :=
          marksBelow_markedAll h.items m hm
        exact ⟨mark, rfl, hsite, more ++ [i], by simp [hmore]⟩
  | .composite (some _) _, _, h, _, _ => by cases h.eq_none

/-- Below a composite the next way down is the number of an item. -/
theorem marksBelow_markedAll {site : Nat} :
    ∀ {ts : List Term} {frame : Frame} {i : Nat}, UnmarkedAll ts →
      ∀ m ∈ marksAll (markedAll site frame i ts),
        ∃ j, i ≤ j ∧ MarksBelow site (j :: frame.sites) m
  | [], _, _, _, m, hm => absurd hm List.not_mem_nil
  | t :: ts, frame, i, h, m, hm => by
      rcases List.mem_append.mp hm with hm | hm
      · exact ⟨i, Nat.le_refl i, marksBelow_marked h.head m hm⟩
      · obtain ⟨j, hj, hbelow⟩ := marksBelow_markedAll h.tail m hm
        exact ⟨j, by omega, hbelow⟩

end

/-- Ways down through different items part. -/
theorem MarksBelow.eq_of_cons {site i j : Nat} {sites : List Nat}
    {m : Option Mark} (hi : MarksBelow site (i :: sites) m)
    (hj : MarksBelow site (j :: sites) m) : i = j := by
  obtain ⟨mark, rfl, -, more, hmore⟩ := hi
  obtain ⟨mark', hmark, -, more', hmore'⟩ := hj
  cases hmark
  have htails := (List.append_inj' (hmore.symm.trans hmore') rfl).2
  exact (List.cons.inj htails).1

mutual

/-- **EVERY COMPOSITE GETS A MARK OF ITS OWN.** -/
theorem nodup_marks_marked {site : Nat} : ∀ {t : Term} {frame : Frame},
    t.Unmarked → (t.marked site frame).marks.Nodup
  | .var _, _, _ => List.nodup_nil
  | .atom _, _, _ => List.nodup_nil
  | .composite none ts, frame, h => by
      refine List.nodup_cons.mpr ⟨?_, nodup_marksAll_markedAll h.items⟩
      intro hm
      -- the way down to an item is longer
      obtain ⟨i, -, mark, hmark, -, more, hmore⟩ :=
        marksBelow_markedAll h.items _ hm
      cases hmark
      have hlength := congrArg List.length hmore
      simp only [List.length_append, List.length_cons] at hlength
      omega
  | .composite (some _) _, _, h => by cases h.eq_none

theorem nodup_marksAll_markedAll {site : Nat} :
    ∀ {ts : List Term} {frame : Frame} {i : Nat}, UnmarkedAll ts →
      (marksAll (markedAll site frame i ts)).Nodup
  | [], _, _, _ => List.nodup_nil
  | t :: ts, frame, i, h => by
      refine List.nodup_append.mpr ⟨nodup_marks_marked h.head,
        nodup_marksAll_markedAll h.tail, ?_⟩
      rintro m hm _ hm' rfl
      have hi := marksBelow_marked h.head m hm
      obtain ⟨j, hj, hbelow⟩ := marksBelow_markedAll h.tail m hm'
      have hij : i = j := MarksBelow.eq_of_cons hi hbelow
      omega

end

end Term

namespace Substitution

variable {s : Substitution} {t r : Term}

/-- **ALL COMPOSITES OF A FULL VALUE ARE NEW.** -/
theorem Unfolds.unmarked (h : s.Unfolds t r) : r.Unmarked := by
  refine Unfolds.induct (motive := fun _ r => r.Unmarked) ?unbound
    ?bound ?atom ?composite h
  case unbound => exact fun x _ m hm => absurd hm List.not_mem_nil
  case bound => exact fun x t r _ ih => ih
  case atom => exact fun a m hm => absurd hm List.not_mem_nil
  case composite =>
    intro m ts rs hrs
    have hitems : Term.UnmarkedAll rs := by
      induction hrs with
      | nil => exact fun n hn => absurd hn List.not_mem_nil
      | cons hr _ ih =>
          intro n hn
          rcases List.mem_append.mp hn with hn | hn
          · exact hr n hn
          · exact ih n hn
    intro n hn
    rcases List.mem_cons.mp hn with rfl | hn
    · rfl
    · exact hitems n hn

/-- **A FULL VALUE IS SHARED WITH ITS COPIES.**  Built at some place of a
    program it fails as `resolve` does; otherwise it is equal to what that
    says and shared with itself, all its composites have marks, and no two of
    them have the same. -/
theorem resolveAt_spec (s : Substitution) (site : Nat) (frame : Frame)
    (t : Term) :
    (∀ e, s.resolveAt site frame t = .error e ↔ s.resolve t = .error e) ∧
    ∀ r, s.resolve t = .ok r → ∃ u, s.resolveAt site frame t = .ok u ∧
      r.equal u = true ∧ u.shared u = true ∧ none ∉ u.marks ∧
      u.marks.Nodup := by
  constructor
  · intro e
    rw [resolveAt]
    cases s.resolve t with
    | error e' => exact Iff.rfl
    | ok r =>
        constructor
        · intro h
          cases h
        · intro h
          cases h
  · intro r h
    have hr : r.Unmarked := (unfolds_of_resolve h).unmarked
    refine ⟨r.marked site frame, by rw [resolveAt, h]; rfl,
      Term.equal_iff_corresponds.mpr (Term.corresponds_marked site r frame),
      ?_, ?_, Term.nodup_marks_marked hr⟩
    · cases r with
      | var x => exact beq_self_eq_true x.id
      | atom a => exact beq_self_eq_true a
      | composite m ts =>
          cases hr.eq_none
          exact Term.shared_composite.mpr
            ⟨rfl, rfl, Term.coincideAll_self _⟩
    · intro hnone
      obtain ⟨mark, hmark, -⟩ := Term.marksBelow_marked hr none hnone
      cases hmark

end Substitution

end LogicSearch
