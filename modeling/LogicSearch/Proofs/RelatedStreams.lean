import LogicSearch.Proofs.Rules
import LogicSearch.Proofs.InStep
import Mathlib.Data.List.Forall2

/-! # Streams in step

    Two streams are related if they have one shape, with related answers and
    related work in the corresponding places.  If related work, started on
    related answers, comes to related streams or fails alike, then related
    streams advance in step (`Related.advance`).  So with the same fuel they
    are pulled to related answers and come to the same kind of end
    (`Related.harvest`). -/

namespace LogicSearch

variable {α β γ δ ε ε' : Type}

/-- The streams have one shape; their answers are related by `R` and their
    work by `Q`. -/
inductive Stream.Related (R : α → β → Prop) (Q : γ → δ → Prop) :
    Stream α γ → Stream β δ → Prop where
  | empty : Related R Q .empty .empty
  | cons {a : α} {b : β} {s : Stream α γ} {t : Stream β δ} : R a b →
      Related R Q s t → Related R Q (.cons a s) (.cons b t)
  | pause {s : Stream α γ} {t : Stream β δ} : Related R Q s t →
      Related R Q (.pause s) (.pause t)
  | call {work : γ} {work' : δ} {a : α} {b : β} : Q work work' → R a b →
      Related R Q (.call work a) (.call work' b)
  | source {items : Nat → Option α} {items' : Nat → Option β} (next : Nat) :
      (∀ i, Option.Rel R (items i) (items' i)) →
      Related R Q (.source items next) (.source items' next)
  | interleave {s s' : Stream α γ} {t t' : Stream β δ} : Related R Q s t →
      Related R Q s' t' → Related R Q (.interleave s s') (.interleave t t')
  | forEach {s : Stream α γ} {t : Stream β δ} {work : γ} {work' : δ} :
      Related R Q s t → Q work work' →
      Related R Q (.forEach s work) (.forEach t work')

/-- The same kind of move, with related answers and rests. -/
inductive Move.Related (R : α → β → Prop) (Q : γ → δ → Prop) :
    Move α γ → Move β δ → Prop where
  | done : Related R Q .done .done
  | yield {a : α} {b : β} {s : Stream α γ} {t : Stream β δ} : R a b →
      s.Related R Q t → Related R Q (.yield a s) (.yield b t)
  | pending {s : Stream α γ} {t : Stream β δ} : s.Related R Q t →
      Related R Q (.pending s) (.pending t)
  | working {s : Stream α γ} {t : Stream β δ} : s.Related R Q t →
      Related R Q (.working s) (.working t)

/-- The same kind of pull, with related answers and rests. -/
inductive Pull.Related (R : α → β → Prop) (Q : γ → δ → Prop) :
    Pull α γ → Pull β δ → Prop where
  | answer {a : α} {b : β} {s : Stream α γ} {t : Stream β δ} : R a b →
      s.Related R Q t → Related R Q (.answer a s) (.answer b t)
  | exhausted : Related R Q .exhausted .exhausted
  | unfinished {s : Stream α γ} {t : Stream β δ} : s.Related R Q t →
      Related R Q (.unfinished s) (.unfinished t)

/-- The same kind of end, with related failures and rests. -/
inductive Harvest.Related (E : ε → ε' → Prop) (R : α → β → Prop)
    (Q : γ → δ → Prop) : Harvest α γ ε → Harvest β δ ε' → Prop where
  | more {s : Stream α γ} {t : Stream β δ} : s.Related R Q t →
      Related E R Q (.more s) (.more t)
  | exhausted : Related E R Q .exhausted .exhausted
  | aborted {e : ε} {e' : ε'} : E e e' →
      Related E R Q (.aborted e) (.aborted e')
  | unfinished {s : Stream α γ} {t : Stream β δ} : s.Related R Q t →
      Related E R Q (.unfinished s) (.unfinished t)

variable {E : ε → ε' → Prop} {R : α → β → Prop} {Q : γ → δ → Prop}

/-- What does not end in an abort, neither does on the other side. -/
theorem Harvest.Related.of_ne_aborted {h : Harvest α γ ε}
    {h' : Harvest β δ ε'} (hrel : h.Related E R Q h')
    (hne : ∀ e, h ≠ .aborted e) : h.Related (fun _ _ => False) R Q h' := by
  cases hrel with
  | more hst => exact .more hst
  | exhausted => exact .exhausted
  | aborted _ => exact absurd rfl (hne _)
  | unfinished hst => exact .unfinished hst

namespace Stream

theorem related_single {a : α} {b : β} (h : R a b) :
    Related R Q (single a) (single b) :=
  .cons h .empty

/-- An empty stream is related to the empty one only. -/
theorem Related.empty_iff {s : Stream α γ} {t : Stream β δ}
    (h : Related R Q s t) : s = .empty ↔ t = .empty := by
  cases h with
  | empty => exact ⟨fun _ => rfl, fun _ => rfl⟩
  | _ => constructor <;> intro h <;> cases h

theorem Related.merge {s s' : Stream α γ} {t t' : Stream β δ}
    (h : Related R Q s t) (h' : Related R Q s' t') :
    Related R Q (s.merge s') (t.merge t') := by
  by_cases hs : s = .empty
  · rw [hs, h.empty_iff.mp hs]
    exact h'
  · have ht := fun ht => hs (h.empty_iff.mpr ht)
    by_cases hs' : s' = .empty
    · rw [hs', h'.empty_iff.mp hs', merge_empty_right, merge_empty_right]
      exact h
    · have ht' := fun ht => hs' (h'.empty_iff.mpr ht)
      rw [merge_eq_interleave hs hs', merge_eq_interleave ht ht']
      exact .interleave h h'

theorem Related.bind {s : Stream α γ} {t : Stream β δ} {work : γ}
    {work' : δ} (h : Related R Q s t) (hwork : Q work work') :
    Related R Q (s.bind work) (t.bind work') := by
  by_cases hs : s = .empty
  · rw [hs, h.empty_iff.mp hs]
    exact .empty
  · have ht := fun ht => hs (h.empty_iff.mpr ht)
    rw [bind_eq_forEach hs, bind_eq_forEach ht]
    exact .forEach h hwork

section Run

variable {run : γ → α → Except ε (Stream α γ)}
  {run' : δ → β → Except ε' (Stream β δ)}

/-- **RELATED STREAMS ADVANCE IN STEP.** -/
theorem Related.advance
    (hrun : ∀ work work' a b, Q work work' → R a b →
      InStep E (Related R Q) (run work a) (run' work' b))
    {s : Stream α γ} {t : Stream β δ} (h : Related R Q s t) :
    InStep E (Move.Related R Q) (s.advance run) (t.advance run') := by
  induction h with
  | empty => exact .ok .done
  | cons hab hst _ => exact .ok (.yield hab hst)
  | pause hst _ => exact .ok (.pending hst)
  | call hwork hab =>
      rw [Stream.advance, Stream.advance]
      rcases (hrun _ _ _ _ hwork hab).cases with
        ⟨r, r', hr, hr', hrr⟩ | ⟨e, e', hr, hr', he⟩
      · rw [hr, hr']
        exact .ok (.pending hrr)
      · rw [hr, hr']
        exact .error he
  | @source items items' next hitems =>
      rw [Stream.advance, Stream.advance]
      have hnext := hitems next
      generalize items next = a at hnext ⊢
      generalize items' next = b at hnext ⊢
      cases hnext with
      | none => exact .ok .done
      | some hab => exact .ok (.yield hab (.pause (.source _ hitems)))
  | interleave _ ht ih _ =>
      rw [Stream.advance, Stream.advance]
      rcases ih.cases with ⟨m, m', hm, hm', hmm⟩ | ⟨e, e', hm, hm', he⟩
      · rw [hm, hm']
        cases hmm with
        | done => exact .ok (.working ht)
        | yield hab hs => exact .ok (.yield hab (hs.merge ht))
        | pending hs => exact .ok (.pending (ht.merge hs))
        | working hs => exact .ok (.working (.interleave hs ht))
      · rw [hm, hm']
        exact .error he
  | forEach _ hwork ih =>
      rw [Stream.advance, Stream.advance]
      rcases ih.cases with ⟨m, m', hm, hm', hmm⟩ | ⟨e, e', hm, hm', he⟩
      · rw [hm, hm']
        cases hmm with
        | done => exact .ok .done
        | yield hab hs =>
            dsimp only
            rcases (hrun _ _ _ _ hwork hab).cases with
              ⟨r, r', hr, hr', hrr⟩ | ⟨e, e', hr, hr', he⟩
            · rw [hr, hr']
              exact .ok (.working (hrr.merge (hs.bind hwork)))
            · rw [hr, hr']
              exact .error he
        | pending hs => exact .ok (.pending (hs.bind hwork))
        | working hs => exact .ok (.working (.forEach hs hwork))
      · rw [hm, hm']
        exact .error he

theorem Related.pull
    (hrun : ∀ work work' a b, Q work work' → R a b →
      InStep E (Related R Q) (run work a) (run' work' b))
    (fuel : Nat) {s : Stream α γ} {t : Stream β δ} (h : Related R Q s t) :
    InStep E (Pull.Related R Q) (s.pull run fuel) (t.pull run' fuel) := by
  induction fuel generalizing s t with
  | zero => exact .ok (.unfinished h)
  | succ fuel ih =>
      rw [Stream.pull, Stream.pull]
      rcases (h.advance hrun).cases with
        ⟨m, m', hm, hm', hmm⟩ | ⟨e, e', hm, hm', he⟩
      · rw [hm, hm']
        cases hmm with
        | done => exact .ok .exhausted
        | yield hab hs => exact .ok (.answer hab hs)
        | pending hs => exact ih hs
        | working hs => exact ih hs
      · rw [hm, hm']
        exact .error he

/-- **RELATED STREAMS HAVE RELATED ANSWERS**, pull by pull, and the same kind
    of end. -/
theorem Related.harvest
    (hrun : ∀ work work' a b, Q work work' → R a b →
      InStep E (Related R Q) (run work a) (run' work' b))
    (fuel count : Nat) {s : Stream α γ} {t : Stream β δ}
    (h : Related R Q s t) :
    List.Forall₂ R (s.harvest run fuel count).1
      (t.harvest run' fuel count).1 ∧
    (s.harvest run fuel count).2.Related E R Q
      (t.harvest run' fuel count).2 := by
  induction count generalizing s t with
  | zero => exact ⟨.nil, .more h⟩
  | succ count ih =>
      rw [Stream.harvest, Stream.harvest]
      rcases (h.pull hrun fuel).cases with
        ⟨p, p', hp, hp', hpp⟩ | ⟨e, e', hp, hp', he⟩
      · rw [hp, hp']
        cases hpp with
        | answer hab hs =>
            obtain ⟨hall, hend⟩ := ih hs
            exact ⟨.cons hab hall, hend⟩
        | exhausted => exact ⟨.nil, .exhausted⟩
        | unfinished hs => exact ⟨.nil, .unfinished hs⟩
      · rw [hp, hp']
        exact ⟨.nil, .aborted he⟩

end Run

end Stream

end LogicSearch
