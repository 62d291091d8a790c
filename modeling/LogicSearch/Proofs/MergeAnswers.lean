import LogicSearch.Proofs.AnswerNumbers
import LogicSearch.Proofs.BindTurns

/-! # The answers of merged streams, and short binds

    Two merged streams answer as often as both of them together, however
    their turns fall (`HasTurns.nth_merge_equiv`): an answer of either comes
    out in one slot of the alternation, and no slot is taken twice.

    Where a stream has one turn only, its merge with another begins with that
    turn (`Turn.merge_last`), and its bind does all the work in one turn, one
    answer after the other (`Turn.bind_last`).  Work that answers at once
    with what it was started on changes no turn (`HasTurns.bind_single`), and
    neither does a single answer on which the work is started
    (`hasTurns_single_bind_iff`). -/

namespace LogicSearch.Stream

variable {α γ ε : Type} {run : γ → α → Except ε (Stream α γ)} {work : γ}
  {s t head : Stream α γ} {a : α} {as bs : List α}
  {next : Option (Stream α γ)} {S T U : Turns α}

/-! ## As many answers as both streams have -/

/-- The slots that hold an answer, in the turns that two streams share. -/
theorem Turns.Shuffle.slots_equiv {left right : Slot → Slot}
    (h : Shuffle S T U left right) (a : α) :
    Nonempty ({p // S.answer? p = some a} ⊕ {q // T.answer? q = some a} ≃
      {r // U.answer? r = some a}) := by
  refine exists_equiv_of_rel (R := fun x r => match x with
    | .inl p => left p.1 = r.1
    | .inr q => right q.1 = r.1) ?_ ?_ ?_
  · rintro (⟨p, hp⟩ | ⟨q, hq⟩)
    · exact ⟨⟨_, h.left_answer p a hp⟩, rfl⟩
    · exact ⟨⟨_, h.right_answer q a hq⟩, rfl⟩
  · rintro ⟨r, hr⟩
    rcases h.origin r a hr with ⟨p, hp, heq⟩ | ⟨q, hq, heq⟩
    · exact ⟨.inl ⟨p, hp⟩, heq⟩
    · exact ⟨.inr ⟨q, hq⟩, heq⟩
  · rintro (⟨p, hp⟩ | ⟨q, hq⟩) (⟨p', hp'⟩ | ⟨q', hq'⟩) ⟨r, hr⟩ ⟨r', hr'⟩
      heq heq'
    all_goals
      dsimp only at heq heq'
      subst heq heq'
      rw [Subtype.mk.injEq]
    · rw [Sum.inl.injEq, Subtype.mk.injEq]
      exact ⟨congrArg left, slot_inj h.left_before hp hp'⟩
    · exact iff_of_false (fun h => by cases h) (h.apart p q' a a hp hq')
    · exact iff_of_false (fun h => by cases h) (h.apart p' q a a hp' hq).symm
    · rw [Sum.inr.injEq, Subtype.mk.injEq]
      exact ⟨congrArg right, slot_inj h.right_before hq hq'⟩

/-- **AS MANY ANSWERS AS BOTH STREAMS HAVE.** -/
theorem HasTurns.nth_merge_equiv (hs : HasTurns run s S)
    (ht : HasTurns run t T) (a : α) :
    Nonempty ({k // Nth run (s.merge t) k a} ≃
      {i // Nth run s i a} ⊕ {j // Nth run t j a}) := by
  obtain ⟨left, right, h⟩ := hs.proper.exists_shuffle ht.proper
  obtain ⟨e⟩ := (hs.merge ht).nth_equiv_slots a
  obtain ⟨el⟩ := hs.nth_equiv_slots a
  obtain ⟨er⟩ := ht.nth_equiv_slots a
  obtain ⟨f⟩ := h.slots_equiv a
  exact ⟨(e.trans f.symm).trans (Equiv.sumCongr el er).symm⟩

/-! ## Streams of one turn -/

/-- What is merged with a stream of one turn goes on in that turn. -/
theorem Turn.merge_last (hs : Turn run s as none)
    (ht : Turn run t bs next) : Turn run (s.merge t) (as ++ bs) next := by
  obtain ⟨m⟩ := exists_merging s t
  exact m.turn_last hs ht (hs.interleave_last ht)

/-- **WITHOUT PAUSES**, the work is done on one answer after the other. -/
theorem Turn.bind_last {f : α → List α} (hs : Turn run s as none)
    (hwork : ∀ a ∈ as, ∃ head, run work a = .ok head ∧
      Turn run head (f a) none) :
    Turn run (s.bind work) (as.flatMap f) none := by
  rw [turn_bind_iff]
  generalize hnone : none = next at hs
  induction hs with
  | done h => exact .done (by rw [advance, h])
  | pending _ => cases hnone
  | @yield s rest a as next h hrest ih =>
      obtain ⟨head, hrun, hhead⟩ := hwork a (List.mem_cons_self ..)
      have hbind := ih (fun b hb => hwork b (List.mem_cons_of_mem _ hb)) hnone
      rw [← turn_bind_iff] at hbind ⊢
      rw [(Step.yield h).turn_bind_iff hrun, List.flatMap_cons]
      exact hhead.merge_last hbind
  | working h _ ih => exact .working (by rw [advance, h]) (ih hwork hnone)

/-! ## Binds that change no turn -/

theorem turn_single (a : α) : Turn run (single a) [a] none :=
  .yield rfl (.done rfl)

/-- **WORK THAT ANSWERS WITH WHAT IT IS STARTED ON** changes no turn. -/
theorem Turn.bind_single (hs : Turn run s as next)
    (hwork : ∀ a, run work a = .ok (.single a)) :
    Turn run (s.bind work) as (next.map fun rest => rest.bind work) := by
  rw [turn_bind_iff]
  induction hs with
  | done h => exact .done (by rw [advance, h])
  | pending h => exact .pending (by rw [advance, h])
  | @yield s rest a as next h _ ih =>
      rw [← turn_bind_iff] at ih ⊢
      rw [(Step.yield h).turn_bind_iff (hwork a)]
      exact (turn_single a).merge_last ih
  | working h _ ih => exact .working (by rw [advance, h]) ih

theorem HasTurns.bind_single (hs : HasTurns run s S)
    (hwork : ∀ a, run work a = .ok (.single a)) :
    HasTurns run (s.bind work) S := by
  have hschedule : IsSchedule run fun u U =>
      ∃ t, u = t.bind work ∧ HasTurns run t U := by
    rintro u U ⟨t, rfl, ht⟩
    obtain ⟨as, next, has, hturn, hrest⟩ := hasTurns_isSchedule t U ht
    refine ⟨as, _, has, hturn.bind_single hwork, ?_⟩
    cases next with
    | none => exact hrest
    | some rest => exact ⟨rest, rfl, hrest⟩
  exact hschedule.hasTurns ⟨s, rfl, hs⟩

/-- Nor does it matter whether the work is started by a bind. -/
theorem hasTurns_single_bind_iff (hrun : run work a = .ok head)
    (U : Turns α) :
    HasTurns run ((single a).bind work) U ↔ HasTurns run head U := by
  have hstep : Step run (single a) (.ok (.yield a empty)) := .yield rfl
  rw [hstep.hasTurns_bind_iff hrun]
  show HasTurns run (head.merge empty) U ↔ _
  rw [merge_empty_right]

end LogicSearch.Stream
