import LogicSearch.Proofs.AnswerNumbers
import LogicSearch.Proofs.BindPulls
import LogicSearch.Proofs.BindTurns
import Mathlib.Logic.Equiv.Basic

/-! # The answers of a bind

    `Lands` follows what the work yields to the turns of the bind.  What it
    begins on the first answer is the left side of a merge, and the bind of
    the rest is the right side, so an answer of the work on answer `i` goes
    to the right `i` times and then to the left.  On the way it comes out in
    no earlier turn, and one turn later wherever the stream has paused.

    All that the work yields lands (`exists_lands`), nothing else does
    (`HasTurns.exists_lands`), and no two answers land in one slot
    (`Lands.unique`).  So the bind has as many answers as the work on all
    answers of the stream together (`HasTurns.nth_bind_equiv`). -/

namespace LogicSearch.Stream

variable {α γ ε : Type} {run : γ → α → Except ε (Stream α γ)} {work : γ}
  {s rest head : Stream α γ} {a b : α} {S T U : Turns α}

/-! ## Whole steps and pulls -/

theorem Nth.unique {k : Nat} (h : Nth run s k a) (h' : Nth run s k b) :
    a = b := by
  induction h with
  | here hs =>
      cases h' with
      | here hs' => cases hs.symm.trans hs'; rfl
      | pending hs' _ => cases hs.symm.trans hs'
      | working hs' _ => cases hs.symm.trans hs'
  | later hs _ ih =>
      cases h' with
      | later hs' h' => cases hs.symm.trans hs'; exact ih h'
      | pending hs' _ => cases hs.symm.trans hs'
      | working hs' _ => cases hs.symm.trans hs'
  | pending hs _ ih =>
      cases h' with
      | here hs' => cases hs.symm.trans hs'
      | later hs' _ => cases hs.symm.trans hs'
      | pending hs' h' => cases hs.symm.trans hs'; exact ih h'
      | working hs' _ => cases hs.symm.trans hs'
  | working hs _ ih =>
      cases h' with
      | here hs' => cases hs.symm.trans hs'
      | later hs' _ => cases hs.symm.trans hs'
      | pending hs' _ => cases hs.symm.trans hs'
      | working hs' h' => cases hs.symm.trans hs'; exact ih h'

theorem Step.nth_zero (h : Step run s (.ok (.yield a rest))) :
    Nth run s 0 a := by
  generalize hr : Except.ok (Move.yield a rest) = r at h
  induction h with
  | last hs _ => subst hr; exact .here hs
  | working hs _ ih => exact .working hs (ih hr)

theorem Step.nth_succ {k : Nat} (h : Step run s (.ok (.yield a rest)))
    (hk : Nth run rest k b) : Nth run s (k + 1) b := by
  generalize hr : Except.ok (Move.yield a rest) = r at h
  induction h with
  | last hs _ => subst hr; exact .later hs hk
  | working hs _ ih => exact .working hs (ih hr)

theorem Step.nth_pending {k : Nat} (h : Step run s (.ok (.pending rest)))
    (hk : Nth run rest k b) : Nth run s k b := by
  generalize hr : Except.ok (Move.pending rest) = r at h
  induction h with
  | last hs _ => subst hr; exact .pending hs hk
  | working hs _ ih => exact .working hs (ih hr)

/-- A pause is a turn without answers. -/
theorem Step.turns_of_pending (h : Step run s (.ok (.pending rest)))
    (hs : HasTurns run s S) : S 0 = some [] ∧ HasTurns run rest S.tail := by
  generalize hr : Except.ok (Move.pending rest) = r at h
  induction h with
  | last hmove _ => subst hr; exact hs.of_pending hmove
  | working hmove _ ih => exact ih (hs.of_working hmove) hr

/-- A stream at its end has no answers left. -/
theorem Step.answer?_of_done (h : Step run s (.ok .done))
    (hs : HasTurns run s S) (p : Slot) : S.answer? p = none := by
  have hlast : Turn run s [] none := by
    generalize hr : Except.ok Move.done = r at h
    induction h with
    | last hmove _ => subst hr; exact .done hmove
    | working hmove _ ih => exact .working hmove (ih (hs.of_working hmove) hr)
  obtain ⟨as, next, has, hturn, hrest⟩ := hasTurns_isSchedule s S hs
  obtain ⟨rfl, rfl⟩ := hturn.unique hlast
  obtain ⟨i, j⟩ := p
  cases i with
  | zero => exact (Turns.answer?_zero has j).trans List.getElem?_nil
  | succ i =>
      rw [Turns.answer?_succ, Turns.answer?, hrest i, Option.bind_none]

/-- A turn starts with a whole step. -/
theorem Turn.step_cases {as : List α} {next : Option (Stream α γ)}
    (h : Turn run s as next) :
    (Step run s (.ok .done) ∧ as = [] ∧ next = none) ∨
    (∃ rest, Step run s (.ok (.pending rest)) ∧ as = [] ∧
      next = some rest) ∨
    ∃ a rest bs, Step run s (.ok (.yield a rest)) ∧ as = a :: bs ∧
      Turn run rest bs next := by
  induction h with
  | done hs => exact .inl ⟨.done hs, rfl, rfl⟩
  | pending hs => exact .inr (.inl ⟨_, .pending hs, rfl, rfl⟩)
  | yield hs hrest _ => exact .inr (.inr ⟨_, _, _, .yield hs, rfl, hrest⟩)
  | working hs _ ih =>
      rcases ih with ⟨h, has, hnext⟩ | ⟨rest, h, has, hnext⟩
        | ⟨a, rest, bs, h, has, hrest⟩
      · exact .inl ⟨.working hs h, has, hnext⟩
      · exact .inr (.inl ⟨rest, .working hs h, has, hnext⟩)
      · exact .inr (.inr ⟨a, rest, bs, .working hs h, has, hrest⟩)

/-! ## Where the answers of the work come out -/

/-- The stream yields an answer, on which the work begins a stream with the
    turns `T`; the bind of the rest has the turns `V`. -/
inductive Opens (run : γ → α → Except ε (Stream α γ)) (work : γ)
    (s rest : Stream α γ) (T V : Turns α) : Prop where
  | intro {a : α} {head : Stream α γ} : Step run s (.ok (.yield a rest)) →
      run work a = .ok head → HasTurns run head T →
      HasTurns run (rest.bind work) V → Opens run work s rest T V

section Opens

variable {rest' : Stream α γ} {V T' V' : Turns α}

theorem Opens.unique (h : Opens run work s rest T V)
    (h' : Opens run work s rest' T' V') : rest = rest' ∧ T = T' ∧ V = V' := by
  obtain ⟨hstep, hrun, hT, hV⟩ := h
  obtain ⟨hstep', hrun', hT', hV'⟩ := h'
  cases hstep.unique hstep'
  cases hrun.symm.trans hrun'
  exact ⟨rfl, hT.unique hT', hV.unique hV'⟩

theorem Opens.not_pending (h : Opens run work s rest T V) :
    ¬ Step run s (.ok (.pending rest')) := by
  obtain ⟨hstep, -, -, -⟩ := h
  intro hstep'
  cases hstep.unique hstep'

theorem Opens.rest_turns (h : Opens run work s rest T V) :
    HasTurns run (rest.bind work) V := by
  obtain ⟨-, -, -, hV⟩ := h
  exact hV

/-- The turns of the bind are those of `T` and `V` in alternation, -/
theorem Opens.eq_alternate (h : Opens run work s rest T V)
    (hU : HasTurns run (s.bind work) U) : U = T.alternate V := by
  obtain ⟨hstep, hrun, hT, hV⟩ := h
  exact ((hstep.hasTurns_bind_iff hrun U).mp hU).unique (hT.merge hV)

/-- so the answers of both come out there. -/
theorem Opens.shuffle (h : Opens run work s rest T V) :
    Turns.Shuffle T V (T.alternate V) (T.leftSlot V) (T.rightSlot V) := by
  obtain ⟨-, -, hT, hV⟩ := h
  exact hT.proper.shuffle hV.proper

end Opens

/-- The work on answer `i` of the stream has `b` in slot `p`, and that comes
    out in slot `r` of the bind. -/
inductive Lands (run : γ → α → Except ε (Stream α γ)) (work : γ) :
    Stream α γ → Nat → Slot → α → Slot → Prop where
  | first {s rest : Stream α γ} {T V : Turns α} {p : Slot} {b : α} :
      Opens run work s rest T V → T.answer? p = some b →
      Lands run work s 0 p b (T.leftSlot V p)
  | later {s rest : Stream α γ} {T V : Turns α} {i : Nat} {p q : Slot}
      {b : α} : Opens run work s rest T V → Lands run work rest i p b q →
      Lands run work s (i + 1) p b (T.rightSlot V q)
  | pending {s rest : Stream α γ} {i : Nat} {p q : Slot} {b : α} :
      Step run s (.ok (.pending rest)) → Lands run work rest i p b q →
      Lands run work s i p b q.next

variable {i i' : Nat} {p p' r r' : Slot} {b' : α}

theorem Lands.of_working (h : Lands run work rest i p b r)
    (hs : s.advance run = .ok (.working rest)) : Lands run work s i p b r := by
  have hopens : ∀ {rest' : Stream α γ} {T V : Turns α},
      Opens run work rest rest' T V → Opens run work s rest' T V := by
    rintro rest' T V ⟨hstep, hrun, hT, hV⟩
    exact ⟨.working hs hstep, hrun, hT, hV⟩
  cases h with
  | first ho hb => exact .first (hopens ho) hb
  | later ho h => exact .later (hopens ho) h
  | pending hstep h => exact .pending (.working hs hstep) h

/-- **WHAT THE WORK YIELDS LANDS.** -/
theorem exists_lands (h : Nth run s i a) (hs : HasTurns run s S)
    (hwork : Workable run s work) (hrun : run work a = .ok head)
    (hhead : HasTurns run head T) (hb : T.answer? p = some b) :
    ∃ r, Lands run work s i p b r := by
  induction h generalizing S with
  | here hmove =>
      obtain ⟨as, -, hrest⟩ := hs.of_yield hmove
      obtain ⟨V, hV⟩ := hrest.exists_bind (hwork.of_yield hmove)
      exact ⟨_, .first ⟨.yield hmove, hrun, hhead, hV⟩ hb⟩
  | later hmove _ ih =>
      obtain ⟨as, -, hrest⟩ := hs.of_yield hmove
      obtain ⟨V, hV⟩ := hrest.exists_bind (hwork.of_yield hmove)
      obtain ⟨head', T', hrun', hhead'⟩ := hwork.head hmove
      obtain ⟨q, hq⟩ := ih hrest (hwork.of_yield hmove) hrun
      exact ⟨_, .later ⟨.yield hmove, hrun', hhead', hV⟩ hq⟩
  | pending hmove _ ih =>
      obtain ⟨-, hrest⟩ := hs.of_pending hmove
      obtain ⟨q, hq⟩ := ih hrest (hwork.of_pending hmove) hrun
      exact ⟨_, .pending (.pending hmove) hq⟩
  | working hmove _ ih =>
      obtain ⟨q, hq⟩ :=
        ih (hs.of_working hmove) (hwork.of_working hmove) hrun
      exact ⟨_, hq.of_working hmove⟩

/-- What lands comes from the work on an answer of the stream, -/
theorem Lands.exists_nth (h : Lands run work s i p b r) :
    ∃ a head T, Nth run s i a ∧ run work a = .ok head ∧
      HasTurns run head T ∧ T.answer? p = some b := by
  induction h with
  | first ho hb =>
      obtain ⟨hstep, hrun, hT, -⟩ := ho
      exact ⟨_, _, _, hstep.nth_zero, hrun, hT, hb⟩
  | later ho _ ih =>
      obtain ⟨hstep, -, -, -⟩ := ho
      obtain ⟨a, head, T, ha, h⟩ := ih
      exact ⟨a, head, T, hstep.nth_succ ha, h⟩
  | pending hstep _ ih =>
      obtain ⟨a, head, T, ha, h⟩ := ih
      exact ⟨a, head, T, hstep.nth_pending ha, h⟩

/-- and it is in the turns of the bind. -/
theorem Lands.answer? (h : Lands run work s i p b r)
    (hU : HasTurns run (s.bind work) U) : U.answer? r = some b := by
  induction h generalizing U with
  | first ho hb =>
      rw [ho.eq_alternate hU]
      exact ho.shuffle.left_answer _ _ hb
  | later ho _ ih =>
      rw [ho.eq_alternate hU]
      exact ho.shuffle.right_answer _ _ (ih ho.rest_turns)
  | pending hstep _ ih =>
      exact ih ((hstep.bind_pending work).turns_of_pending hU).2

/-- **NO TWO ANSWERS LAND IN ONE SLOT**, and none in two. -/
theorem Lands.unique (h : Lands run work s i p b r)
    (h' : Lands run work s i' p' b' r') :
    (i = i' ∧ p = p') ↔ r = r' := by
  -- both go the same way as long as they go to the right
  induction h generalizing i' r' with
  | first ho hb =>
      cases h' with
      | first ho' hb' =>
          obtain ⟨-, rfl, rfl⟩ := ho.unique ho'
          refine ⟨fun h => by rw [h.2], fun h => ⟨rfl, ?_⟩⟩
          exact Turns.slot_inj ho.shuffle.left_before hb hb' h
      | later ho' h' =>
          obtain ⟨rfl, rfl, rfl⟩ := ho.unique ho'
          have hapart := ho.shuffle.apart _ _ _ _ hb (h'.answer? ho.rest_turns)
          exact iff_of_false (fun h => by cases h.1) hapart
      | pending hstep _ => exact absurd hstep ho.not_pending
  | later ho h ih =>
      cases h' with
      | first ho' hb' =>
          obtain ⟨rfl, rfl, rfl⟩ := ho.unique ho'
          have hapart := ho.shuffle.apart _ _ _ _ hb' (h.answer? ho.rest_turns)
          exact iff_of_false (fun h => by cases h.1) hapart.symm
      | later ho' h' =>
          obtain ⟨rfl, rfl, rfl⟩ := ho.unique ho'
          rw [Nat.succ_inj, ih h']
          refine ⟨fun heq => by rw [heq], fun heq => ?_⟩
          exact Turns.slot_inj ho.shuffle.right_before
            (h.answer? ho.rest_turns) (h'.answer? ho.rest_turns) heq
      | pending hstep _ => exact absurd hstep ho.not_pending
  | pending hstep _ ih =>
      cases h' with
      | first ho' _ => exact absurd hstep ho'.not_pending
      | later ho' _ => exact absurd hstep ho'.not_pending
      | pending hstep' h' =>
          cases hstep.unique hstep'
          exact (ih h').trans Slot.next_inj.symm

/-- What the bind yields up to some turn has landed there, if that is so of
    what it yields in earlier turns. -/
theorem Turn.exists_lands {as : List α} {next : Option (Stream α γ)}
    (hturn : Turn run s as next) (hnext : Rest (HasTurns run) next S)
    (hwork : Workable run s work) (hU : HasTurns run (s.bind work) U)
    (hr : U.answer? r = some b) {n : Nat} (hn : r.turn ≤ n)
    (ih : ∀ s S U r, HasTurns run s S → Workable run s work →
      HasTurns run (s.bind work) U → U.answer? r = some b → r.turn < n →
      ∃ i p, Lands run work s i p b r) :
    ∃ i p, Lands run work s i p b r := by
  induction as generalizing s U r with
  | nil =>
      rcases hturn.step_cases with ⟨hstep, -, -⟩ |
        ⟨rest, hstep, -, rfl⟩ | ⟨a, rest, bs, -, has, -⟩
      · rw [(hstep.bind_done work).answer?_of_done hU] at hr
        cases hr
      · obtain ⟨hfirst, hU'⟩ :=
          (hstep.bind_pending work).turns_of_pending hU
        obtain ⟨i, j⟩ := r
        cases i with
        | zero => rw [Turns.answer?_zero hfirst] at hr; cases hr
        | succ i =>
            have hwork' : Workable run rest work :=
              fun k c hk => hwork k c (hstep.nth_pending hk)
            obtain ⟨k, p, hp⟩ := ih rest S U.tail ⟨i, j⟩ hnext hwork' hU' hr hn
            exact ⟨k, p, .pending hstep hp⟩
      · cases has
  | cons a as ihas =>
      rcases hturn.step_cases with ⟨-, has, -⟩ | ⟨-, -, has, -⟩ |
        ⟨a', rest, bs, hstep, has, hturn'⟩
      · cases has
      · cases has
      · cases has
        obtain ⟨head, T, hrun, hT⟩ := hwork 0 a hstep.nth_zero
        have hwork' : Workable run rest work :=
          fun k c hk => hwork (k + 1) c (hstep.nth_succ hk)
        have hrest : HasTurns run rest (.cons as S) :=
          hasTurns_of_first rfl hturn' hnext
        obtain ⟨V, hV⟩ := hrest.exists_bind hwork'
        have ho : Opens run work s rest T V := ⟨hstep, hrun, hT, hV⟩
        rw [ho.eq_alternate hU] at hr
        rcases ho.shuffle.origin r b hr with ⟨p, hp, rfl⟩ | ⟨q, hq, rfl⟩
        · exact ⟨0, p, .first ho hp⟩
        · have hqn := Nat.le_trans (Turns.turn_le_rightSlot T V q) hn
          obtain ⟨k, p, hp⟩ := ihas hturn' hwork' hV hq hqn
          exact ⟨k + 1, p, .later ho hp⟩

/-- **WHATEVER THE BIND YIELDS HAS LANDED THERE.** -/
theorem HasTurns.exists_lands (hs : HasTurns run s S)
    (hwork : Workable run s work) (hU : HasTurns run (s.bind work) U)
    (hr : U.answer? r = some b) : ∃ i p, Lands run work s i p b r := by
  generalize hn : r.turn = n
  induction n using Nat.strongRecOn generalizing s S U r with
  | ind n ih =>
      obtain ⟨as, next, -, hturn, hnext⟩ := hasTurns_isSchedule s S hs
      refine hturn.exists_lands hnext hwork hU hr (Nat.le_of_eq hn) ?_
      exact fun s S U r hs hwork hU hr hlt => ih _ hlt hs hwork hU hr rfl

/-! ## As many answers -/

/-- The slots of what the work begins on `a` that hold `b`. -/
def WorkSlot (run : γ → α → Except ε (Stream α γ)) (work : γ) (a b : α)
    (p : Slot) : Prop :=
  ∃ head T, run work a = .ok head ∧ HasTurns run head T ∧
    T.answer? p = some b

theorem workNth_equiv_workSlot (hrun : run work a = .ok head)
    (hT : HasTurns run head T) (b : α) :
    Nonempty ({j // WorkNth run work a b j} ≃
      {p // WorkSlot run work a b p}) := by
  obtain ⟨e⟩ := hT.nth_equiv_slots b
  have hnth : ∀ j, WorkNth run work a b j ↔ Nth run head j b := by
    intro j
    refine ⟨?_, fun h => ⟨head, hrun, h⟩⟩
    rintro ⟨head', hrun', h⟩
    cases hrun.symm.trans hrun'
    exact h
  have hslot : ∀ p, T.answer? p = some b ↔ WorkSlot run work a b p := by
    intro p
    refine ⟨fun h => ⟨head, T, hrun, hT, h⟩, ?_⟩
    rintro ⟨head', T', hrun', hT', h⟩
    cases hrun.symm.trans hrun'
    rw [hT.unique hT']
    exact h
  exact ⟨((Equiv.subtypeEquivRight hnth).trans e).trans
    (Equiv.subtypeEquivRight hslot)⟩

/-- The slots of the bind are those of the work on all answers. -/
theorem HasTurns.slots_bind_equiv (hs : HasTurns run s S)
    (hwork : Workable run s work) (hU : HasTurns run (s.bind work) U) (b : α) :
    Nonempty ((Σ a, {i // Nth run s i a} × {p // WorkSlot run work a b p}) ≃
      {r // U.answer? r = some b}) := by
  refine exists_equiv_of_rel
    (R := fun x r => Lands run work s x.2.1 x.2.2 b r.1) ?_ ?_ ?_
  · rintro ⟨a, ⟨i, hi⟩, ⟨p, head, T, hrun, hT, hp⟩⟩
    obtain ⟨r, hr⟩ := Stream.exists_lands hi hs hwork hrun hT hp
    exact ⟨⟨r, hr.answer? hU⟩, hr⟩
  · rintro ⟨r, hr⟩
    obtain ⟨i, p, hp⟩ := hs.exists_lands hwork hU hr
    obtain ⟨a, head, T, hi, hslot⟩ := hp.exists_nth
    exact ⟨⟨a, ⟨i, hi⟩, ⟨p, head, T, hslot⟩⟩, hp⟩
  · rintro ⟨a, ⟨i, hi⟩, ⟨p, hp⟩⟩ ⟨a', ⟨i', hi'⟩, ⟨p', hp'⟩⟩ ⟨r, hr⟩ ⟨r', hr'⟩
      h h'
    rw [Subtype.mk.injEq]
    refine Iff.trans ⟨fun heq => ?_, ?_⟩ (h.unique h')
    · cases heq
      exact ⟨rfl, rfl⟩
    · rintro ⟨rfl, rfl⟩
      obtain rfl := hi.unique hi'
      rfl

/-- **AS MANY ANSWERS AS THE WORK HAS ON ALL ANSWERS** of the stream. -/
theorem HasTurns.nth_bind_equiv (hs : HasTurns run s S)
    (hwork : Workable run s work) (b : α) :
    Nonempty ({k // Nth run (s.bind work) k b} ≃
      Σ a, {i // Nth run s i a} × {j // WorkNth run work a b j}) := by
  obtain ⟨U, hU⟩ := hs.exists_bind hwork
  obtain ⟨e⟩ := hU.nth_equiv_slots b
  obtain ⟨f⟩ := hs.slots_bind_equiv hwork hU b
  have hpulls : ∀ a, Nonempty
      ({i // Nth run s i a} × {p // WorkSlot run work a b p} ≃
        {i // Nth run s i a} × {j // WorkNth run work a b j}) := by
    intro a
    by_cases ha : ∃ i, Nth run s i a
    · obtain ⟨i, hi⟩ := ha
      obtain ⟨head, T, hrun, hT⟩ := hwork i a hi
      obtain ⟨g⟩ := workNth_equiv_workSlot hrun hT b
      exact ⟨Equiv.prodCongr (Equiv.refl _) g.symm⟩
    · have : IsEmpty {i // Nth run s i a} := ⟨fun i => ha ⟨i.1, i.2⟩⟩
      exact ⟨Equiv.equivOfIsEmpty _ _⟩
  exact ⟨(e.trans f.symm).trans
    (Equiv.sigmaCongrRight fun a => Classical.choice (hpulls a))⟩

end LogicSearch.Stream
