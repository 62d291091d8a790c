import LogicSearch.Stream.Applied
import LogicSearch.Proofs.Alternation
import LogicSearch.Proofs.Productivity

/-! # The turns of a bind

    A whole step of a bind follows a whole step of the stream it binds: it
    ends where the stream ends, pauses where the stream pauses, and where the
    stream yields an answer it goes on as what the work begins, merged with
    the bind of the rest (`Step.bind_done`, `Step.bind_pending`,
    `Step.turn_bind_iff`).

    What is left of a bind later is a number of streams that take turns: the
    bind of the rest and what the work has begun.  If the turns of each of
    them end, so do those of all together (`Orderly`), and the bind has
    turns (`HasTurns.exists_bind`). -/

namespace LogicSearch.Stream

variable {α γ ε : Type} {run : γ → α → Except ε (Stream α γ)} {work : γ}
  {s t rest head : Stream α γ} {a : α} {as : List α}
  {next : Option (Stream α γ)} {S T : Turns α}

/-! ## Streams that go on alike -/

/-- Working is no part of a turn. -/
theorem turn_iff_of_working (h : s.advance run = .ok (.working rest)) :
    Turn run s as next ↔ Turn run rest as next :=
  ⟨fun hturn => hturn.of_working h, .working h⟩

/-- Streams with the same first turn, and the same rest after it, have the
    same turns. -/
theorem hasTurns_iff_of_turn
    (h : ∀ as next, Turn run s as next ↔ Turn run t as next) (T : Turns α) :
    HasTurns run s T ↔ HasTurns run t T := by
  constructor
  · intro hs
    obtain ⟨as, next, has, hturn, hrest⟩ := hasTurns_isSchedule s T hs
    exact hasTurns_of_first has ((h as next).mp hturn) hrest
  · intro ht
    obtain ⟨as, next, has, hturn, hrest⟩ := hasTurns_isSchedule t T ht
    exact hasTurns_of_first has ((h as next).mpr hturn) hrest

/-! ## The steps of a bind -/

/-- Binding an empty stream drops what would end at once. -/
theorem step_bind_iff (s : Stream α γ) (work : γ) (r : Except ε (Move α γ)) :
    Step run (s.bind work) r ↔ Step run (forEach s work) r := by
  cases s with
  | empty =>
      have hempty : Step run (empty : Stream α γ) (.ok .done) := .done rfl
      have heach : Step run (forEach empty work : Stream α γ) (.ok .done) :=
        .done rfl
      constructor
      · intro h
        rw [h.unique hempty]
        exact heach
      · intro h
        rw [h.unique heach]
        exact hempty
  | _ => exact Iff.rfl

theorem turn_bind_iff (s : Stream α γ) (work : γ) (as : List α)
    (next : Option (Stream α γ)) :
    Turn run (s.bind work) as next ↔ Turn run (forEach s work) as next := by
  cases s with
  | empty =>
      have hempty : Turn run (empty : Stream α γ) [] none := .done rfl
      have heach : Turn run (forEach empty work : Stream α γ) [] none :=
        .done rfl
      constructor
      · intro h
        obtain ⟨rfl, rfl⟩ := h.unique hempty
        exact heach
      · intro h
        obtain ⟨rfl, rfl⟩ := h.unique heach
        exact hempty
  | _ => exact Iff.rfl

/-- **WHERE THE STREAM ENDS, THE BIND ENDS.** -/
theorem Step.bind_done (h : Step run s (.ok .done)) (work : γ) :
    Step run (s.bind work) (.ok .done) := by
  rw [step_bind_iff]
  generalize hr : Except.ok Move.done = r at h
  induction h with
  | last hs _ =>
      subst hr
      exact .done (by rw [advance, hs])
  | working hs _ ih => exact .working (by rw [advance, hs]) (ih hr)

/-- **WHERE THE STREAM PAUSES, THE BIND PAUSES.** -/
theorem Step.bind_pending (h : Step run s (.ok (.pending rest))) (work : γ) :
    Step run (s.bind work) (.ok (.pending (rest.bind work))) := by
  rw [step_bind_iff]
  generalize hr : Except.ok (Move.pending rest) = r at h
  induction h with
  | last hs _ =>
      subst hr
      exact .pending (by rw [advance, hs])
  | working hs _ ih => exact .working (by rw [advance, hs]) (ih hr)

/-- **WHERE THE STREAM YIELDS**, the bind goes on as what the work begins,
    merged with the bind of the rest. -/
theorem Step.turn_bind_iff (h : Step run s (.ok (.yield a rest)))
    (hrun : run work a = .ok head) (as : List α)
    (next : Option (Stream α γ)) :
    Turn run (s.bind work) as next
      ↔ Turn run (head.merge (rest.bind work)) as next := by
  rw [Stream.turn_bind_iff]
  generalize hr : Except.ok (Move.yield a rest) = r at h
  induction h with
  | last hs _ =>
      subst hr
      refine turn_iff_of_working ?_
      rw [advance, hs]
      dsimp only
      rw [hrun]
  | working hs _ ih =>
      exact (turn_iff_of_working (by rw [advance, hs])).trans (ih hr)

/-- So the turns of the bind are the turns of that merge. -/
theorem Step.hasTurns_bind_iff (h : Step run s (.ok (.yield a rest)))
    (hrun : run work a = .ok head) (U : Turns α) :
    HasTurns run (s.bind work) U
      ↔ HasTurns run (head.merge (rest.bind work)) U :=
  hasTurns_iff_of_turn (h.turn_bind_iff hrun) U

/-! ## Turns that end -/

theorem HasTurns.exists_turn (h : HasTurns run s T) :
    ∃ as next, Turn run s as next := by
  obtain ⟨as, next, -, hturn, -⟩ := hasTurns_isSchedule s T h
  exact ⟨as, next, hturn⟩

/-- A stream that has turns can be advanced, and what is left has turns. -/
theorem HasTurns.exists_advance (h : HasTurns run s T) :
    ∃ m, s.advance run = .ok m ∧
      ∀ rest, m.rest? = some rest → ∃ T, HasTurns run rest T := by
  obtain ⟨as, next, hturn⟩ := h.exists_turn
  cases hturn with
  | done hs => exact ⟨_, hs, fun rest hrest => by cases hrest⟩
  | pending hs =>
      refine ⟨_, hs, fun rest hrest => ?_⟩
      cases hrest
      exact ⟨_, (h.of_pending hs).2⟩
  | yield hs _ =>
      refine ⟨_, hs, fun rest hrest => ?_⟩
      cases hrest
      obtain ⟨as, -, hrest⟩ := h.of_yield hs
      exact ⟨_, hrest⟩
  | working hs _ =>
      refine ⟨_, hs, fun rest hrest => ?_⟩
      cases hrest
      exact ⟨_, h.of_working hs⟩

/-- Streams that take turns, each of which has turns of its own or binds one
    that has. -/
inductive Orderly (run : γ → α → Except ε (Stream α γ)) :
    Stream α γ → Prop where
  | own {s : Stream α γ} {T : Turns α} : HasTurns run s T → Orderly run s
  | pair {s t : Stream α γ} : Orderly run s → Orderly run t →
      Orderly run (interleave s t)
  | each {s : Stream α γ} {S : Turns α} {work : γ} : HasTurns run s S →
      Workable run s work → Orderly run (forEach s work)

theorem Orderly.merge (hs : Orderly run s) (ht : Orderly run t) :
    Orderly run (s.merge t) := by
  obtain ⟨m⟩ := exists_merging s t
  exact m.of_interleave hs ht (.pair hs ht)

theorem HasTurns.orderly_bind (hs : HasTurns run s S)
    (hwork : Workable run s work) : Orderly run (s.bind work) := by
  obtain ⟨b⟩ := exists_binding work s
  exact b.of_forEach (Orderly.own hs) (.each hs hwork)

/-- A step leaves orderly streams orderly. -/
theorem Orderly.exists_advance (h : Orderly run s) :
    ∃ m, s.advance run = .ok m ∧
      ∀ rest, m.rest? = some rest → Orderly run rest := by
  induction h with
  | own hs =>
      obtain ⟨m, hm, hrest⟩ := hs.exists_advance
      refine ⟨m, hm, fun rest h => ?_⟩
      obtain ⟨T, hT⟩ := hrest rest h
      exact .own hT
  | @pair s t _ ht ihs _ =>
      obtain ⟨m, hm, hrest⟩ := ihs
      rw [advance, hm]
      cases m with
      | done =>
          refine ⟨_, rfl, fun u hu => ?_⟩
          cases hu
          exact ht
      | yield a s' =>
          refine ⟨_, rfl, fun u hu => ?_⟩
          cases hu
          exact (hrest s' rfl).merge ht
      | pending s' =>
          refine ⟨_, rfl, fun u hu => ?_⟩
          cases hu
          exact ht.merge (hrest s' rfl)
      | working s' =>
          refine ⟨_, rfl, fun u hu => ?_⟩
          cases hu
          exact .pair (hrest s' rfl) ht
  | each hs hwork =>
      obtain ⟨m, hm, hrest⟩ := hs.exists_advance
      rw [advance, hm]
      cases m with
      | done => exact ⟨_, rfl, fun u hu => by cases hu⟩
      | yield a s' =>
          obtain ⟨head, T, hrun, hhead⟩ := hwork.head hm
          obtain ⟨S', hS'⟩ := hrest s' rfl
          dsimp only
          rw [hrun]
          refine ⟨_, rfl, fun u hu => ?_⟩
          cases hu
          exact (Orderly.own hhead).merge
            (hS'.orderly_bind (hwork.of_yield hm))
      | pending s' =>
          obtain ⟨S', hS'⟩ := hrest s' rfl
          refine ⟨_, rfl, fun u hu => ?_⟩
          cases hu
          exact hS'.orderly_bind (hwork.of_pending hm)
      | working s' =>
          obtain ⟨S', hS'⟩ := hrest s' rfl
          refine ⟨_, rfl, fun u hu => ?_⟩
          cases hu
          exact .each hS' (hwork.of_working hm)

theorem Orderly.of_leads (h : Orderly run s) (hst : Leads run s t) :
    Orderly run t := by
  induction hst with
  | refl s => exact h
  | yield hs _ ih =>
      obtain ⟨m, hm, hrest⟩ := h.exists_advance
      cases hs.symm.trans hm
      exact ih (hrest _ rfl)
  | pending hs _ ih =>
      obtain ⟨m, hm, hrest⟩ := h.exists_advance
      cases hs.symm.trans hm
      exact ih (hrest _ rfl)
  | working hs _ ih =>
      obtain ⟨m, hm, hrest⟩ := h.exists_advance
      cases hs.symm.trans hm
      exact ih (hrest _ rfl)

/-- The next turn of two streams that take turns. -/
theorem Turn.exists_interleave {bs : List α} {next' : Option (Stream α γ)}
    (hs : Turn run s as next) (ht : Turn run t bs next') :
    ∃ cs last, Turn run (interleave s t) cs last := by
  cases next with
  | none => exact ⟨_, _, hs.interleave_last ht⟩
  | some s' => exact ⟨_, _, hs.interleave_pending⟩

theorem Turn.exists_merge {bs : List α} {next' : Option (Stream α γ)}
    (hs : Turn run s as next) (ht : Turn run t bs next') :
    ∃ cs last, Turn run (s.merge t) cs last := by
  obtain ⟨m⟩ := exists_merging s t
  exact m.of_interleave (p := fun u => ∃ cs last, Turn run u cs last)
    ⟨as, next, hs⟩ ⟨bs, next', ht⟩ (hs.exists_interleave ht)

/-- The work is begun on finitely many answers in a turn. -/
theorem Turn.exists_forEach (h : Turn run s as next)
    (hwork : Workable run s work) :
    ∃ bs last, Turn run (forEach s work) bs last := by
  induction h with
  | done hs => exact ⟨_, _, .done (by rw [advance, hs])⟩
  | pending hs => exact ⟨_, _, .pending (by rw [advance, hs])⟩
  | yield hs _ ih =>
      obtain ⟨head, T, hrun, hhead⟩ := hwork.head hs
      obtain ⟨cs, last, hrest⟩ := ih (hwork.of_yield hs)
      obtain ⟨bs, next, hturn⟩ := hhead.exists_turn
      obtain ⟨ds, last', hmerge⟩ :=
        hturn.exists_merge ((turn_bind_iff ..).mpr hrest)
      have hiff := (Step.yield hs).turn_bind_iff hrun ds last'
      exact ⟨ds, last', (turn_bind_iff ..).mp (hiff.mpr hmerge)⟩
  | working hs _ ih =>
      obtain ⟨bs, last, hrest⟩ := ih (hwork.of_working hs)
      exact ⟨bs, last, .working (by rw [advance, hs]) hrest⟩

theorem Orderly.exists_turn (h : Orderly run s) :
    ∃ as next, Turn run s as next := by
  induction h with
  | own hs => exact hs.exists_turn
  | pair _ _ ihs iht =>
      obtain ⟨as, next, hs⟩ := ihs
      obtain ⟨bs, next', ht⟩ := iht
      exact hs.exists_interleave ht
  | each hs hwork =>
      obtain ⟨as, next, hturn⟩ := hs.exists_turn
      exact hturn.exists_forEach hwork

/-- **A BIND HAS TURNS.** -/
theorem HasTurns.exists_bind (hs : HasTurns run s S)
    (hwork : Workable run s work) : ∃ U, HasTurns run (s.bind work) U :=
  exists_hasTurns fun _ ht =>
    ((hs.orderly_bind hwork).of_leads ht).exists_turn

end LogicSearch.Stream
