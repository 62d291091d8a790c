import LogicSearch.Stream.Answer
import LogicSearch.Stream.Turn

/-! # What work is applied to

    A search may hold the same work at many places.  To follow the work of
    one `bind` alone, its work item is told apart from all others: work items
    become options, and `none` stands for the work of the bind (`apart`).
    Taking the options away again gives the same search (`rename_apart`,
    `advance_together`).

    So the steps of a bind come with a log of the answers that its work has
    been started on (`Applied`), as those of any stream come with a log of
    the answers that they yield (`Passes`). -/

namespace LogicSearch

variable {α γ δ ε : Type}

/-! ## Renaming work items -/

/-- The stream with other work items in the places of its own. -/
def Stream.rename (f : γ → δ) : Stream α γ → Stream α δ
  | .empty => .empty
  | .cons a rest => .cons a (rename f rest)
  | .pause rest => .pause (rename f rest)
  | .call work a => .call (f work) a
  | .source items next => .source items next
  | .interleave s t => .interleave (rename f s) (rename f t)
  | .forEach s work => .forEach (rename f s) (f work)

/-- The move with other work items in what is left. -/
def Move.rename (f : γ → δ) : Move α γ → Move α δ
  | .done => .done
  | .yield a rest => .yield a (rest.rename f)
  | .pending rest => .pending (rest.rename f)
  | .working rest => .working (rest.rename f)

/-- What a move leaves of a stream. -/
def Move.rest? : Move α γ → Option (Stream α γ)
  | .done => none
  | .yield _ rest => some rest
  | .pending rest => some rest
  | .working rest => some rest

namespace Stream

theorem rename_merge (f : γ → δ) (s t : Stream α γ) :
    (s.merge t).rename f = (s.rename f).merge (t.rename f) := by
  cases s with
  | empty => rfl
  | _ => cases t <;> rfl

theorem rename_bind (f : γ → δ) (s : Stream α γ) (work : γ) :
    (s.bind work).rename f = (s.rename f).bind (f work) := by
  cases s <;> rfl

theorem rename_rename {η : Type} (f : γ → δ) (g : δ → η) (s : Stream α γ) :
    (s.rename f).rename g = s.rename (g ∘ f) := by
  induction s with
  | empty => rfl
  | cons a rest ih => rw [rename, rename, rename, ih]
  | pause rest ih => rw [rename, rename, rename, ih]
  | call work a => rfl
  | source items next => rfl
  | interleave s t ihs iht => rw [rename, rename, rename, ihs, iht]
  | forEach s work ih => rw [rename, rename, rename, ih]; rfl

theorem rename_id (s : Stream α γ) : s.rename id = s := by
  induction s with
  | empty => rfl
  | cons a rest ih => rw [rename, ih]
  | pause rest ih => rw [rename, ih]
  | call work a => rfl
  | source items next => rfl
  | interleave s t ihs iht => rw [rename, ihs, iht]
  | forEach s work ih => rw [rename, ih]; rfl

/-- **RENAMED STREAMS TAKE THE SAME STEPS**, if renamed work runs as before. -/
theorem advance_rename {run : γ → α → Except ε (Stream α γ)}
    {run' : δ → α → Except ε (Stream α δ)} {f : γ → δ}
    (hrun : ∀ work a, run' (f work) a = (run work a).map (rename f))
    (s : Stream α γ) :
    (s.rename f).advance run' = (s.advance run).map (Move.rename f) := by
  induction s with
  | empty => rfl
  | cons a rest _ => rfl
  | pause rest _ => rfl
  | call work a =>
      rw [rename, advance, advance, hrun]
      cases run work a <;> rfl
  | source items next =>
      rw [rename, advance, advance]
      cases items next <;> rfl
  | interleave s t ih _ =>
      rw [rename, advance, advance, ih]
      cases s.advance run with
      | error e => rfl
      | ok m =>
          cases m with
          | done => rfl
          | yield a s' =>
              dsimp only [Except.map, Move.rename]
              rw [rename_merge]
          | pending s' =>
              dsimp only [Except.map, Move.rename]
              rw [rename_merge]
          | working s' => rfl
  | forEach s work ih =>
      rw [rename, advance, advance, ih]
      cases s.advance run with
      | error e => rfl
      | ok m =>
          cases m with
          | done => rfl
          | yield a s' =>
              dsimp only [Except.map, Move.rename]
              rw [hrun]
              cases run work a with
              | error e => rfl
              | ok head =>
                  dsimp only [Except.map, Move.rename]
                  rw [rename_merge, rename_bind]
          | pending s' =>
              dsimp only [Except.map, Move.rename]
              rw [rename_bind]
          | working s' => rfl

/-! ## The work of one bind -/

/-- How work items run if the work of one bind is told apart from all
    others. -/
def runApart (run : γ → α → Except ε (Stream α γ)) (work : γ) :
    Option γ → α → Except ε (Stream α (Option γ)) :=
  fun item a => (run (item.getD work) a).map (rename some)

/-- The bind whose work is told apart from the work in `s`. -/
def apart (s : Stream α γ) : Stream α (Option γ) :=
  (s.rename some).bind none

/-- The search in which the work of the bind is told apart no longer. -/
def together (work : γ) (t : Stream α (Option γ)) : Stream α γ :=
  t.rename fun item => item.getD work

@[simp] theorem together_rename (work : γ) (s : Stream α γ) :
    (s.rename some).together work = s :=
  (rename_rename _ _ s).trans (rename_id s)

theorem together_apart (work : γ) (s : Stream α γ) :
    s.apart.together work = s.bind work := by
  rw [apart, together, rename_bind]
  exact congrArg (fun u => u.bind work) (together_rename work s)

/-- **TELLING THE WORK APART CHANGES NO STEP.** -/
theorem advance_together (run : γ → α → Except ε (Stream α γ)) (work : γ)
    (t : Stream α (Option γ)) :
    (t.together work).advance run
      = (t.advance (runApart run work)).map
          (Move.rename fun item => item.getD work) := by
  refine advance_rename (fun item a => ?_) t
  rw [runApart]
  cases run (item.getD work) a with
  | error e => rfl
  | ok s => exact congrArg Except.ok (together_rename work s).symm

/-! ## Logs -/

section Run

variable (run : γ → α → Except ε (Stream α γ))

/-- Small steps that lead from one stream to the other and yield the answers
    on the way. -/
inductive Passes : Stream α γ → List α → Stream α γ → Prop where
  | refl (s : Stream α γ) : Passes s [] s
  | yield {s rest t : Stream α γ} {a : α} {as : List α} :
      s.advance run = .ok (.yield a rest) → Passes rest as t →
      Passes s (a :: as) t
  | pending {s rest t : Stream α γ} {as : List α} :
      s.advance run = .ok (.pending rest) → Passes rest as t →
      Passes s as t
  | working {s rest t : Stream α γ} {as : List α} :
      s.advance run = .ok (.working rest) → Passes rest as t →
      Passes s as t

/-- Small steps that lead from one stream to the other and start the work on
    the answers on the way. -/
inductive Started (work : γ) : Stream α γ → List α → Stream α γ → Prop where
  | refl (s : Stream α γ) : Started work s [] s
  | start {s rest t : Stream α γ} {m : Move α γ} {a : α} {as : List α} :
      s.advance run = .ok m → m.rest? = some rest → Starts run s work a →
      Started work rest as t → Started work s (a :: as) t
  | other {s rest t : Stream α γ} {m : Move α γ} {as : List α} :
      s.advance run = .ok m → m.rest? = some rest →
      (∀ a, ¬ Starts run s work a) → Started work rest as t →
      Started work s as t

/-- Pulling `s.bind work` as far as `t` has applied the work to the answers,
    one by one.  What `s` or the work itself starts does not count, be it the
    same work. -/
def Applied (work : γ) (s : Stream α γ) (as : List α) (t : Stream α γ) :
    Prop :=
  ∃ u, Started (runApart run work) none s.apart as u ∧ t = u.together work

/-- What is left of a bind when `rest` is left of the stream it binds: the
    bind of that takes turns with what the work has begun. -/
inductive Around (work : γ) (rest : Stream α γ) : Stream α γ → Prop where
  | bind : Around work rest (forEach rest work)
  | left {s : Stream α γ} (t : Stream α γ) : Around work rest s →
      Around work rest (interleave s t)
  | right (s : Stream α γ) {t : Stream α γ} : Around work rest t →
      Around work rest (interleave s t)

/-- The work can be started on every answer of the stream, and the turns of
    what it begins come to their end. -/
def Workable (s : Stream α γ) (work : γ) : Prop :=
  ∀ i a, Nth run s i a →
    ∃ head T, run work a = .ok head ∧ HasTurns run head T

end Run

variable {run : γ → α → Except ε (Stream α γ)} {s rest : Stream α γ}
  {work : γ} {a : α}

theorem Workable.head (h : Workable run s work)
    (hs : s.advance run = .ok (.yield a rest)) :
    ∃ head T, run work a = .ok head ∧ HasTurns run head T :=
  h 0 a (.here hs)

theorem Workable.of_yield (h : Workable run s work)
    (hs : s.advance run = .ok (.yield a rest)) : Workable run rest work :=
  fun i b hb => h (i + 1) b (.later hs hb)

theorem Workable.of_pending (h : Workable run s work)
    (hs : s.advance run = .ok (.pending rest)) : Workable run rest work :=
  fun i b hb => h i b (.pending hs hb)

theorem Workable.of_working (h : Workable run s work)
    (hs : s.advance run = .ok (.working rest)) : Workable run rest work :=
  fun i b hb => h i b (.working hs hb)

end Stream

end LogicSearch
