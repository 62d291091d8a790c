import LogicSearch.Goal.Host
import LogicSearch.Goal.Listing
import LogicSearch.Proofs.Answers
import LogicSearch.Proofs.Turns
import Mathlib.Data.Option.NAry

/-! # Goals without suspensions search depth first

    A stream that goes `Straight` comes to its end without a pause, or is
    given up on the way.  Streams that do so are merged one after the other
    (`Straight.interleave`), and work on every answer that does so is done
    answer by answer (`Straight.forEach`): where nothing pauses, a
    disjunction appends the lists of its sides, and a conjunction collects
    those of its second goal.  By induction on the goal this is its list
    reading (`Goal.follows_listing`). -/

namespace LogicSearch

namespace Stream

variable {α γ ε δ : Type}

/-! ## Lists that may be missing -/

/-- One list after the other, if there are both. -/
def append? (r r' : Option (List α)) : Option (List α) :=
  Option.map₂ (· ++ ·) r r'

/-- The lists of all answers, one after the other, if there are all. -/
def collect? (f : α → Except δ (List α)) (r : Option (List α)) :
    Option (List α) :=
  r.bind fun as => (listBind f as).toOption

theorem append?_nil_left (r : Option (List α)) : append? (some []) r = r := by
  cases r <;> rfl

theorem append?_nil_right (r : Option (List α)) :
    append? r (some []) = r := by
  cases r with
  | none => rfl
  | some as => exact congrArg some (List.append_nil as)

theorem append?_none_right (r : Option (List α)) : append? r none = none :=
  Option.map₂_none_right _ r

theorem append?_cons (a : α) (r r' : Option (List α)) :
    append? (r.map (a :: ·)) r' = (append? r r').map (a :: ·) := by
  cases r <;> cases r' <;> rfl

/-- The list of the first answer, and those of the others. -/
theorem collect?_cons (f : α → Except δ (List α)) (a : α)
    (r : Option (List α)) :
    collect? f (r.map (a :: ·))
      = append? (f a).toOption (collect? f r) := by
  cases r with
  | none => exact (append?_none_right _).symm
  | some as =>
      show (listBind f (a :: as)).toOption
        = append? (f a).toOption (listBind f as).toOption
      rw [listBind]
      cases f a with
      | error e => rfl
      | ok bs => cases listBind f as <;> rfl

section Run

variable (run : γ → α → Except ε (Stream α γ))

/-- Without a pause, the stream comes to the end of the list, or it is given
    up if there is none. -/
inductive Straight : Stream α γ → Option (List α) → Prop where
  | error {s : Stream α γ} {e : ε} : s.advance run = .error e →
      Straight s none
  | done {s : Stream α γ} : s.advance run = .ok .done → Straight s (some [])
  | yield {s rest : Stream α γ} {a : α} {r : Option (List α)} :
      s.advance run = .ok (.yield a rest) → Straight rest r →
      Straight s (r.map (a :: ·))
  | working {s rest : Stream α γ} {r : Option (List α)} :
      s.advance run = .ok (.working rest) → Straight rest r → Straight s r

/-- What has been started goes straight to the end of the list; if there is
    none it is given up, at the start or later. -/
def Follows (r : Option (List α)) : Except ε (Stream α γ) → Prop
  | .error _ => r = none
  | .ok s => Straight run s r

end Run

variable {run : γ → α → Except ε (Stream α γ)} {s t u : Stream α γ}
  {r r' : Option (List α)} {as : List α} {a : α} {work : γ}
  {f : α → Except δ (List α)}

theorem Follows.error {x : Except ε (Stream α γ)} {e : ε}
    (h : Follows run r x) (hx : x = .error e) : r = none := by
  subst hx
  exact h

theorem Follows.ok {x : Except ε (Stream α γ)} (h : Follows run r x)
    (hx : x = .ok s) : Straight run s r := by
  subst hx
  exact h

/-! ## Merging and binding -/

theorem Straight.of_empty (h : Straight run (empty : Stream α γ) r) :
    r = some [] := by
  cases h with
  | done _ => rfl
  | error h => cases h
  | yield h _ => cases h
  | working h _ => cases h

theorem straight_single (a : α) :
    Straight run (single a : Stream α γ) (some [a]) :=
  .yield (r := some []) rfl (.done rfl)

/-- Finished cells. -/
theorem straight_listed (h : s.listed? = some as) :
    Straight run s (some as) := by
  induction s generalizing as with
  | empty =>
      cases h
      exact .done rfl
  | cons a rest ih =>
      obtain ⟨bs, hbs, rfl⟩ := Option.map_eq_some_iff.mp h
      exact .yield (r := some bs) rfl (ih hbs)
  | pause _ _ => cases h
  | call _ _ => cases h
  | source _ _ => cases h
  | interleave _ _ _ _ => cases h
  | forEach _ _ _ => cases h

theorem Merging.straight (m : Merging s t u) (hs : Straight run s r)
    (ht : Straight run t r')
    (hst : Straight run (interleave s t) (append? r r')) :
    Straight run u (append? r r') := by
  cases m with
  | left =>
      rw [hs.of_empty, append?_nil_left]
      exact ht
  | right _ =>
      rw [ht.of_empty, append?_nil_right]
      exact hs
  | both _ _ => exact hst

/-- **WITHOUT PAUSES, TAKING TURNS IS APPENDING.** -/
theorem Straight.interleave (hs : Straight run s r)
    (ht : Straight run t r') :
    Straight run (interleave s t) (append? r r') := by
  induction hs with
  | error h => exact .error (interleave_error h t)
  | done h =>
      rw [append?_nil_left]
      exact .working (by rw [advance, h]) ht
  | @yield s rest a r h hrest ih =>
      obtain ⟨m⟩ := exists_merging rest t
      rw [append?_cons]
      exact .yield (by rw [advance, h]) (m.straight hrest ht ih)
  | working h _ ih => exact .working (by rw [advance, h]) ih

theorem Straight.merge (hs : Straight run s r) (ht : Straight run t r') :
    Straight run (s.merge t) (append? r r') := by
  obtain ⟨m⟩ := exists_merging s t
  exact m.straight hs ht (hs.interleave ht)

theorem Binding.straight (b : Binding work s u) (hs : Straight run s r)
    (heach : Straight run (forEach s work) (collect? f r)) :
    Straight run u (collect? f r) := by
  cases b with
  | empty =>
      rw [hs.of_empty]
      exact .done rfl
  | each _ => exact heach

/-- **AND WORK ON EVERY ANSWER COLLECTS ITS LISTS.** -/
theorem Straight.forEach (hs : Straight run s r)
    (hwork : ∀ a, Follows run (f a).toOption (run work a)) :
    Straight run (forEach s work) (collect? f r) := by
  induction hs with
  | error h => exact .error (forEach_error h work)
  | done h => exact .done (by rw [advance, h])
  | @yield s rest a r h hrest ih =>
      obtain ⟨p⟩ := exists_advance h
      rw [collect?_cons]
      cases hrun : run work a with
      | error e =>
          rw [(hwork a).error hrun]
          exact .error (forEach_work_error p hrun)
      | ok head =>
          -- the work on the first answer comes before that on the others
          have hhead := (hwork a).ok hrun
          obtain ⟨b⟩ := exists_binding work rest
          obtain ⟨m⟩ := exists_merging head (rest.bind work)
          have htail := b.straight hrest ih
          exact .working (Advance.eachYield p hrun b m).advance_eq
            (m.straight hhead htail (hhead.interleave htail))
  | working h _ ih => exact .working (by rw [advance, h]) ih

theorem Straight.bind (hs : Straight run s r)
    (hwork : ∀ a, Follows run (f a).toOption (run work a)) :
    Straight run (s.bind work) (collect? f r) := by
  obtain ⟨b⟩ := exists_binding work s
  exact b.straight hs (hs.forEach hwork)

/-! ## The whole run -/

/-- To the end of the list it is one turn, and the last. -/
theorem Straight.turn (h : Straight run s r) (hr : r = some as) :
    Turn run s as none := by
  induction h generalizing as with
  | error _ => cases hr
  | done h =>
      cases hr
      exact .done h
  | yield h _ ih =>
      obtain ⟨bs, hbs, rfl⟩ := Option.map_eq_some_iff.mp hr
      exact .yield h (ih hbs)
  | working h _ ih => exact .working h (ih hr)

/-- Where there is no list, the search is given up. -/
theorem Straight.aborts (h : Straight run s r) (hr : r = none) :
    ¬ s.NeverAborts run := by
  intro hs
  induction h with
  | error h =>
      obtain ⟨m, hm⟩ := hs _ (.refl _)
      cases h.symm.trans hm
  | done _ => cases hr
  | yield h _ ih =>
      exact ih (Option.map_eq_none_iff.mp hr)
        (hs.of_leads (.yield h (.refl _)))
  | working h _ ih => exact ih hr (hs.of_leads (.working h (.refl _)))

/-- All that is left later is part of the last turn. -/
theorem Turn.of_leads (h : Turn run s as none) (hst : Leads run s t) :
    ∃ bs, Turn run t bs none := by
  induction hst generalizing as with
  | refl s => exact ⟨as, h⟩
  | yield hs _ ih =>
      obtain ⟨bs, -, hrest⟩ := h.of_yield hs
      exact ih hrest
  | pending hs _ _ => cases (h.of_pending hs).2
  | working hs _ ih => exact ih (h.of_working hs)

theorem Turn.neverAborts (h : Turn run s as none) : s.NeverAborts run := by
  intro t ht
  obtain ⟨bs, h⟩ := h.of_leads ht
  cases h with
  | done ht => exact ⟨_, ht⟩
  | yield ht _ => exact ⟨_, ht⟩
  | working ht _ => exact ⟨_, ht⟩

theorem pull_working {rest : Stream α γ} {x : Except ε (Pull α γ)} {n : Nat}
    (hs : s.advance run = .ok (.working rest))
    (h : ∀ fuel ≥ n, rest.pull run fuel = x) :
    ∀ fuel ≥ n + 1, s.pull run fuel = x := by
  intro fuel hfuel
  obtain ⟨k, rfl⟩ : ∃ k, fuel = k + 1 := ⟨fuel - 1, by omega⟩
  rw [pull, hs]
  exact h k (by omega)

/-- With enough fuel a turn without answers is pulled to its end. -/
theorem Turn.pull_exhausted (h : Turn run s [] none) :
    ∃ n, ∀ fuel ≥ n, s.pull run fuel = .ok .exhausted := by
  generalize has : [] = as at h
  generalize hlast : none = next at h
  induction h with
  | done hs =>
      refine ⟨1, fun fuel hfuel => ?_⟩
      obtain ⟨k, rfl⟩ : ∃ k, fuel = k + 1 := ⟨fuel - 1, by omega⟩
      rw [pull, hs]
  | pending _ => cases hlast
  | yield _ _ _ => cases has
  | working hs _ ih =>
      obtain ⟨n, hn⟩ := ih has hlast
      exact ⟨n + 1, pull_working hs hn⟩

/-- And any other to its first answer. -/
theorem Turn.pull_answer {next : Option (Stream α γ)}
    (h : Turn run s (a :: as) next) : ∃ rest, Turn run rest as next ∧
      ∃ n, ∀ fuel ≥ n, s.pull run fuel = .ok (.answer a rest) := by
  generalize has : a :: as = bs at h
  induction h with
  | done _ => cases has
  | pending _ => cases has
  | @yield s rest b bs next hs hrest _ =>
      cases has
      refine ⟨rest, hrest, 1, fun fuel hfuel => ?_⟩
      obtain ⟨k, rfl⟩ : ∃ k, fuel = k + 1 := ⟨fuel - 1, by omega⟩
      rw [pull, hs]
  | working hs _ ih =>
      obtain ⟨rest, hrest, n, hn⟩ := ih has
      exact ⟨rest, hrest, n + 1, pull_working hs hn⟩

/-- **PULLING THE LAST TURN** gives its answers and then the end. -/
theorem Turn.harvest_eq (h : Turn run s as none) :
    ∃ n, ∀ fuel ≥ n, ∀ count > as.length,
      s.harvest run fuel count = (as, .exhausted) := by
  induction as generalizing s with
  | nil =>
      obtain ⟨n, hn⟩ := h.pull_exhausted
      refine ⟨n, fun fuel hfuel count hcount => ?_⟩
      rw [List.length_nil] at hcount
      obtain ⟨k, rfl⟩ : ∃ k, count = k + 1 := ⟨count - 1, by omega⟩
      rw [harvest, hn fuel hfuel]
  | cons a as ih =>
      obtain ⟨rest, hrest, m, hm⟩ := h.pull_answer
      obtain ⟨n, hn⟩ := ih hrest
      refine ⟨max m n, fun fuel hfuel count hcount => ?_⟩
      rw [List.length_cons] at hcount
      obtain ⟨k, rfl⟩ : ∃ k, count = k + 1 := ⟨count - 1, by omega⟩
      rw [harvest, hm fuel (by omega)]
      dsimp only
      rw [hn fuel (by omega) k (by omega)]

end Stream

/-! ## Goals -/

variable {sg : Signature} {P : Program sg} {n : Nat} {scope : Scope n}
  {frame : Frame} {st : State}

namespace Goal

theorem listing_conj (g h : Goal sg n) :
    ((conj g h).listing P scope frame st).toOption
      = Stream.collect? (h.listing P scope frame)
          (g.listing P scope frame st).toOption := by
  rw [listing]
  cases g.listing P scope frame st <;> rfl

theorem listing_disj (g h : Goal sg n) :
    ((disj g h).listing P scope frame st).toOption
      = Stream.append? (g.listing P scope frame st).toOption
          (h.listing P scope frame st).toOption := by
  rw [listing]
  cases g.listing P scope frame st with
  | error e => rfl
  | ok as => cases h.listing P scope frame st <;> rfl

/-- **A GOAL WITHOUT SUSPENSIONS FOLLOWS ITS LIST.** -/
theorem follows_listing (hP : P.Finished) {g : Goal sg n}
    (hg : g.Immediate) :
    Stream.Follows P.start (g.listing P scope frame st).toOption
      (g.apply P scope frame st) := by
  induction g generalizing st with
  | eq u v =>
      rw [listing, apply, equate]
      cases st.unify (u.eval scope frame) (v.eval scope frame) with
      | unified s => exact Stream.straight_single _
      | clash => exact .done rfl
      | broken e => rfl
      | unanswered => rfl
  | succeed => exact Stream.straight_single st
  | fail => exact .done rfl
  | conj g h ihg ihh =>
      have hleft : Stream.Follows P.start
          (g.listing P scope frame st).toOption
          (g.apply P scope frame st) := ihg hg.1
      rw [listing_conj, apply]
      cases hs : g.apply P scope frame st with
      | error e =>
          rw [hleft.error hs]
          rfl
      | ok s => exact (hleft.ok hs).bind fun a => ihh hg.2
  | disj g h ihg ihh =>
      have hleft : Stream.Follows P.start
          (g.listing P scope frame st).toOption
          (g.apply P scope frame st) := ihg hg.1
      have hright : Stream.Follows P.start
          (h.listing P scope frame st).toOption
          (h.apply P scope frame st) := ihh hg.2
      rw [listing_disj, apply]
      cases hs : g.apply P scope frame st with
      | error e =>
          rw [hleft.error hs]
          rfl
      | ok s =>
          dsimp only
          cases ht : h.apply P scope frame st with
          | error e =>
              rw [hright.error ht, Stream.append?_none_right]
              rfl
          | ok t => exact (hleft.ok hs).merge (hright.ok ht)
  | fresh label body ih => exact ih hg
  | letTerm e body ih => exact ih hg
  | delay body _ => exact hg.elim
  | always => exact hg.elim
  | never => exact hg.elim
  | call site r args fits => exact hg.elim
  | host h =>
      rw [listing, apply]
      cases hs : P.host h st with
      | error e => rfl
      | ok s =>
          obtain ⟨as, has⟩ := Option.isSome_iff_exists.mp (hP h st s hs)
          show Stream.Straight P.start s (some (s.listed?.getD []))
          rw [has]
          exact Stream.straight_listed has

end Goal

/-- **GOALS WITHOUT SUSPENSIONS SEARCH DEPTH FIRST**, from left to right.
    Such a goal has a list of answers in a state if and only if its search is
    started there and never given up.  The search then yields the list, in
    order and without a pause, and ends: that is what pulling it with enough
    fuel comes to. -/
theorem Program.depth_first (hP : P.Finished) {g : Goal sg n}
    (hg : g.Immediate) (scope : Scope n) (frame : Frame) (st : State) :
    ((∃ as, g.listing P scope frame st = .ok as) ↔
      ∃ s, g.apply P scope frame st = .ok s ∧ s.NeverAborts P.start) ∧
    ∀ as, g.listing P scope frame st = .ok as →
      ∃ s, g.apply P scope frame st = .ok s ∧ s.Turn P.start as none ∧
        ∃ m, ∀ fuel ≥ m, ∀ count > as.length,
          P.harvest fuel count s = (as, .exhausted) := by
  have hfollows : Stream.Follows P.start
      (g.listing P scope frame st).toOption (g.apply P scope frame st) :=
    g.follows_listing hP hg
  have hlisted : ∀ as, g.listing P scope frame st = .ok as →
      ∃ s, g.apply P scope frame st = .ok s ∧ s.Turn P.start as none := by
    intro as has
    rw [has] at hfollows
    cases hs : g.apply P scope frame st with
    | error e => cases hfollows.error hs
    | ok s => exact ⟨s, rfl, (hfollows.ok hs).turn rfl⟩
  refine ⟨⟨?_, ?_⟩, ?_⟩
  · rintro ⟨as, has⟩
    obtain ⟨s, hs, hturn⟩ := hlisted as has
    exact ⟨s, hs, hturn.neverAborts⟩
  · rintro ⟨s, hs, hnever⟩
    cases hlist : g.listing P scope frame st with
    | ok as => exact ⟨as, rfl⟩
    | error e =>
        rw [hlist] at hfollows
        exact absurd hnever ((hfollows.ok hs).aborts rfl)
  · intro as has
    obtain ⟨s, hs, hturn⟩ := hlisted as has
    exact ⟨s, hs, hturn, hturn.harvest_eq⟩

/-- A program whose host goals repeat their state, as finished answers. -/
def Program.repeating : Program ⟨Empty, Empty.elim, Nat⟩ :=
  ⟨fun r => r.elim, fun n st => .ok (.cells (List.replicate n st))⟩

/-- Three answers of the first goal, of which one agrees with a side of the
    second and two with both. -/
theorem Program.depth_first_numbers :
    let one : Goal ⟨Empty, Empty.elim, Nat⟩ 1 :=
      .eq (.bound 0) (.given (.number 1))
    let two : Goal ⟨Empty, Empty.elim, Nat⟩ 1 :=
      .eq (.bound 0) (.given (.number 2))
    let g : Goal ⟨Empty, Empty.elim, Nat⟩ 0 :=
      .fresh "n" (.conj (.disjAll [one, .fail, .host 2]) (.disj one two))
    let as : List State :=
      [.numbered 1, .numbered 1, .numbered 2, .numbered 1, .numbered 2]
    Program.repeating.Finished ∧ g.Immediate ∧
    g.listing Program.repeating .empty .outermost (.initial {}) = .ok as ∧
    ∃ s, Program.repeating.solve g {} = .ok s ∧
      s.Turn Program.repeating.start as none ∧
      ∃ m, ∀ fuel ≥ m, ∀ count > 5,
        Program.repeating.harvest fuel count s = (as, .exhausted) := by
  intro one two g as
  have hfinished : Program.repeating.Finished := by
    intro n st s hs
    cases hs
    rw [Stream.listed?_cells]
    rfl
  have hg : g.Immediate :=
    ⟨⟨trivial, trivial, trivial⟩, trivial, trivial⟩
  have hlist : g.listing Program.repeating .empty .outermost (.initial {})
      = .ok as := rfl
  exact ⟨hfinished, hg, hlist, (Program.depth_first hfinished hg .empty
    .outermost (.initial {})).2 as hlist⟩

end LogicSearch
