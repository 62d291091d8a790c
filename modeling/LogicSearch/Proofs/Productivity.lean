import LogicSearch.Proofs.Application
import LogicSearch.Proofs.Turns
import Mathlib.Logic.Function.Iterate
import Mathlib.Tactic.Choose

/-! # Every step ends, and every turn

    A whole `Step` is a series of small steps up to one that does not go on
    working.  A stream that settles takes such a step
    (`Settles.exists_step`), and only so many of its steps can yield before
    one that does not (`Settles.exists_bound`).  As all searches settle, a
    pull that never returns is one that takes a step after another, without
    end, and each of them comes to a pause (`Silent.exists_pauses`). -/

namespace LogicSearch

namespace Stream

variable {α γ ε : Type}

section Run

variable (run : γ → α → Except ε (Stream α γ))

/-- What a whole step of a stream comes to, if it comes to an end: the last of
    its small steps, which does not go on working. -/
inductive Step : Stream α γ → Except ε (Move α γ) → Prop where
  | last {s : Stream α γ} {r : Except ε (Move α γ)} : s.advance run = r →
      (∀ rest, r ≠ .ok (.working rest)) → Step s r
  | working {s rest : Stream α γ} {r : Except ε (Move α γ)} :
      s.advance run = .ok (.working rest) → Step rest r → Step s r

/-- `n` whole steps that yield an answer each, one after another. -/
inductive Yields : Nat → Stream α γ → Stream α γ → Prop where
  | refl (s : Stream α γ) : Yields 0 s s
  | step {n : Nat} {s rest t : Stream α γ} {a : α} :
      Step run s (.ok (.yield a rest)) → Yields n rest t →
      Yields (n + 1) s t

/-- A pull never returns. -/
def Silent (s : Stream α γ) : Prop :=
  ∀ fuel, ∃ rest, s.pull run fuel = .ok (.unfinished rest)

end Run

variable {run : γ → α → Except ε (Stream α γ)} {s rest t : Stream α γ}
  {r r' : Except ε (Move α γ)}

theorem Step.of_working (h : s.advance run = .ok (.working rest))
    (hstep : Step run s r) : Step run rest r := by
  cases hstep with
  | last h' hr => exact absurd (h'.symm.trans h) (hr rest)
  | working h' hrest =>
      cases h.symm.trans h'
      exact hrest

/-- A whole step has one outcome. -/
theorem Step.unique (h : Step run s r) (h' : Step run s r') : r = r' := by
  induction h with
  | last hs hr =>
      cases h' with
      | last hs' _ => exact hs.symm.trans hs'
      | working hs' _ => exact absurd (hs.symm.trans hs') (hr _)
  | working hs _ ih => exact ih (h'.of_working hs)

theorem Step.error {e : ε} (h : s.advance run = .error e) :
    Step run s (.error e) :=
  .last h fun _ hr => by cases hr

theorem Step.done (h : s.advance run = .ok .done) :
    Step run s (.ok .done) :=
  .last h fun _ hr => by cases hr

theorem Step.yield {a : α} (h : s.advance run = .ok (.yield a rest)) :
    Step run s (.ok (.yield a rest)) :=
  .last h fun _ hr => by cases hr

theorem Step.pending (h : s.advance run = .ok (.pending rest)) :
    Step run s (.ok (.pending rest)) :=
  .last h fun _ hr => by cases hr

/-- **A STREAM THAT SETTLES TAKES A STEP.** -/
theorem Settles.exists_step (h : Settles run s) : ∃ r, Step run s r := by
  induction h with
  | error h => exact ⟨_, .error h⟩
  | done p => exact ⟨_, .done p.advance_eq⟩
  | pending p => exact ⟨_, .pending p.advance_eq⟩
  | yield p _ _ => exact ⟨_, .yield p.advance_eq⟩
  | working p _ ih =>
      obtain ⟨r, hr⟩ := ih
      exact ⟨r, .working p.advance_eq hr⟩

/-- **AND SO MANY STEPS THAT YIELD ONE AFTER ANOTHER.** -/
theorem Settles.exists_bound (h : Settles run s) :
    ∃ n, ∀ m t, Yields run m s t → m ≤ n := by
  -- the steps that can come first
  have hnone : ∀ {s : Stream α γ} {r : Except ε (Move α γ)}, Step run s r →
      (∀ a rest, r ≠ .ok (.yield a rest)) →
      ∃ n, ∀ m t, Yields run m s t → m ≤ n := by
    intro s r hstep hr
    refine ⟨0, fun m t ht => ?_⟩
    cases ht with
    | refl => exact Nat.le_refl 0
    | step hyield _ => exact absurd (hstep.unique hyield) (hr _ _)
  induction h with
  | error h => exact hnone (.error h) (by simp)
  | done p => exact hnone (.done p.advance_eq) (by simp)
  | pending p => exact hnone (.pending p.advance_eq) (by simp)
  | yield p _ ih =>
      obtain ⟨n, hn⟩ := ih
      refine ⟨n + 1, fun m t ht => ?_⟩
      cases ht with
      | refl => exact Nat.zero_le _
      | step hyield hrest =>
          cases (Step.yield p.advance_eq).unique hyield
          exact Nat.succ_le_succ (hn _ _ hrest)
  | working p _ ih =>
      obtain ⟨n, hn⟩ := ih
      refine ⟨n, fun m t ht => ?_⟩
      cases ht with
      | refl => exact Nat.zero_le _
      | step hyield hrest =>
          exact hn _ _ (.step (hyield.of_working p.advance_eq) hrest)

/-- A turn that ends without the search being given up. -/
theorem Settles.exists_turn (h : Settles run s) (hs : s.NeverAborts run) :
    ∃ as next, Turn run s as next := by
  induction h with
  | @error s e h =>
      obtain ⟨m, hm⟩ := hs s (.refl s)
      cases h.symm.trans hm
  | done p => exact ⟨_, _, .done p.advance_eq⟩
  | pending p => exact ⟨_, _, .pending p.advance_eq⟩
  | yield p _ ih =>
      obtain ⟨as, next, h⟩ := ih (hs.of_leads (.yield p.advance_eq (.refl _)))
      exact ⟨_, next, .yield p.advance_eq h⟩
  | working p _ ih =>
      obtain ⟨as, next, h⟩ :=
        ih (hs.of_leads (.working p.advance_eq (.refl _)))
      exact ⟨as, next, .working p.advance_eq h⟩

/-! ## Pulls that never return -/

theorem Silent.later (h : Silent run s)
    (hrest : ∀ fuel, s.pull run (fuel + 1) = rest.pull run fuel) :
    Silent run rest := by
  intro fuel
  rw [← hrest]
  exact h (fuel + 1)

/-- A step of a pull that never returns comes to a pause, and what is left is
    pulled without end. -/
theorem Silent.pending_of_step (h : Silent run s) (hstep : Step run s r) :
    ∃ rest, r = .ok (.pending rest) ∧ Silent run rest := by
  induction hstep with
  | @last s r hs hr =>
      obtain ⟨u, hu⟩ := h 1
      rw [pull, hs] at hu
      cases r with
      | error e => cases hu
      | ok m =>
          cases m with
          | done => cases hu
          | yield a rest => cases hu
          | pending rest =>
              exact ⟨rest, rfl, h.later fun fuel => by rw [pull, hs]⟩
          | working rest => exact absurd rfl (hr rest)
  | working hs _ ih => exact ih (h.later fun fuel => by rw [pull, hs])

/-- **A PULL THAT NEVER RETURNS PAUSES AGAIN AND AGAIN**, if all steps end. -/
theorem Silent.exists_pauses (hstep : ∀ t, ∃ r, Step run t r)
    (h : Silent run s) : ∃ S : Nat → Stream α γ, S 0 = s ∧
      ∀ i, Step run (S i) (.ok (.pending (S (i + 1)))) := by
  have hnext : ∀ t : {t // Silent run t}, ∃ u : {u // Silent run u},
      Step run t.1 (.ok (.pending u.1)) := by
    rintro ⟨t, ht⟩
    obtain ⟨r, hr⟩ := hstep t
    obtain ⟨u, rfl, hu⟩ := ht.pending_of_step hr
    exact ⟨⟨u, hu⟩, hr⟩
  choose next hpending using hnext
  refine ⟨fun i => (next^[i] ⟨s, h⟩).1, rfl, fun i => ?_⟩
  dsimp only
  rw [Function.iterate_succ_apply']
  exact hpending _

end Stream

variable {sg : Signature} {P : Program sg}

/-- **EVERY STEP ENDS, AND EVERY TURN.**  Of any search, so of all that is
    left of it later, too: a step comes to its end; only so many steps can
    yield before one that does not; the turns are all there unless the search
    is given up; and a pull that never returns takes steps without end, each
    of which comes to a pause. -/
theorem Program.turns_end (hP : P.Lists) (s : Search sg) :
    (∃ r, s.Step P.start r) ∧
    (∃ n, ∀ m t, s.Yields P.start m t → m ≤ n) ∧
    (s.NeverAborts P.start → ∃ T, s.HasTurns P.start T) ∧
    (s.Silent P.start → ∃ S : Nat → Search sg, S 0 = s ∧
      ∀ i, (S i).Step P.start (.ok (.pending (S (i + 1))))) := by
  have hsettles := P.settles hP
  refine ⟨(hsettles s).exists_step, (hsettles s).exists_bound, ?_, ?_⟩
  · intro hs
    exact Stream.exists_hasTurns fun t ht =>
      (hsettles t).exists_turn (hs.of_leads ht)
  · exact Stream.Silent.exists_pauses fun t => (hsettles t).exists_step

/-- What holds without end and then fails has no answer: a pull of it never
    returns, and between two pauses it only works on. -/
theorem Program.turns_end_always_fail :
    let st : State := .initial {}
    let round : Closure ⟨Empty, Empty.elim, Empty⟩ :=
      ⟨0, .disj .succeed .always, .empty, .outermost⟩
    let s : Search ⟨Empty, Empty.elim, Empty⟩ :=
      .forEach (.call round st) ⟨0, .fail, .empty, .outermost⟩
    Program.bare.Lists ∧
    Program.bare.run (.conj .always .fail) st = .ok s ∧
    s.NeverAborts Program.bare.start ∧ s.Silent Program.bare.start ∧
    (∃ T, s.HasTurns Program.bare.start T) ∧
    ∃ S : Nat → Search ⟨Empty, Empty.elim, Empty⟩, S 0 = s ∧
      ∀ i, (S i).Step Program.bare.start (.ok (.pending (S (i + 1)))) := by
  intro st round s
  let failed : Closure ⟨Empty, Empty.elim, Empty⟩ :=
    ⟨0, .fail, .empty, .outermost⟩
  have hlists : Program.bare.Lists := fun h => h.elim
  have hs : s.NeverAborts Program.bare.start := by
    have hstart : ∀ (c : Closure ⟨Empty, Empty.elim, Empty⟩) (b : State),
        (c = round ∨ c = failed) → True →
        ∃ t, Program.bare.start c b = .ok t ∧
          t.Every (fun _ => True) fun c => c = round ∨ c = failed := by
      rintro c b (rfl | rfl) -
      · exact ⟨_, rfl, ⟨trivial, trivial⟩, .inl rfl, trivial⟩
      · exact ⟨_, rfl, trivial⟩
    have hevery : s.Every (fun _ => True) fun c => c = round ∨ c = failed :=
      ⟨⟨.inl rfl, trivial⟩, .inr rfl⟩
    exact hevery.neverAborts hstart
  have hsilent : s.Silent Program.bare.start := by
    -- the round that has been started only leads back to the search
    have hboth : ∀ fuel,
        (∃ rest, s.pull Program.bare.start fuel = .ok (.unfinished rest)) ∧
        ∃ rest, Stream.pull Program.bare.start fuel
          (.forEach (.interleave (.single st) (.call round st)) failed)
            = .ok (.unfinished rest) := by
      intro fuel
      induction fuel with
      | zero => exact ⟨⟨_, rfl⟩, ⟨_, rfl⟩⟩
      | succ fuel ih => exact ⟨ih.2, ih.1⟩
    exact fun fuel => (hboth fuel).1
  obtain ⟨-, -, hturns, hpauses⟩ := Program.turns_end hlists s
  exact ⟨hlists, rfl, hs, hsilent, hturns hs, hpauses hsilent⟩

end LogicSearch
