import LogicSearch.Proofs.Rules

/-! # What comes after an answer

    On one branch of a search, answers come one after another.  `After` asks
    that all answers of a stream come after a given one, and that the work
    that waits fits every answer it will be started on.  Siblings need not
    be comparable, so the work on the answers of a stream has a common
    ancestor of its own (`Stream.After` for `forEach`).

    If work that fits an answer comes to a stream after that answer, then
    all steps keep this (`After.of_advance`), and so do runs. -/

namespace LogicSearch

variable {α γ ε : Type} {le : α → α → Prop} {fits : γ → α → Prop}

/-- All answers of the stream come after `b`, and work that waits fits. -/
def Stream.After (le : α → α → Prop) (fits : γ → α → Prop) :
    Stream α γ → α → Prop
  | .empty, _ => True
  | .cons a rest, b => le b a ∧ After le fits rest b
  | .pause rest, b => After le fits rest b
  | .call work a, b => le b a ∧ fits work a
  | .source items _, b => ∀ i a, items i = some a → le b a
  | .interleave s t, b => After le fits s b ∧ After le fits t b
  | .forEach s work, b => ∃ c, le b c ∧ fits work c ∧ After le fits s c

/-- The same for what a move yields and leaves. -/
def Move.After (le : α → α → Prop) (fits : γ → α → Prop) :
    Move α γ → α → Prop
  | .done, _ => True
  | .yield a rest, b => le b a ∧ rest.After le fits b
  | .pending rest, b => rest.After le fits b
  | .working rest, b => rest.After le fits b

/-- Coming after is transitive, work that fits an answer fits later ones, and
    what it comes to comes after the answer. -/
structure Lineage (run : γ → α → Except ε (Stream α γ))
    (le : α → α → Prop) (fits : γ → α → Prop) : Prop where
  trans {a b c : α} : le a b → le b c → le a c
  later {work : γ} {a b : α} : fits work a → le a b → fits work b
  started {work : γ} {a : α} {s : Stream α γ} : fits work a →
    run work a = .ok s → s.After le fits a

namespace Stream

theorem After.merge {s t : Stream α γ} {b : α} (hs : s.After le fits b)
    (ht : t.After le fits b) : (s.merge t).After le fits b := by
  obtain ⟨m⟩ := exists_merging s t
  exact m.of_interleave (p := fun u => u.After le fits b) hs ht ⟨hs, ht⟩

/-- Work on every answer after `c` is after what `c` comes after. -/
theorem After.bind {s : Stream α γ} {work : γ} {b c : α} (hbc : le b c)
    (hwork : fits work c) (hs : s.After le fits c) :
    (s.bind work).After le fits b := by
  cases s with
  | empty => trivial
  | _ => exact ⟨c, hbc, hwork, hs⟩

/-- What comes after an answer comes after earlier ones. -/
theorem After.of_le {s : Stream α γ} {b c : α} (hs : s.After le fits c)
    (hbc : le b c) (htrans : ∀ {a b c}, le a b → le b c → le a c) :
    s.After le fits b := by
  induction s with
  | empty => trivial
  | cons a rest ih => exact ⟨htrans hbc hs.1, ih hs.2⟩
  | pause rest ih => exact ih hs
  | call work a => exact ⟨htrans hbc hs.1, hs.2⟩
  | source items next => exact fun i a h => htrans hbc (hs i a h)
  | interleave s t ihs iht => exact ⟨ihs hs.1, iht hs.2⟩
  | forEach s work _ =>
      obtain ⟨d, hcd, hrest⟩ := hs
      exact ⟨d, htrans hbc hcd, hrest⟩

section Run

variable {run : γ → α → Except ε (Stream α γ)}
  (hline : Lineage run le fits)

include hline

/-- **STEPS STAY AFTER.** -/
theorem After.of_advance {s : Stream α γ} {m : Move α γ} {b : α}
    (hs : s.After le fits b) (h : s.advance run = .ok m) :
    m.After le fits b := by
  obtain ⟨r⟩ := exists_advance h
  clear h
  induction r generalizing b with
  | empty => trivial
  | cons a rest => exact hs
  | pause rest => exact hs
  | call h => exact (hline.started hs.2 h).of_le hs.1 hline.trans
  | gap _ => trivial
  | item h => exact ⟨hs _ _ h, hs⟩
  | turnDone _ _ => exact hs.2
  | turnYield _ m ih =>
      obtain ⟨hle, hrest⟩ := ih hs.1
      rw [m.eq_merge]
      exact ⟨hle, hrest.merge hs.2⟩
  | turnPending _ m ih =>
      have hrest := ih hs.1
      rw [m.eq_merge]
      exact After.merge hs.2 hrest
  | turnWorking _ ih => exact ⟨ih hs.1, hs.2⟩
  | eachDone _ _ => trivial
  | eachYield _ h bd m ih =>
      obtain ⟨c, hbc, hwork, hs⟩ := hs
      obtain ⟨hle, hrest⟩ := ih hs
      -- the work starts on an answer after `c`, which it fits, too
      have hhead := (hline.started (hline.later hwork hle) h).of_le
        (hline.trans hbc hle) hline.trans
      rw [m.eq_merge, bd.eq_bind]
      exact After.merge hhead (After.bind hbc hwork hrest)
  | eachPending _ bd ih =>
      obtain ⟨c, hbc, hwork, hs⟩ := hs
      rw [bd.eq_bind]
      exact After.bind hbc hwork (ih hs)
  | eachWorking _ ih =>
      obtain ⟨c, hbc, hwork, hs⟩ := hs
      exact ⟨c, hbc, hwork, ih hs⟩

/-- Work that is started fits its answer, which comes after. -/
theorem After.of_starts {s : Stream α γ} {work : γ} {a b : α}
    (hs : s.After le fits b) (h : s.Starts run work a) :
    le b a ∧ fits work a := by
  induction h generalizing b with
  | call => exact hs
  | interleave _ ih => exact ih hs.1
  | forEach _ ih =>
      obtain ⟨c, hbc, -, hs⟩ := hs
      obtain ⟨hle, hwork⟩ := ih hs
      exact ⟨hline.trans hbc hle, hwork⟩
  | answer hadv =>
      obtain ⟨c, hbc, hwork, hs⟩ := hs
      have hle := (hs.of_advance hline hadv).1
      exact ⟨hline.trans hbc hle, hline.later hwork hle⟩

/-- **AND SO DO RUNS.** -/
theorem After.leads {s t : Stream α γ} {b : α} (hs : s.After le fits b)
    (hst : Leads run s t) : t.After le fits b := by
  induction hst with
  | refl _ => exact hs
  | yield h _ ih => exact ih (hs.of_advance hline h).2
  | pending h _ ih => exact ih (hs.of_advance hline h)
  | working h _ ih => exact ih (hs.of_advance hline h)

/-- All answers come after. -/
theorem After.nth {s : Stream α γ} {k : Nat} {a b : α}
    (hs : s.After le fits b) (h : Nth run s k a) : le b a := by
  induction h with
  | here h => exact (hs.of_advance hline h).1
  | later h _ ih => exact ih (hs.of_advance hline h).2
  | pending h _ ih => exact ih (hs.of_advance hline h)
  | working h _ ih => exact ih (hs.of_advance hline h)

end Run

end Stream

end LogicSearch
