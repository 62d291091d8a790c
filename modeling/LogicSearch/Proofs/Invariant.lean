import LogicSearch.Proofs.Answers

/-! # Invariants of a search

    `Every p q` asks `p` of every answer that a stream holds or starts work
    on, and `q` of every work item.  If work items that are as asked, started
    on answers that are as asked, come to such streams, then so do all steps,
    and all answers are as asked.  A step fails only as the work does
    (`Meets`); where the work never fails, the search is never given up. -/

namespace LogicSearch

variable {α β γ ε : Type} {p : α → Prop} {q : γ → Prop}
  {allowed : ε → Prop}

/-- A success is as asked, and a failure is one that is allowed. -/
def Meets (good : β → Prop) (allowed : ε → Prop) : Except ε β → Prop
  | .ok b => good b
  | .error e => allowed e

theorem Meets.ok {good : β → Prop} {r : Except ε β} {b : β}
    (h : Meets good allowed r) (hr : r = .ok b) : good b := by
  subst hr
  exact h

theorem Meets.error {good : β → Prop} {r : Except ε β} {e : ε}
    (h : Meets good allowed r) (hr : r = .error e) : allowed e := by
  subst hr
  exact h

/-- Where no failure is allowed, there is a success. -/
theorem Meets.exists_ok {good : β → Prop} {r : Except ε β}
    (h : Meets good (fun _ => False) r) : ∃ b, r = .ok b ∧ good b := by
  cases r with
  | ok b => exact ⟨b, rfl, h⟩
  | error e => exact h.elim

theorem Meets.of_exists {good : β → Prop} {r : Except ε β}
    (h : ∃ b, r = .ok b ∧ good b) : Meets good allowed r := by
  obtain ⟨b, rfl, hb⟩ := h
  exact hb

/-- All answers at hand are as asked, and all work that waits. -/
def Stream.Every (p : α → Prop) (q : γ → Prop) : Stream α γ → Prop
  | .empty => True
  | .cons a rest => p a ∧ Every p q rest
  | .pause rest => Every p q rest
  | .call work a => q work ∧ p a
  | .source items _ => ∀ i a, items i = some a → p a
  | .interleave s t => Every p q s ∧ Every p q t
  | .forEach s work => Every p q s ∧ q work

/-- The same for what a move yields and leaves. -/
def Move.Every (p : α → Prop) (q : γ → Prop) : Move α γ → Prop
  | .done => True
  | .yield a rest => p a ∧ rest.Every p q
  | .pending rest => rest.Every p q
  | .working rest => rest.Every p q

namespace Stream

theorem every_single {a : α} (h : p a) :
    (single a : Stream α γ).Every p q := ⟨h, trivial⟩

theorem Every.mono {p' : α → Prop} {q' : γ → Prop}
    (hp : ∀ a, p a → p' a) (hq : ∀ work, q work → q' work)
    {s : Stream α γ} (hs : s.Every p q) : s.Every p' q' := by
  induction s with
  | empty => trivial
  | cons a rest ih => exact ⟨hp a hs.1, ih hs.2⟩
  | pause rest ih => exact ih hs
  | call work a => exact ⟨hq work hs.1, hp a hs.2⟩
  | source items next => exact fun i a h => hp a (hs i a h)
  | interleave s t ihs iht => exact ⟨ihs hs.1, iht hs.2⟩
  | forEach s work ih => exact ⟨ih hs.1, hq work hs.2⟩

theorem Every.merge {s t : Stream α γ} (hs : s.Every p q)
    (ht : t.Every p q) : (s.merge t).Every p q := by
  obtain ⟨m⟩ := exists_merging s t
  exact m.of_interleave hs ht ⟨hs, ht⟩

theorem Every.bind {s : Stream α γ} {work : γ} (hs : s.Every p q)
    (hwork : q work) : (s.bind work).Every p q := by
  obtain ⟨b⟩ := exists_binding work s
  exact b.of_forEach hs ⟨hs, hwork⟩

variable {run : γ → α → Except ε (Stream α γ)}

/-- **WHAT WORK KEEPS, A STEP KEEPS**, and it fails only as the work does.
    Only the work that the step starts matters. -/
theorem Every.advance_meets {s : Stream α γ}
    (hrun : ∀ work a, s.Starts run work a → q work → p a →
      Meets (Every p q) allowed (run work a))
    (hs : s.Every p q) : Meets (Move.Every p q) allowed (s.advance run) := by
  induction s with
  | empty => trivial
  | cons a rest _ => exact hs
  | pause rest _ => exact hs
  | call work a =>
      have hcall := hrun work a .call hs.1 hs.2
      rw [Stream.advance]
      cases h : run work a with
      | error e => exact hcall.error h
      | ok rest => exact hcall.ok h
  | source items next =>
      rw [Stream.advance]
      cases h : items next with
      | none => trivial
      | some a => exact ⟨hs next a h, hs⟩
  | interleave s t ih _ =>
      obtain ⟨hs, ht⟩ := hs
      have hleft := ih (fun work a h => hrun work a (.interleave h)) hs
      rw [Stream.advance]
      cases hm : s.advance run with
      | error e => exact hleft.error hm
      | ok m =>
          have hmove := hleft.ok hm
          cases m with
          | done => exact ht
          | yield a s' => exact ⟨hmove.1, Every.merge hmove.2 ht⟩
          | pending s' => exact Every.merge ht hmove
          | working s' => exact ⟨hmove, ht⟩
  | forEach s work ih =>
      obtain ⟨hs, hwork⟩ := hs
      have heach := ih (fun work a h => hrun work a (.forEach h)) hs
      rw [Stream.advance]
      cases hm : s.advance run with
      | error e => exact heach.error hm
      | ok m =>
          have hmove := heach.ok hm
          cases m with
          | done => trivial
          | yield a s' =>
              have hhead := hrun work a (.answer hm) hwork hmove.1
              dsimp only
              cases h : run work a with
              | error e => exact hhead.error h
              | ok head =>
                  exact Every.merge (hhead.ok h) (Every.bind hmove.2 hwork)
          | pending s' => exact Every.bind hmove hwork
          | working s' => exact ⟨hmove, hwork⟩

/-- **AND SO DO RUNS.**  Only the work that is started on the way matters. -/
theorem Every.nth_of_starts {s : Stream α γ}
    (hrun : ∀ t work a, Leads run s t → t.Starts run work a → q work → p a →
      Meets (Every p q) allowed (run work a))
    (hs : s.Every p q) {k : Nat} {a : α} (h : Nth run s k a) : p a := by
  have hstep : ∀ {s : Stream α γ} {m : Move α γ},
      (∀ t work a, Leads run s t → t.Starts run work a → q work → p a →
        Meets (Every p q) allowed (run work a)) →
      s.Every p q → s.advance run = .ok m → m.Every p q :=
    fun {s m} hrun hs h =>
      (hs.advance_meets fun work a => hrun s work a (.refl s)).ok h
  induction h with
  | here h => exact (hstep hrun hs h).1
  | later h _ ih =>
      exact ih (fun t work a ht => hrun t work a (.yield h ht))
        (hstep hrun hs h).2
  | pending h _ ih =>
      exact ih (fun t work a ht => hrun t work a (.pending h ht))
        (hstep hrun hs h)
  | working h _ ih =>
      exact ih (fun t work a ht => hrun t work a (.working h ht))
        (hstep hrun hs h)

section Run

variable
  (hrun : ∀ work a, q work → p a → Meets (Every p q) allowed (run work a))

include hrun

/-- One step from a stream that is as asked. -/
theorem Every.of_advance {s : Stream α γ} {m : Move α γ}
    (hs : s.Every p q) (h : s.advance run = .ok m) : m.Every p q :=
  (hs.advance_meets fun work a _ => hrun work a).ok h

/-- What steps keep, runs keep. -/
theorem Every.leads {s t : Stream α γ} (hs : s.Every p q)
    (hst : Leads run s t) : t.Every p q := by
  induction hst with
  | refl _ => exact hs
  | yield h _ ih => exact ih (hs.of_advance hrun h).2
  | pending h _ ih => exact ih (hs.of_advance hrun h)
  | working h _ ih => exact ih (hs.of_advance hrun h)

/-- A search is given up only as the work allows. -/
theorem Every.allowed_of_leads {s t : Stream α γ} {e : ε}
    (hs : s.Every p q) (hst : Leads run s t)
    (h : t.advance run = .error e) : allowed e :=
  ((hs.leads hrun hst).advance_meets fun work a _ => hrun work a).error h

/-- Every answer of the search is as asked. -/
theorem Every.nth {s : Stream α γ} {k : Nat} {a : α} (hs : s.Every p q)
    (h : Nth run s k a) : p a :=
  hs.nth_of_starts (fun _ work a _ _ => hrun work a) h

end Run

/-- Where the work never fails, the search is never given up. -/
theorem Every.neverAborts
    (hrun : ∀ work a, q work → p a →
      ∃ s, run work a = .ok s ∧ s.Every p q)
    {s : Stream α γ} (hs : s.Every p q) : s.NeverAborts run := by
  intro t hst
  have hmeets : ∀ work a, q work → p a →
      Meets (Every p q) (fun _ => False) (run work a) :=
    fun work a hw ha => .of_exists (hrun work a hw ha)
  obtain ⟨m, hm, _⟩ := ((hs.leads hmeets hst).advance_meets
    fun work a _ => hmeets work a).exists_ok
  exact ⟨m, hm⟩

/-! ## Runs that agree on the work that waits -/

variable {run' : γ → α → Except ε (Stream α γ)}

/-- A step depends on nothing but how the work that waits runs. -/
theorem Every.advance_congr
    (hsame : ∀ work a, q work → run' work a = run work a)
    {s : Stream α γ} (hs : s.Every p q) :
    s.advance run' = s.advance run := by
  induction s with
  | call work a => rw [Stream.advance, Stream.advance, hsame work a hs.1]
  | interleave s t ih _ => rw [Stream.advance, Stream.advance, ih hs.1]
  | forEach s work ih =>
      rw [Stream.advance, Stream.advance, ih hs.1]
      cases s.advance run with
      | error e => rfl
      | ok m =>
          cases m with
          | yield a rest => simp only [hsame work a hs.2]
          | _ => rfl
  | _ => rfl

section Agree

variable
  (hrun : ∀ work a, q work → p a → Meets (Every p q) allowed (run work a))
  (hsame : ∀ work a, q work → run' work a = run work a)

include hrun hsame

/-- So runs are the same, -/
theorem Every.leads_of_agree {s t : Stream α γ} (hs : s.Every p q)
    (h : Leads run s t) : Leads run' s t := by
  induction h with
  | refl s => exact .refl s
  | yield h _ ih =>
      exact .yield ((hs.advance_congr hsame).trans h)
        (ih (hs.of_advance hrun h).2)
  | pending h _ ih =>
      exact .pending ((hs.advance_congr hsame).trans h)
        (ih (hs.of_advance hrun h))
  | working h _ ih =>
      exact .working ((hs.advance_congr hsame).trans h)
        (ih (hs.of_advance hrun h))

/-- and the pulls have the same answers. -/
theorem Every.nth_of_agree {s : Stream α γ} {k : Nat} {a : α}
    (hs : s.Every p q) (h : Nth run s k a) : Nth run' s k a := by
  induction h with
  | here h => exact .here ((hs.advance_congr hsame).trans h)
  | later h _ ih =>
      exact .later ((hs.advance_congr hsame).trans h)
        (ih (hs.of_advance hrun h).2)
  | pending h _ ih =>
      exact .pending ((hs.advance_congr hsame).trans h)
        (ih (hs.of_advance hrun h))
  | working h _ ih =>
      exact .working ((hs.advance_congr hsame).trans h)
        (ih (hs.of_advance hrun h))

omit hrun in
/-- Agreeing goes both ways. -/
theorem agree_symm (work : γ) (a : α) (hw : q work) :
    run work a = run' work a :=
  (hsame work a hw).symm

/-- The other run keeps the same. -/
theorem meets_of_agree (work : γ) (a : α) (hw : q work) (ha : p a) :
    Meets (Every p q) allowed (run' work a) := by
  rw [hsame work a hw]
  exact hrun work a hw ha

theorem Every.nth_congr {s : Stream α γ} {k : Nat} {a : α}
    (hs : s.Every p q) : Nth run' s k a ↔ Nth run s k a :=
  ⟨hs.nth_of_agree (meets_of_agree hrun hsame) (agree_symm hsame),
    hs.nth_of_agree hrun hsame⟩

/-- What the one run does not give up, the other does not. -/
theorem Every.neverAborts_of_agree {s : Stream α γ} (hs : s.Every p q)
    (h : s.NeverAborts run) : s.NeverAborts run' := by
  intro t hst
  have hst' := hs.leads_of_agree (meets_of_agree hrun hsame)
    (agree_symm hsame) hst
  obtain ⟨m, hm⟩ := h t hst'
  exact ⟨m, ((hs.leads hrun hst').advance_congr hsame).trans hm⟩

end Agree

end Stream

end LogicSearch
