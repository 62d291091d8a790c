import LogicSearch.Stream.Answer

/-! # The rules by which a stream advances

    `Merging`, `Binding` and `Advance` are `merge`, `bind` and `advance`
    read as rules, one constructor for each thing that can happen.  They are
    data: what follows an answer through a step recurses on the rule that was
    used.  A step that succeeds is an instance of exactly one rule
    (`exists_advance`, `Advance.eq_of_same`). -/

namespace LogicSearch.Stream

variable {α γ ε : Type}

/-! ## Merging and binding -/

/-- The third stream is the merge of the first two. -/
inductive Merging : Stream α γ → Stream α γ → Stream α γ → Type where
  | left (t : Stream α γ) : Merging empty t t
  | right {s : Stream α γ} : s ≠ empty → Merging s empty s
  | both {s t : Stream α γ} : s ≠ empty → t ≠ empty →
      Merging s t (interleave s t)

/-- The second stream starts the work on every answer of the first. -/
inductive Binding (work : γ) : Stream α γ → Stream α γ → Type where
  | empty : Binding work empty empty
  | each {s : Stream α γ} : s ≠ empty → Binding work s (forEach s work)

theorem merge_empty_right (s : Stream α γ) : s.merge empty = s := by
  cases s <;> rfl

theorem merge_eq_interleave {s t : Stream α γ} (hs : s ≠ empty)
    (ht : t ≠ empty) : s.merge t = interleave s t := by
  cases s with
  | empty => exact absurd rfl hs
  | _ => cases t with
    | empty => exact absurd rfl ht
    | _ => rfl

theorem bind_eq_forEach {s : Stream α γ} (hs : s ≠ empty) (work : γ) :
    s.bind work = forEach s work := by
  cases s with
  | empty => exact absurd rfl hs
  | _ => rfl

theorem Merging.eq_merge {s t u : Stream α γ} (m : Merging s t u) :
    u = s.merge t := by
  cases m with
  | left => rfl
  | right _ => exact (merge_empty_right s).symm
  | both hs ht => exact (merge_eq_interleave hs ht).symm

theorem Binding.eq_bind {work : γ} {s u : Stream α γ}
    (m : Binding work s u) : u = s.bind work := by
  cases m with
  | empty => rfl
  | each hs => exact (bind_eq_forEach hs work).symm

theorem exists_merging (s t : Stream α γ) :
    Nonempty (Merging s t (s.merge t)) := by
  by_cases hs : s = empty
  · subst hs
    exact ⟨.left t⟩
  · by_cases ht : t = empty
    · subst ht
      rw [merge_empty_right]
      exact ⟨.right hs⟩
    · rw [merge_eq_interleave hs ht]
      exact ⟨.both hs ht⟩

theorem exists_binding (work : γ) (s : Stream α γ) :
    Nonempty (Binding work s (s.bind work)) := by
  by_cases hs : s = empty
  · subst hs
    exact ⟨.empty⟩
  · rw [bind_eq_forEach hs]
    exact ⟨.each hs⟩

/-- What holds of both operands and of the pair holds of their merge. -/
theorem Merging.of_interleave {p : Stream α γ → Prop} {s t u : Stream α γ}
    (m : Merging s t u) (hs : p s) (ht : p t) (hst : p (interleave s t)) :
    p u := by
  cases m with
  | left => exact ht
  | right _ => exact hs
  | both _ _ => exact hst

theorem Binding.of_forEach {p : Stream α γ → Prop} {work : γ}
    {s u : Stream α γ} (m : Binding work s u) (hs : p s)
    (heach : p (forEach s work)) : p u := by
  cases m with
  | empty => exact hs
  | each _ => exact heach

/-- Streams merge by one rule. -/
theorem Merging.eq_of_same {s t u : Stream α γ} (p q : Merging s t u) :
    p = q := by
  cases p with
  | left => cases q with
    | left => rfl
    | right hs => exact absurd rfl hs
  | right hs => cases q with
    | left => exact absurd rfl hs
    | right _ => rfl
  | both hs ht => cases q with
    | both _ _ => rfl

theorem Binding.eq_of_same {work : γ} {s u : Stream α γ}
    (p q : Binding work s u) : p = q := by
  cases p with
  | empty => cases q with
    | empty => rfl
  | each hs => cases q with
    | each _ => rfl

/-! ## Advancing -/

/-- One rule for each way in which a step can succeed. -/
inductive Advance (run : γ → α → Except ε (Stream α γ)) :
    Stream α γ → Move α γ → Type where
  | empty : Advance run empty .done
  | cons (a : α) (rest : Stream α γ) :
      Advance run (cons a rest) (.yield a rest)
  | pause (rest : Stream α γ) : Advance run (pause rest) (.pending rest)
  | call {work : γ} {a : α} {rest : Stream α γ} : run work a = .ok rest →
      Advance run (call work a) (.pending rest)
  | gap {items : Nat → Option α} {next : Nat} : items next = none →
      Advance run (source items next) .done
  | item {items : Nat → Option α} {next : Nat} {a : α} :
      items next = some a →
      Advance run (source items next)
        (.yield a (.pause (source items (next + 1))))
  | turnDone {s t : Stream α γ} : Advance run s .done →
      Advance run (interleave s t) (.working t)
  | turnYield {s s' t u : Stream α γ} {a : α} :
      Advance run s (.yield a s') → Merging s' t u →
      Advance run (interleave s t) (.yield a u)
  /-- The operands swap. -/
  | turnPending {s s' t u : Stream α γ} : Advance run s (.pending s') →
      Merging t s' u → Advance run (interleave s t) (.pending u)
  | turnWorking {s s' t : Stream α γ} : Advance run s (.working s') →
      Advance run (interleave s t) (.working (interleave s' t))
  | eachDone {s : Stream α γ} {work : γ} : Advance run s .done →
      Advance run (forEach s work) .done
  /-- The work on the answer takes turns with the work on the rest. -/
  | eachYield {s s' head tail u : Stream α γ} {work : γ} {a : α} :
      Advance run s (.yield a s') → run work a = .ok head →
      Binding work s' tail → Merging head tail u →
      Advance run (forEach s work) (.working u)
  | eachPending {s s' u : Stream α γ} {work : γ} :
      Advance run s (.pending s') → Binding work s' u →
      Advance run (forEach s work) (.pending u)
  | eachWorking {s s' : Stream α γ} {work : γ} :
      Advance run s (.working s') →
      Advance run (forEach s work) (.working (forEach s' work))

variable {run : γ → α → Except ε (Stream α γ)}

/-- A rule says what `advance` comes to. -/
theorem Advance.advance_eq {s : Stream α γ} {m : Move α γ}
    (p : Advance run s m) : s.advance run = .ok m := by
  induction p with
  | empty => rfl
  | cons a rest => rfl
  | pause rest => rfl
  | call h => rw [advance, h]
  | gap h => rw [advance, h]
  | item h => rw [advance, h]
  | turnDone _ ih => rw [advance, ih]
  | turnYield _ m ih => rw [advance, ih, m.eq_merge]
  | turnPending _ m ih => rw [advance, ih, m.eq_merge]
  | turnWorking _ ih => rw [advance, ih]
  | eachDone _ ih => rw [advance, ih]
  | eachYield _ h b m ih =>
      rw [advance, ih]
      dsimp only
      rw [h, m.eq_merge, b.eq_bind]
  | eachPending _ b ih => rw [advance, ih, b.eq_bind]
  | eachWorking _ ih => rw [advance, ih]

/-- **EVERY STEP IS AN INSTANCE OF A RULE.** -/
theorem exists_advance {s : Stream α γ} {m : Move α γ}
    (h : s.advance run = .ok m) : Nonempty (Advance run s m) := by
  induction s generalizing m with
  | empty => cases h; exact ⟨.empty⟩
  | cons a rest _ => cases h; exact ⟨.cons a rest⟩
  | pause rest _ => cases h; exact ⟨.pause rest⟩
  | call work a =>
      rw [advance] at h
      cases hrun : run work a with
      | error e => rw [hrun] at h; exact nomatch h
      | ok rest => rw [hrun] at h; cases h; exact ⟨.call hrun⟩
  | source items next =>
      rw [advance] at h
      cases hitem : items next with
      | none => rw [hitem] at h; cases h; exact ⟨.gap hitem⟩
      | some a => rw [hitem] at h; cases h; exact ⟨.item hitem⟩
  | interleave s t ih _ =>
      rw [advance] at h
      cases hs : s.advance run with
      | error e => rw [hs] at h; exact nomatch h
      | ok m =>
          obtain ⟨p⟩ := ih hs
          rw [hs] at h
          cases m with
          | done => cases h; exact ⟨.turnDone p⟩
          | yield a s' =>
              obtain ⟨m⟩ := exists_merging s' t
              cases h; exact ⟨.turnYield p m⟩
          | pending s' =>
              obtain ⟨m⟩ := exists_merging t s'
              cases h; exact ⟨.turnPending p m⟩
          | working s' => cases h; exact ⟨.turnWorking p⟩
  | forEach s work ih =>
      rw [advance] at h
      cases hs : s.advance run with
      | error e => rw [hs] at h; exact nomatch h
      | ok m =>
          obtain ⟨p⟩ := ih hs
          rw [hs] at h
          cases m with
          | done => cases h; exact ⟨.eachDone p⟩
          | yield a s' =>
              dsimp only at h
              cases hrun : run work a with
              | error e => rw [hrun] at h; exact nomatch h
              | ok head =>
                  rw [hrun] at h
                  obtain ⟨b⟩ := exists_binding work s'
                  obtain ⟨m⟩ := exists_merging head (s'.bind work)
                  cases h; exact ⟨.eachYield p hrun b m⟩
          | pending s' =>
              obtain ⟨b⟩ := exists_binding work s'
              cases h; exact ⟨.eachPending p b⟩
          | working s' => cases h; exact ⟨.eachWorking p⟩

theorem interleave_error {s : Stream α γ} {e : ε}
    (h : s.advance run = .error e) (t : Stream α γ) :
    (interleave s t).advance run = .error e := by
  rw [advance, h]

theorem forEach_error {s : Stream α γ} {e : ε}
    (h : s.advance run = .error e) (work : γ) :
    (forEach s work).advance run = .error e := by
  rw [advance, h]

/-- The work on an answer may give the search up. -/
theorem forEach_work_error {s s' : Stream α γ} {a : α} {work : γ} {e : ε}
    (p : Advance run s (.yield a s')) (h : run work a = .error e) :
    (forEach s work).advance run = .error e := by
  rw [advance, p.advance_eq]
  dsimp only
  rw [h]

/-- A stream has one next move. -/
theorem Advance.move_eq {s : Stream α γ} {m m' : Move α γ}
    (p : Advance run s m) (q : Advance run s m') : m = m' :=
  Except.ok.inj (p.advance_eq.symm.trans q.advance_eq)

/-- **AND OF NO OTHER.** -/
theorem Advance.eq_of_same {s : Stream α γ} {m : Move α γ}
    (p q : Advance run s m) : p = q := by
  induction p with
  | empty => cases q with
    | empty => rfl
  | cons a rest => cases q with
    | cons _ _ => rfl
  | pause rest => cases q with
    | pause _ => rfl
  | call h => cases q with
    | call _ => rfl
  | gap h => cases q with
    | gap _ => rfl
  | item h => cases q with
    | item _ => rfl
  | turnDone p ih => cases q with
    | turnDone q => rw [ih q]
  | turnYield p m ih => cases q with
    | turnYield q m' =>
        cases p.move_eq q
        rw [ih q, m.eq_of_same m']
  | turnPending p m ih => cases q with
    | turnPending q m' =>
        cases p.move_eq q
        rw [ih q, m.eq_of_same m']
  | turnWorking p ih => cases q with
    | turnWorking q => rw [ih q]
  | eachDone p ih => cases q with
    | eachDone q => rw [ih q]
  | eachYield p h b m ih => cases q with
    | eachYield q h' b' m' =>
        cases p.move_eq q
        cases Except.ok.inj (h.symm.trans h')
        cases b.eq_bind.trans b'.eq_bind.symm
        rw [ih q, b.eq_of_same b', m.eq_of_same m']
    | eachWorking q => exact nomatch p.move_eq q
  | eachPending p b ih => cases q with
    | eachPending q b' =>
        cases p.move_eq q
        rw [ih q, b.eq_of_same b']
  | eachWorking p ih => cases q with
    | eachYield q _ _ _ => exact nomatch p.move_eq q
    | eachWorking q => rw [ih q]

end LogicSearch.Stream
