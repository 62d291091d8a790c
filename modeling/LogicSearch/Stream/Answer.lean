import LogicSearch.Stream.Basic

/-! # The answers of a stream

    `Nth` relates a stream to the answer of its pull with a given number,
    without any fuel; `nth_iff` ties it to series of pulls with fuel, whose
    answers do not change with more of it (`harvest_answer_mono`).  `Leads`
    relates a stream to all that is left of it later, and `Starts` to the
    work that its next step starts. -/

namespace LogicSearch.Stream

variable {α γ ε : Type}

section Run

variable (run : γ → α → Except ε (Stream α γ))

/-- The pull with number `k`, counted from zero, answers `a`. -/
inductive Nth : Stream α γ → Nat → α → Prop where
  | here {s rest : Stream α γ} {a : α} :
      s.advance run = .ok (.yield a rest) → Nth s 0 a
  | later {s rest : Stream α γ} {a b : α} {k : Nat} :
      s.advance run = .ok (.yield b rest) → Nth rest k a → Nth s (k + 1) a
  | pending {s rest : Stream α γ} {a : α} {k : Nat} :
      s.advance run = .ok (.pending rest) → Nth rest k a → Nth s k a
  | working {s rest : Stream α γ} {a : α} {k : Nat} :
      s.advance run = .ok (.working rest) → Nth rest k a → Nth s k a

/-- Some small steps lead from one stream to the other. -/
inductive Leads : Stream α γ → Stream α γ → Prop where
  | refl (s : Stream α γ) : Leads s s
  | yield {s rest t : Stream α γ} {a : α} :
      s.advance run = .ok (.yield a rest) → Leads rest t → Leads s t
  | pending {s rest t : Stream α γ} :
      s.advance run = .ok (.pending rest) → Leads rest t → Leads s t
  | working {s rest t : Stream α γ} :
      s.advance run = .ok (.working rest) → Leads rest t → Leads s t

/-- The next step starts the work on the answer. -/
inductive Starts : Stream α γ → γ → α → Prop where
  | call {work : γ} {a : α} : Starts (.call work a) work a
  | interleave {s t : Stream α γ} {work : γ} {a : α} :
      Starts s work a → Starts (.interleave s t) work a
  | forEach {s : Stream α γ} {each work : γ} {a : α} :
      Starts s work a → Starts (.forEach s each) work a
  /-- The work on every answer is started on the one that is there. -/
  | answer {s rest : Stream α γ} {work : γ} {a : α} :
      s.advance run = .ok (.yield a rest) → Starts (.forEach s work) work a

end Run

variable {run : γ → α → Except ε (Stream α γ)}

theorem Leads.trans {s t u : Stream α γ} (hst : Leads run s t)
    (htu : Leads run t u) : Leads run s u := by
  induction hst with
  | refl s => exact htu
  | yield hs _ ih => exact .yield hs (ih htu)
  | pending hs _ ih => exact .pending hs (ih htu)
  | working hs _ ih => exact .working hs (ih htu)

/-- More fuel keeps the answer of a pull. -/
theorem pull_answer_mono {m n : Nat} {s rest : Stream α γ} {a : α}
    (h : s.pull run m = .ok (.answer a rest)) (hmn : m ≤ n) :
    s.pull run n = .ok (.answer a rest) := by
  induction m generalizing n s with
  | zero => exact nomatch h
  | succ m ih =>
      obtain ⟨k, rfl⟩ : ∃ k, n = k + 1 := ⟨n - 1, by omega⟩
      have hmk : m ≤ k := by omega
      rw [pull] at h ⊢
      cases hs : s.advance run with
      | error e => rw [hs] at h; exact nomatch h
      | ok move =>
          rw [hs] at h
          cases move with
          | done => exact nomatch h
          | yield b r => exact h
          | pending r => exact ih h hmk
          | working r => exact ih h hmk

/-- What a pull answers is the first answer, and what it leaves has the
    later ones. -/
theorem nth_of_pull {fuel : Nat} {s rest : Stream α γ} {a : α}
    (h : s.pull run fuel = .ok (.answer a rest)) :
    Nth run s 0 a ∧ ∀ {k b}, Nth run rest k b → Nth run s (k + 1) b := by
  induction fuel generalizing s with
  | zero => exact nomatch h
  | succ fuel ih =>
      rw [pull] at h
      cases hs : s.advance run with
      | error e => rw [hs] at h; exact nomatch h
      | ok move =>
          rw [hs] at h
          cases move with
          | done => exact nomatch h
          | yield b r =>
              cases h
              exact ⟨.here hs, .later hs⟩
          | pending r =>
              obtain ⟨hfirst, hlater⟩ := ih h
              exact ⟨.pending hs hfirst, fun hb => .pending hs (hlater hb)⟩
          | working r =>
              obtain ⟨hfirst, hlater⟩ := ih h
              exact ⟨.working hs hfirst, fun hb => .working hs (hlater hb)⟩

/-- A stream with an answer has a first one, which a pull finds; the answer
    is that one, or one of what the pull leaves. -/
theorem Nth.exists_pull {s : Stream α γ} {k : Nat} {a : α}
    (h : Nth run s k a) : ∃ fuel b rest,
      s.pull run fuel = .ok (.answer b rest) ∧
      ((k = 0 ∧ b = a) ∨ ∃ l, k = l + 1 ∧ Nth run rest l a) := by
  induction h with
  | here hs => exact ⟨1, _, _, by rw [pull, hs], .inl ⟨rfl, rfl⟩⟩
  | later hs h _ => exact ⟨1, _, _, by rw [pull, hs], .inr ⟨_, rfl, h⟩⟩
  | pending hs _ ih =>
      obtain ⟨fuel, b, rest, hpull, hb⟩ := ih
      exact ⟨fuel + 1, b, rest, by rw [pull, hs]; exact hpull, hb⟩
  | working hs _ ih =>
      obtain ⟨fuel, b, rest, hpull, hb⟩ := ih
      exact ⟨fuel + 1, b, rest, by rw [pull, hs]; exact hpull, hb⟩

/-- A series of pulls goes on where its first pull has led to. -/
theorem harvest_of_pull {fuel : Nat} {s rest : Stream α γ} {a : α}
    (h : s.pull run fuel = .ok (.answer a rest)) (count : Nat) :
    (s.harvest run fuel (count + 1)).1
      = a :: (rest.harvest run fuel count).1 := by
  rw [harvest, h]

/-- A series of pulls with an answer starts with a pull that finds one. -/
theorem exists_pull_of_harvest {fuel count k : Nat} {s : Stream α γ} {a : α}
    (h : (s.harvest run fuel (count + 1)).1[k]? = some a) :
    ∃ b rest, s.pull run fuel = .ok (.answer b rest) := by
  rw [harvest] at h
  split at h
  · cases h
  · cases h
  · cases h
  · next b rest hpull => exact ⟨b, rest, hpull⟩

/-- More fuel keeps all answers of a series of pulls. -/
theorem harvest_answer_mono {m n count k : Nat} {s : Stream α γ} {a : α}
    (h : (s.harvest run m count).1[k]? = some a) (hmn : m ≤ n) :
    (s.harvest run n count).1[k]? = some a := by
  induction count generalizing s k with
  | zero => cases h
  | succ count ih =>
      obtain ⟨b, rest, hpull⟩ := exists_pull_of_harvest h
      rw [harvest_of_pull hpull] at h
      rw [harvest_of_pull (pull_answer_mono hpull hmn)]
      cases k with
      | zero => exact h
      | succ k => exact ih h

/-- **ANSWERS ARE WHAT PULLS FIND**: with enough fuel, and only then, the
    last of `k + 1` pulls finds the answer with number `k`. -/
theorem nth_iff {s : Stream α γ} {k : Nat} {a : α} :
    Nth run s k a
      ↔ ∃ fuel, (s.harvest run fuel (k + 1)).1[k]? = some a := by
  induction k generalizing s with
  | zero =>
      constructor
      · intro h
        obtain ⟨fuel, b, rest, hpull, ⟨-, rfl⟩ | ⟨l, hl, -⟩⟩ := h.exists_pull
        · exact ⟨fuel, by rw [harvest_of_pull hpull]; rfl⟩
        · cases hl
      · rintro ⟨fuel, h⟩
        obtain ⟨b, rest, hpull⟩ := exists_pull_of_harvest h
        rw [harvest_of_pull hpull] at h
        cases h
        exact (nth_of_pull hpull).1
  | succ k ih =>
      constructor
      · intro h
        obtain ⟨fuel, b, rest, hpull, ⟨hk, -⟩ | ⟨l, hl, hrest⟩⟩ :=
          h.exists_pull
        · cases hk
        · cases hl
          obtain ⟨fuel', hlater⟩ := ih.mp hrest
          -- one amount of fuel serves the first pull and the later ones
          have hfirst := pull_answer_mono hpull (Nat.le_max_left fuel fuel')
          refine ⟨max fuel fuel', ?_⟩
          rw [harvest_of_pull hfirst]
          exact harvest_answer_mono hlater (Nat.le_max_right fuel fuel')
      · rintro ⟨fuel, h⟩
        obtain ⟨b, rest, hpull⟩ := exists_pull_of_harvest h
        rw [harvest_of_pull hpull] at h
        exact (nth_of_pull hpull).2 (ih.mpr ⟨fuel, h⟩)

end LogicSearch.Stream
