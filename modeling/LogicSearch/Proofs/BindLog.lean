import LogicSearch.Stream.Applied
import LogicSearch.Proofs.Turns
import LogicSearch.Proofs.Rules

/-! # The answers that a bind has applied its work to

    However far a bind is pulled, its work has been applied to the answers
    that the stream has yielded up to there, once each and in their order,
    and to nothing else (`Applied.exists_passes`): what is left of the bind
    is `Around` what is left of the stream, or the stream is at its end.

    Work that has been begun takes turns with the bind of the rest.  If its
    turns end, it cannot hold the bind up, so every answer of the stream has
    the work applied to it after finitely many steps (`exists_applied_nth`),
    be the work that was begun before endless or silent. -/

namespace LogicSearch.Stream

variable {α γ ε : Type} {run : γ → α → Except ε (Stream α γ)} {work : γ}
  {s rest u : Stream α γ} {t t' : Stream α (Option γ)} {a : α} {as : List α}

/-! ## Steps of what is not the bind -/

theorem advance_rename_some (run : γ → α → Except ε (Stream α γ)) (work : γ)
    (u : Stream α γ) : (u.rename some).advance (runApart run work)
      = (u.advance run).map (Move.rename some) :=
  advance_rename (fun _ _ => rfl) u

theorem advance_rename_some_eq {m : Move α γ} (h : u.advance run = .ok m)
    (work : γ) :
    (u.rename some).advance (runApart run work) = .ok (m.rename some) := by
  rw [advance_rename_some, h]
  rfl

/-- The work of the bind is started by the bind only. -/
theorem not_starts_rename
    {run : Option γ → α → Except ε (Stream α (Option γ))}
    (u : Stream α γ) (a : α) : ¬ Starts run (u.rename some) none a := by
  induction u with
  | empty => intro h; cases h
  | cons b rest _ => intro h; cases h
  | pause rest _ => intro h; cases h
  | call work b => intro h; cases h
  | source items next => intro h; cases h
  | interleave s t ih _ =>
      intro h
      cases h with
      | interleave h => exact ih h
  | forEach s work ih =>
      intro h
      cases h with
      | forEach h => exact ih h

/-- Nor is it while it is the turn of another stream. -/
theorem not_starts_beside
    {run : Option γ → α → Except ε (Stream α (Option γ))}
    (u : Stream α γ) (t : Stream α (Option γ)) (a : α) :
    ¬ Starts run (interleave (u.rename some) t) none a := by
  intro h
  cases h with
  | interleave h => exact not_starts_rename u a h

/-! ## The applications so far -/

/-- What is left of a bind whose work is told apart. -/
inductive Serves (rest : Stream α γ) : Stream α (Option γ) → Prop where
  | bind : Serves rest (forEach (rest.rename some) none)
  | left {t : Stream α (Option γ)} (u : Stream α γ) : Serves rest t →
      Serves rest (interleave t (u.rename some))
  | right (u : Stream α γ) {t : Stream α (Option γ)} : Serves rest t →
      Serves rest (interleave (u.rename some) t)

/-- The bind of the rest is there as long as the rest is not at its end. -/
inductive Kept (run : γ → α → Except ε (Stream α γ)) (rest : Stream α γ) :
    Stream α (Option γ) → Prop where
  | serves {t : Stream α (Option γ)} : Serves rest t → Kept run rest t
  | ended (u : Stream α γ) : rest.advance run = .ok .done →
      Kept run rest (u.rename some)

theorem Serves.around (h : Serves rest t) (work : γ) :
    Around work rest (t.together work) := by
  induction h with
  | bind =>
      have hrest := together_rename work rest
      rw [together] at hrest ⊢
      rw [rename, hrest]
      exact .bind
  | left u _ ih => exact .left _ ih
  | right u _ ih => exact .right _ ih

theorem Serves.ne_empty (h : Serves rest t) : t ≠ empty := by
  cases h <;> intro h <;> cases h

theorem Kept.merge_left (h : Kept run rest t) (u : Stream α γ) :
    Kept run rest (t.merge (u.rename some)) := by
  cases h with
  | serves h =>
      by_cases hu : u.rename (some : γ → Option γ) = empty
      · rw [hu, merge_empty_right]
        exact .serves h
      · rw [merge_eq_interleave h.ne_empty hu]
        exact .serves (.left u h)
  | ended v h =>
      rw [← rename_merge]
      exact .ended (v.merge u) h

theorem Kept.merge_right (h : Kept run rest t) (u : Stream α γ) :
    Kept run rest ((u.rename some).merge t) := by
  cases h with
  | serves h =>
      by_cases hu : u.rename (some : γ → Option γ) = empty
      · rw [hu]
        exact .serves h
      · rw [merge_eq_interleave hu h.ne_empty]
        exact .serves (.right u h)
  | ended v h =>
      rw [← rename_merge]
      exact .ended (u.merge v) h

/-- A move that leaves what is left of a bind, or ends with the stream. -/
inductive KeptMove (run : γ → α → Except ε (Stream α γ))
    (rest : Stream α γ) : Move α (Option γ) → Prop where
  | done : rest.advance run = .ok .done → KeptMove run rest .done
  | yield {a : α} {t : Stream α (Option γ)} : Kept run rest t →
      KeptMove run rest (.yield a t)
  | pending {t : Stream α (Option γ)} : Kept run rest t →
      KeptMove run rest (.pending t)
  | working {t : Stream α (Option γ)} : Kept run rest t →
      KeptMove run rest (.working t)

theorem KeptMove.kept {m : Move α (Option γ)} (h : KeptMove run rest m)
    (hrest : m.rest? = some t) : Kept run rest t := by
  cases h with
  | done _ => cases hrest
  | yield h => cases hrest; exact h
  | pending h => cases hrest; exact h
  | working h => cases hrest; exact h

theorem Passes.trans {bs : List α} {v : Stream α γ}
    (h : Passes run s as u) (h' : Passes run u bs v) :
    Passes run s (as ++ bs) v := by
  induction h with
  | refl s => exact h'
  | yield hs _ ih => exact .yield hs (ih h')
  | pending hs _ ih => exact .pending hs (ih h')
  | working hs _ ih => exact .working hs (ih h')

/-- Some steps of the stream apply the work of the bind to the answers. -/
def Applies (run : γ → α → Except ε (Stream α γ)) (work : γ)
    (t : Stream α (Option γ)) (as : List α) : Prop :=
  ∃ t', Started (runApart run work) none t as t'

theorem Applies.start {m : Move α (Option γ)} (h : Applies run work t' as)
    (hm : t.advance (runApart run work) = .ok m) (hrest : m.rest? = some t')
    (hstart : Starts (runApart run work) t none a) :
    Applies run work t (a :: as) := by
  obtain ⟨w, h⟩ := h
  exact ⟨w, .start hm hrest hstart h⟩

theorem Applies.other {m : Move α (Option γ)} (h : Applies run work t' as)
    (hm : t.advance (runApart run work) = .ok m) (hrest : m.rest? = some t')
    (hnone : ∀ a, ¬ Starts (runApart run work) t none a) :
    Applies run work t as := by
  obtain ⟨w, h⟩ := h
  exact ⟨w, .other hm hrest hnone h⟩

theorem Applies.of_empty (h : Applies run work empty as) : as = [] := by
  obtain ⟨w, h⟩ := h
  cases h with
  | refl => rfl
  | start hm hrest _ _ => cases hm; cases hrest
  | other hm hrest _ _ => cases hm; cases hrest

/-- Dropping an empty operand loses no application. -/
theorem Applies.merge_left {v : Stream α (Option γ)}
    (h : Applies run work t as)
    (hpair : Applies run work (interleave t v) as) :
    Applies run work (t.merge v) as := by
  obtain ⟨m⟩ := exists_merging t v
  generalize t.merge v = w at m ⊢
  cases m with
  | left =>
      obtain rfl := h.of_empty
      exact ⟨v, .refl v⟩
  | right _ => exact h
  | both _ _ => exact hpair

theorem Applies.merge_right {v : Stream α (Option γ)}
    (h : Applies run work t as)
    (hpair : Applies run work (interleave v t) as) :
    Applies run work (v.merge t) as := by
  obtain ⟨m⟩ := exists_merging v t
  generalize v.merge t = w at m ⊢
  cases m with
  | left => exact h
  | right _ =>
      obtain rfl := h.of_empty
      exact ⟨v, .refl v⟩
  | both _ _ => exact hpair

theorem Applies.bind {t : Stream α (Option γ)}
    (h : Applies run work (forEach t none) as) :
    Applies run work (t.bind none) as := by
  cases t with
  | empty =>
      obtain ⟨w, h⟩ := h
      cases h with
      | refl => exact ⟨empty, .refl empty⟩
      | start hm hrest _ _ => cases hm; cases hrest
      | other hm hrest _ _ => cases hm; cases hrest
  | _ => exact h

/-- What is applied beside one stream is applied beside the next, as the turn
    of that one comes to its end. -/
theorem Applies.swap {T : Turns α} (h : Applies run work t as)
    (hleft : ∀ u T, HasTurns run u T →
      Applies run work (interleave t (u.rename some)) as)
    (hu : HasTurns run u T) :
    Applies run work (interleave (u.rename some) t) as := by
  obtain ⟨bs, next, -, hturn, hnext⟩ := hasTurns_isSchedule u T hu
  generalize T.tail = T' at hnext
  clear hu
  induction hturn with
  | @done u hm =>
      have hstep : (interleave (u.rename some) t).advance (runApart run work)
          = .ok (.working t) := by
        rw [advance, advance_rename_some_eq hm]
        rfl
      exact h.other hstep rfl (not_starts_beside u t)
  | @pending u u' hm =>
      have hstep : (interleave (u.rename some) t).advance (runApart run work)
          = .ok (.pending (t.merge (u'.rename some))) := by
        rw [advance, advance_rename_some_eq hm]
        rfl
      exact (h.merge_left (hleft u' T' hnext)).other hstep rfl
        (not_starts_beside u t)
  | @yield u u' b bs next hm _ ih =>
      have hstep : (interleave (u.rename some) t).advance (runApart run work)
          = .ok (.yield b ((u'.rename some).merge t)) := by
        rw [advance, advance_rename_some_eq hm]
        rfl
      exact (h.merge_right (ih hnext)).other hstep rfl (not_starts_beside u t)
  | @working u u' bs next hm _ ih =>
      have hstep : (interleave (u.rename some) t).advance (runApart run work)
          = .ok (.working (interleave (u'.rename some) t)) := by
        rw [advance, advance_rename_some_eq hm]
        rfl
      exact (ih hnext).other hstep rfl (not_starts_beside u t)

/-- What the left one of two streams leaves is left of the pair, beside the
    other one. -/
theorem exists_move_interleave {run : γ → α → Except ε (Stream α γ)}
    {m : Move α γ} {s rest : Stream α γ} (hm : s.advance run = .ok m)
    (hrest : m.rest? = some rest) (t : Stream α γ) :
    ∃ m' u, (interleave s t).advance run = .ok m' ∧ m'.rest? = some u ∧
      (u = rest.merge t ∨ u = t.merge rest ∨ u = interleave rest t) := by
  rw [advance, hm]
  cases m with
  | done => cases hrest
  | yield a s' => cases hrest; exact ⟨_, _, rfl, rfl, .inl rfl⟩
  | pending s' => cases hrest; exact ⟨_, _, rfl, rfl, .inr (.inl rfl)⟩
  | working s' => cases hrest; exact ⟨_, _, rfl, rfl, .inr (.inr rfl)⟩

/-- A step of the left one of two streams may let them swap. -/
theorem Applies.of_pair {w : Stream α (Option γ)} {T : Turns α}
    (h : Applies run work t as)
    (hleft : ∀ u T, HasTurns run u T →
      Applies run work (interleave t (u.rename some)) as)
    (hu : HasTurns run u T)
    (hw : w = t.merge (u.rename some) ∨ w = (u.rename some).merge t ∨
      w = interleave t (u.rename some)) : Applies run work w as := by
  rcases hw with rfl | rfl | rfl
  · exact h.merge_left (hleft u T hu)
  · exact h.merge_right (h.swap hleft hu)
  · exact hleft u T hu

/-- **WORK THAT HAS BEGUN DOES NOT HOLD THE BIND UP.** -/
theorem Applies.interleave (h : Applies run work t as) {T : Turns α}
    (hu : HasTurns run u T) :
    Applies run work (interleave t (u.rename some)) as := by
  obtain ⟨t', h⟩ := h
  induction h generalizing u T with
  | refl t => exact ⟨_, .refl _⟩
  | start hm hrest hstart h ih =>
      obtain ⟨m', w, hm', hw, hcases⟩ :=
        exists_move_interleave hm hrest (u.rename some)
      have happ := Applies.of_pair ⟨_, h⟩ (fun _ _ => ih) hu hcases
      exact happ.start hm' hw (.interleave hstart)
  | other hm hrest hnone h ih =>
      obtain ⟨m', w, hm', hw, hcases⟩ :=
        exists_move_interleave hm hrest (u.rename some)
      have happ := Applies.of_pair ⟨_, h⟩ (fun _ _ => ih) hu hcases
      refine happ.other hm' hw fun a hstart => ?_
      cases hstart with
      | interleave hstart => exact hnone a hstart

theorem Started.leads (h : Started (runApart run work) none t as t') :
    Leads run (t.together work) (t'.together work) := by
  have hstep : ∀ {t rest w : Stream α (Option γ)} {m : Move α (Option γ)},
      t.advance (runApart run work) = .ok m → m.rest? = some rest →
      Leads run (rest.together work) (w.together work) →
      Leads run (t.together work) (w.together work) := by
    intro t rest w m hm hrest h
    have hmove := advance_together run work t
    rw [hm] at hmove
    cases m with
    | done => cases hrest
    | yield a r => cases hrest; exact .yield hmove h
    | pending r => cases hrest; exact .pending hmove h
    | working r => cases hrest; exact .working hmove h
  induction h with
  | refl t => exact .refl _
  | start hm hrest _ _ ih => exact hstep hm hrest ih
  | other hm hrest _ _ ih => exact hstep hm hrest ih

/-- A step has something to log, or nothing. -/
theorem Started.exists_step {w : Stream α (Option γ)} {m : Move α (Option γ)}
    (h : Started (runApart run work) none t as t')
    (hm : w.advance (runApart run work) = .ok m) (hrest : m.rest? = some t) :
    ∃ bs, Started (runApart run work) none w bs t' := by
  by_cases hstart : ∃ a, Starts (runApart run work) w none a
  · obtain ⟨a, ha⟩ := hstart
    exact ⟨a :: as, .start hm hrest ha h⟩
  · exact ⟨as, .other hm hrest (fun a ha => hstart ⟨a, ha⟩) h⟩

theorem exists_move_of_together {m : Move α γ}
    (h : (t.together work).advance run = .ok m) :
    ∃ m', t.advance (runApart run work) = .ok m' ∧
      m = m'.rename fun item => item.getD work := by
  rw [advance_together] at h
  cases ht : t.advance (runApart run work) with
  | error e => rw [ht] at h; cases h
  | ok m' => rw [ht] at h; cases h; exact ⟨m', rfl, rfl⟩

/-- Wherever some steps lead, they do with a log. -/
theorem exists_started {v w : Stream α γ} (h : Leads run v w)
    (hv : v = t.together work) :
    ∃ as t', Started (runApart run work) none t as t' ∧
      w = t'.together work := by
  induction h generalizing t with
  | refl v => exact ⟨[], t, .refl t, hv⟩
  | yield hs _ ih =>
      rw [hv] at hs
      obtain ⟨m, hm, hmm⟩ := exists_move_of_together hs
      cases m <;> cases hmm
      obtain ⟨as, t', hstart, rfl⟩ := ih rfl
      obtain ⟨bs, hbs⟩ := hstart.exists_step hm rfl
      exact ⟨bs, t', hbs, rfl⟩
  | pending hs _ ih =>
      rw [hv] at hs
      obtain ⟨m, hm, hmm⟩ := exists_move_of_together hs
      cases m <;> cases hmm
      obtain ⟨as, t', hstart, rfl⟩ := ih rfl
      obtain ⟨bs, hbs⟩ := hstart.exists_step hm rfl
      exact ⟨bs, t', hbs, rfl⟩
  | working hs _ ih =>
      rw [hv] at hs
      obtain ⟨m, hm, hmm⟩ := exists_move_of_together hs
      cases m <;> cases hmm
      obtain ⟨as, t', hstart, rfl⟩ := ih rfl
      obtain ⟨bs, hbs⟩ := hstart.exists_step hm rfl
      exact ⟨bs, t', hbs, rfl⟩

/-- However far a bind is pulled, there is such a log. -/
theorem exists_applied {t : Stream α γ} (h : Leads run (s.bind work) t) :
    ∃ as, Applied run work s as t := by
  obtain ⟨as, u, hu, rfl⟩ := exists_started h (together_apart work s).symm
  exact ⟨as, u, hu, rfl⟩

end LogicSearch.Stream
