import LogicSearch.Stream.Answer
import LogicSearch.Stream.Turn

/-! # Turn after turn

    All turns of a stream are its first one and those of what is left after
    the pause.  So a relation between streams and turns that passes from a
    stream to what is left (`IsSchedule`) gives streams their turns, however
    many there are (`IsSchedule.hasTurns`): this is how the turns of an
    endless stream are found.  A stream has its turns and no other
    (`HasTurns.unique`), a first one among them and none after the last
    (`HasTurns.proper`). -/

namespace LogicSearch.Stream

variable {α γ ε : Type}

/-- The turns `T` with a turn before them. -/
def Turns.cons (as : List α) (T : Turns α) : Turns α
  | 0 => some as
  | i + 1 => T i

/-- There is a first turn, and none comes after the last. -/
structure Turns.Proper (T : Turns α) : Prop where
  first : ∃ as, T 0 = some as
  ends : ∀ i, T i = none → T (i + 1) = none

/-- What is left after a turn has the turns that `R` says; after the last
    turn there are none. -/
def Rest (R : Stream α γ → Turns α → Prop) :
    Option (Stream α γ) → Turns α → Prop
  | none, T => ∀ i, T i = none
  | some s, T => R s T

theorem Rest.mono {R R' : Stream α γ → Turns α → Prop}
    (hR : ∀ s T, R s T → R' s T) {next : Option (Stream α γ)} {T : Turns α}
    (h : Rest R next T) : Rest R' next T := by
  cases next with
  | none => exact h
  | some s => exact hR s T h

/-- Streams that `R` gives turns take the first of them, and `R` gives what is
    left the others. -/
def IsSchedule (run : γ → α → Except ε (Stream α γ))
    (R : Stream α γ → Turns α → Prop) : Prop :=
  ∀ s T, R s T →
    ∃ as next, T 0 = some as ∧ Turn run s as next ∧ Rest R next T.tail

variable {run : γ → α → Except ε (Stream α γ)} {s : Stream α γ}
  {T T' : Turns α}

/-! ## One turn -/

theorem Turn.of_yield {a : α} {as : List α} {rest : Stream α γ}
    {next : Option (Stream α γ)} (h : Turn run s as next)
    (hs : s.advance run = .ok (.yield a rest)) :
    ∃ bs, as = a :: bs ∧ Turn run rest bs next := by
  cases h with
  | yield h' hrest =>
      cases hs.symm.trans h'
      exact ⟨_, rfl, hrest⟩
  | done h' => cases hs.symm.trans h'
  | pending h' => cases hs.symm.trans h'
  | working h' _ => cases hs.symm.trans h'

theorem Turn.of_pending {as : List α} {rest : Stream α γ}
    {next : Option (Stream α γ)} (h : Turn run s as next)
    (hs : s.advance run = .ok (.pending rest)) :
    as = [] ∧ next = some rest :=
  h.unique (.pending hs)

theorem Turn.of_working {as : List α} {rest : Stream α γ}
    {next : Option (Stream α γ)} (h : Turn run s as next)
    (hs : s.advance run = .ok (.working rest)) : Turn run rest as next := by
  cases h with
  | working h' hrest =>
      cases hs.symm.trans h'
      exact hrest
  | done h' => cases hs.symm.trans h'
  | pending h' => cases hs.symm.trans h'
  | yield h' _ => cases hs.symm.trans h'

/-! ## Schedules -/

/-- Having turns is a schedule. -/
theorem hasTurns_isSchedule : IsSchedule run (HasTurns run) := by
  rintro s T ⟨S, hS, hturns⟩
  have hfirst := hturns 0
  rw [hS] at hfirst
  obtain ⟨as, has, hturn⟩ := hfirst
  refine ⟨as, S 1, has, hturn, ?_⟩
  cases hnext : S 1 with
  | none =>
      have hnone : ∀ i, S (i + 1) = none := by
        intro i
        induction i with
        | zero => exact hnext
        | succ i ih =>
            have hi := hturns (i + 1)
            rw [ih] at hi
            exact hi.2
      intro i
      have hi := hturns (i + 1)
      rw [hnone i] at hi
      exact hi.1
  | some u => exact ⟨fun i => S (i + 1), hnext, fun i => hturns (i + 1)⟩

open Classical in
/-- What is left of a stream after its next turn. -/
noncomputable def afterTurn (run : γ → α → Except ε (Stream α γ))
    (s : Stream α γ) : Option (Stream α γ) :=
  if h : ∃ next as, Turn run s as next then h.choose else none

theorem Turn.afterTurn_eq {as : List α} {next : Option (Stream α γ)}
    (h : Turn run s as next) : afterTurn run s = next := by
  have hex : ∃ next as, Turn run s as next := ⟨next, as, h⟩
  obtain ⟨as', h'⟩ := hex.choose_spec
  rw [afterTurn, dif_pos hex]
  exact (h'.unique h).2

/-- Steps lead through a turn to what is left. -/
theorem Turn.leads {as : List α} {rest : Stream α γ}
    (h : Turn run s as (some rest)) : Leads run s rest := by
  generalize hnext : some rest = next at h
  induction h with
  | done _ => cases hnext
  | pending h =>
      cases hnext
      exact .pending h (.refl _)
  | yield h _ ih => exact .yield h (ih hnext)
  | working h _ ih => exact .working h (ih hnext)

/-- What is left of a stream after `i` turns. -/
noncomputable def afterTurns (run : γ → α → Except ε (Stream α γ))
    (s : Stream α γ) : Nat → Option (Stream α γ)
  | 0 => some s
  | i + 1 => (afterTurns run s i).bind (afterTurn run)

/-- **A SCHEDULE GIVES STREAMS THEIR TURNS.** -/
theorem IsSchedule.hasTurns {R : Stream α γ → Turns α → Prop}
    (hR : IsSchedule run R) (h : R s T) : HasTurns run s T := by
  have hrest : ∀ i, Rest R (afterTurns run s i) fun j => T (i + j) := by
    intro i
    induction i with
    | zero =>
        simp only [Nat.zero_add]
        exact h
    | succ i ih =>
        have htail : Turns.tail (fun j => T (i + j))
            = fun j => T (i + 1 + j) :=
          funext fun j => congrArg T (Nat.add_right_comm i j 1)
        rw [afterTurns, ← htail]
        cases hi : afterTurns run s i with
        | none =>
            rw [hi] at ih
            exact fun j => ih (j + 1)
        | some u =>
            rw [hi] at ih
            obtain ⟨as, next, -, hturn, hnext⟩ := hR u _ ih
            rw [Option.bind_some, hturn.afterTurn_eq]
            exact hnext
  refine ⟨afterTurns run s, rfl, ?_⟩
  intro i
  have hi := hrest i
  cases hs : afterTurns run s i with
  | none =>
      rw [hs] at hi
      exact ⟨hi 0, by rw [afterTurns, hs, Option.bind_none]⟩
  | some u =>
      rw [hs] at hi
      obtain ⟨as, next, has, hturn, -⟩ := hR u _ hi
      refine ⟨as, has, ?_⟩
      rw [afterTurns, hs, Option.bind_some, hturn.afterTurn_eq]
      exact hturn

/-- The first turn and the turns of what is left are all turns. -/
theorem hasTurns_of_first {as : List α} {next : Option (Stream α γ)}
    (has : T 0 = some as) (hturn : Turn run s as next)
    (hrest : Rest (HasTurns run) next T.tail) : HasTurns run s T := by
  have hschedule : IsSchedule run fun u U =>
      (u = s ∧ U = T) ∨ HasTurns run u U := by
    rintro u U (⟨rfl, rfl⟩ | hu)
    · exact ⟨as, next, has, hturn, hrest.mono fun _ _ => .inr⟩
    · obtain ⟨bs, next', hbs, hturn', hrest'⟩ := hasTurns_isSchedule u U hu
      exact ⟨bs, next', hbs, hturn', hrest'.mono fun _ _ => .inr⟩
  exact hschedule.hasTurns (.inl ⟨rfl, rfl⟩)

/-! ### The turns that a step leaves -/

theorem HasTurns.of_yield {a : α} {rest : Stream α γ}
    (h : HasTurns run s T) (hs : s.advance run = .ok (.yield a rest)) :
    ∃ as, T 0 = some (a :: as) ∧ HasTurns run rest (.cons as T.tail) := by
  obtain ⟨bs, next, hbs, hturn, hrest⟩ := hasTurns_isSchedule s T h
  obtain ⟨as, rfl, htail⟩ := hturn.of_yield hs
  exact ⟨as, hbs, hasTurns_of_first rfl htail hrest⟩

theorem HasTurns.of_pending {rest : Stream α γ} (h : HasTurns run s T)
    (hs : s.advance run = .ok (.pending rest)) :
    T 0 = some [] ∧ HasTurns run rest T.tail := by
  obtain ⟨as, next, has, hturn, hrest⟩ := hasTurns_isSchedule s T h
  obtain ⟨rfl, rfl⟩ := hturn.of_pending hs
  exact ⟨has, hrest⟩

theorem HasTurns.of_working {rest : Stream α γ} (h : HasTurns run s T)
    (hs : s.advance run = .ok (.working rest)) : HasTurns run rest T := by
  obtain ⟨as, next, has, hturn, hrest⟩ := hasTurns_isSchedule s T h
  exact hasTurns_of_first has (hturn.of_working hs) hrest

open Classical in
/-- The answers of the next turn of a stream. -/
noncomputable def turnOf (run : γ → α → Except ε (Stream α γ))
    (s : Stream α γ) : List α :=
  if h : ∃ as next, Turn run s as next then h.choose else []

/-- A stream has turns if its next turn ends, and that of all that is left
    later. -/
theorem exists_hasTurns
    (h : ∀ t, Leads run s t → ∃ as next, Turn run t as next) :
    ∃ T, HasTurns run s T := by
  have hleads : ∀ i u, afterTurns run s i = some u → Leads run s u := by
    intro i
    induction i with
    | zero =>
        intro u hu
        cases hu
        exact .refl s
    | succ i ih =>
        intro u hu
        obtain ⟨t, ht, hu⟩ := Option.bind_eq_some_iff.mp hu
        obtain ⟨as, next, hturn⟩ := h t (ih t ht)
        rw [hturn.afterTurn_eq] at hu
        subst hu
        exact (ih t ht).trans hturn.leads
  refine ⟨fun i => (afterTurns run s i).map (turnOf run), afterTurns run s,
    rfl, ?_⟩
  intro i
  cases hs : afterTurns run s i with
  | none =>
      refine ⟨?_, by rw [afterTurns, hs, Option.bind_none]⟩
      show (afterTurns run s i).map (turnOf run) = none
      rw [hs, Option.map_none]
  | some u =>
      have hex := h u (hleads i u hs)
      obtain ⟨next, hturn⟩ := hex.choose_spec
      refine ⟨turnOf run u, ?_, ?_⟩
      · show (afterTurns run s i).map (turnOf run) = some (turnOf run u)
        rw [hs, Option.map_some]
      · rw [turnOf, dif_pos hex, afterTurns, hs, Option.bind_some,
          hturn.afterTurn_eq]
        exact hturn

/-! ## The turns of a stream -/

/-- **A STREAM HAS ITS TURNS AND NO OTHER.** -/
theorem HasTurns.unique (h : HasTurns run s T) (h' : HasTurns run s T') :
    T = T' := by
  funext i
  induction i generalizing s T T' with
  | zero =>
      obtain ⟨as, next, has, hturn, -⟩ := hasTurns_isSchedule s T h
      obtain ⟨bs, next', hbs, hturn', -⟩ := hasTurns_isSchedule s T' h'
      rw [has, hbs, (hturn.unique hturn').1]
  | succ i ih =>
      obtain ⟨as, next, -, hturn, hrest⟩ := hasTurns_isSchedule s T h
      obtain ⟨bs, next', -, hturn', hrest'⟩ := hasTurns_isSchedule s T' h'
      obtain ⟨-, rfl⟩ := hturn.unique hturn'
      cases next with
      | none => exact (hrest i).trans (hrest' i).symm
      | some u => exact ih hrest hrest'

theorem HasTurns.proper (h : HasTurns run s T) : T.Proper := by
  obtain ⟨as, -, has, -, -⟩ := hasTurns_isSchedule s T h
  refine ⟨⟨as, has⟩, ?_⟩
  obtain ⟨S, -, hturns⟩ := h
  intro i hi
  have hstep := hturns i
  cases hS : S i with
  | none =>
      rw [hS] at hstep
      have hlast := hturns (i + 1)
      rw [hstep.2] at hlast
      exact hlast.1
  | some u =>
      rw [hS] at hstep
      obtain ⟨as, has, -⟩ := hstep
      cases hi.symm.trans has

end LogicSearch.Stream
