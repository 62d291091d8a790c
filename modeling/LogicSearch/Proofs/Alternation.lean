import LogicSearch.Proofs.Rules
import LogicSearch.Proofs.Shuffle

/-! # Two streams take turns

    A merged stream hands over to its other side where a turn of the one ends
    with a pause, and goes on with the other side within the same turn where
    the one comes to its end.  So its turns are those of the two streams in
    alternation (`HasTurns.merge`), for streams without end, too: each turn
    leaves two streams that go on in the same way (`Alternates`).

    Dropping an empty operand shortens no turn and joins none
    (`Merging.turn_pending`, `Merging.turn_last`), so a pair of which nothing
    is dropped has the same turns (`HasTurns.interleave`). -/

namespace LogicSearch.Stream

variable {α γ ε : Type} {run : γ → α → Except ε (Stream α γ)}
  {s s' t u : Stream α γ} {as bs : List α} {next : Option (Stream α γ)}
  {S T U : Turns α}

/-! ## The first turn -/

theorem Turn.of_empty (h : Turn run (empty : Stream α γ) as next) :
    as = [] ∧ next = none :=
  h.unique (.done rfl)

/-- Before a pause of `s`, dropping an empty operand changes nothing. -/
theorem Merging.turn_pending (m : Merging s t u)
    (hs : Turn run s as (some s'))
    (hst : Turn run (interleave s t) as (some (t.merge s'))) :
    Turn run u as (some (t.merge s')) := by
  cases m with
  | left => cases hs.of_empty.2
  | right _ => exact hs
  | both _ _ => exact hst

/-- Nor does it where `s` ends. -/
theorem Merging.turn_last (m : Merging s t u) (hs : Turn run s as none)
    (ht : Turn run t bs next)
    (hst : Turn run (interleave s t) (as ++ bs) next) :
    Turn run u (as ++ bs) next := by
  cases m with
  | left =>
      rw [hs.of_empty.1]
      exact ht
  | right _ =>
      obtain ⟨rfl, rfl⟩ := ht.of_empty
      rw [List.append_nil]
      exact hs
  | both _ _ => exact hst

/-- Up to a pause of `s` it is the turn of `s` alone; then the operands
    swap. -/
theorem Turn.interleave_pending (hs : Turn run s as (some s')) :
    Turn run (interleave s t) as (some (t.merge s')) := by
  generalize hnext : some s' = next at hs
  induction hs with
  | done _ => cases hnext
  | pending h =>
      cases hnext
      exact .pending (by rw [advance, h])
  | @yield s rest a as next h hrest ih =>
      subst hnext
      obtain ⟨m⟩ := exists_merging rest t
      exact .yield (by rw [advance, h]) (m.turn_pending hrest (ih rfl))
  | working h _ ih => exact .working (by rw [advance, h]) (ih hnext)

/-- Where `s` ends, the turn of `t` is joined to its last. -/
theorem Turn.interleave_last (hs : Turn run s as none)
    (ht : Turn run t bs next) :
    Turn run (interleave s t) (as ++ bs) next := by
  generalize hnone : none = last at hs
  induction hs with
  | done h => exact .working (by rw [advance, h]) ht
  | pending _ => cases hnone
  | @yield s rest a as last h hrest ih =>
      subst hnone
      obtain ⟨m⟩ := exists_merging rest t
      exact .yield (by rw [advance, h]) (m.turn_last hrest ht (ih rfl))
  | working h _ ih => exact .working (by rw [advance, h]) (ih hnone)

/-! ## All turns -/

/-- Streams that came out of two by taking turns, or that have turns of their
    own. -/
def Alternates (run : γ → α → Except ε (Stream α γ)) (u : Stream α γ)
    (U : Turns α) : Prop :=
  HasTurns run u U ∨ ∃ s t S T, HasTurns run s S ∧ HasTurns run t T ∧
    u = s.merge t ∧ U = S.alternate T

/-- The first turn of two streams that take turns, with and without dropping
    empty operands. -/
theorem exists_turn_alternate (hs : HasTurns run s S)
    (ht : HasTurns run t T) : ∃ as next, S.alternate T 0 = some as ∧
      Turn run (s.merge t) as next ∧ Turn run (interleave s t) as next ∧
      Rest (Alternates run) next (S.alternate T).tail := by
  obtain ⟨m⟩ := exists_merging s t
  obtain ⟨as, last, has, hturn, hrest⟩ := hasTurns_isSchedule s S hs
  rw [Turns.alternate_zero, Turns.tail_alternate, Turns.head_eq has]
  cases last with
  | some s' =>
      obtain ⟨cs, hcs⟩ := hrest.proper.first
      have hlast : ¬ S.isLast = true := by
        rw [Turns.isLast_iff]
        intro h
        cases hcs.symm.trans h
      rw [if_neg hlast, if_neg hlast]
      have hpair := hturn.interleave_pending (t := t)
      exact ⟨as, _, rfl, m.turn_pending hturn hpair, hpair,
        .inr ⟨t, s', T, S.tail, ht, hrest, rfl, rfl⟩⟩
  | none =>
      obtain ⟨bs, next, hbs, hturn', hrest'⟩ := hasTurns_isSchedule t T ht
      have hlast : S.isLast = true := Turns.isLast_iff.mpr (hrest 0)
      rw [if_pos hlast, if_pos hlast, Turns.head_eq hbs]
      have hpair := hturn.interleave_last hturn'
      exact ⟨as ++ bs, next, rfl, m.turn_last hturn hturn' hpair, hpair,
        hrest'.mono fun _ _ => .inl⟩

theorem alternates_isSchedule : IsSchedule run (Alternates run) := by
  rintro u U (hu | ⟨s, t, S, T, hs, ht, rfl, rfl⟩)
  · obtain ⟨as, next, has, hturn, hrest⟩ := hasTurns_isSchedule u U hu
    exact ⟨as, next, has, hturn, hrest.mono fun _ _ => .inl⟩
  · obtain ⟨as, next, has, hturn, -, hrest⟩ := exists_turn_alternate hs ht
    exact ⟨as, next, has, hturn, hrest⟩

/-- **MERGED STREAMS ALTERNATE.** -/
theorem HasTurns.merge (hs : HasTurns run s S) (ht : HasTurns run t T) :
    HasTurns run (s.merge t) (S.alternate T) :=
  alternates_isSchedule.hasTurns (.inr ⟨s, t, S, T, hs, ht, rfl, rfl⟩)

/-- So do streams of which an empty one is not dropped. -/
theorem HasTurns.interleave (hs : HasTurns run s S) (ht : HasTurns run t T) :
    HasTurns run (interleave s t) (S.alternate T) := by
  obtain ⟨as, next, has, -, hturn, hrest⟩ := exists_turn_alternate hs ht
  exact hasTurns_of_first has hturn
    (hrest.mono fun _ _ => alternates_isSchedule.hasTurns)

/-- **THE TURNS OF MERGED STREAMS.**  They are those of the two streams, in
    alternation, and no others, whether empty streams are dropped or not.
    The answers of each stream come out once each and in their order, and
    those of turn `i` in a turn up to `2 * i` if it is the first stream, and
    up to `2 * i + 1` if it is the second. -/
theorem merge_turns (hs : HasTurns run s S) (ht : HasTurns run t T) :
    (∀ U, HasTurns run (s.merge t) U ↔ U = S.alternate T) ∧
    (∀ U, HasTurns run (.interleave s t) U ↔ U = S.alternate T) ∧
    ∃ left right, Turns.Shuffle S T (S.alternate T) left right := by
  have hmerge := hs.merge ht
  have hpair := hs.interleave ht
  refine ⟨fun U => ?_, fun U => ?_, hs.proper.exists_shuffle ht.proper⟩
  · exact ⟨fun h => h.unique hmerge, fun h => h ▸ hmerge⟩
  · exact ⟨fun h => h.unique hpair, fun h => h ▸ hpair⟩

/-- An endless sequence is merged with a stream that pauses, answers once and
    ends.  The answer has to wait for two turns of the sequence, and the turn
    it is in goes on with the next one. -/
theorem merge_turns_endless :
    let run : Empty → Nat → Except Empty (Stream Nat Empty) :=
      fun work _ => work.elim
    let s : Stream Nat Empty := .source (fun _ => some 0) 0
    let t : Stream Nat Empty := .pause (.cons 1 .empty)
    let S : Turns Nat := fun _ => some [0]
    let T : Turns Nat := fun i => [[], [1]][i]?
    HasTurns run s S ∧ HasTurns run t T ∧
    (List.range 5).map (S.alternate T)
      = [some [0], some [], some [0], some [1, 0], some [0]] ∧
    (∀ U, HasTurns run (s.merge t) U ↔ U = S.alternate T) ∧
    ∃ left right, Turns.Shuffle S T (S.alternate T) left right := by
  intro run s t S T
  have hs : HasTurns run s S :=
    ⟨fun i => some (.source (fun _ => some 0) i), rfl,
      fun i => ⟨[0], rfl, .yield rfl (.pending rfl)⟩⟩
  have hrest : HasTurns run (.cons 1 .empty) T.tail :=
    hasTurns_of_first rfl (.yield rfl (.done rfl)) fun _ => rfl
  have ht : HasTurns run t T := hasTurns_of_first rfl (.pending rfl) hrest
  obtain ⟨hmerge, -, hshuffle⟩ := merge_turns hs ht
  exact ⟨hs, ht, rfl, hmerge, hshuffle⟩

end LogicSearch.Stream
