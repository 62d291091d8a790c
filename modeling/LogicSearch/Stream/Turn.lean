import LogicSearch.Stream.Basic

/-! # The turns of a stream

    A turn is what a stream yields between two pauses.  `Turn` relates a
    stream to the answers of its next turn and to what is left after the
    pause, if there is one; the relation is functional (`Turn.unique`).
    `HasTurns` gives all turns of a stream, and `Turns.alternate` is the
    order in which two streams take theirs. -/

namespace LogicSearch.Stream

variable {α γ ε : Type}

section Run

variable (run : γ → α → Except ε (Stream α γ))

/-- The next turn of a stream, and the stream after the pause; `none` if the
    turn is the last. -/
inductive Turn : Stream α γ → List α → Option (Stream α γ) → Prop where
  | done {s : Stream α γ} : s.advance run = .ok .done → Turn s [] none
  | pending {s rest : Stream α γ} : s.advance run = .ok (.pending rest) →
      Turn s [] (some rest)
  | yield {s rest : Stream α γ} {a : α} {as : List α}
      {next : Option (Stream α γ)} : s.advance run = .ok (.yield a rest) →
      Turn rest as next → Turn s (a :: as) next
  | working {s rest : Stream α γ} {as : List α}
      {next : Option (Stream α γ)} : s.advance run = .ok (.working rest) →
      Turn rest as next → Turn s as next

end Run

/-- A stream has one next turn. -/
theorem Turn.unique {run : γ → α → Except ε (Stream α γ)}
    {s : Stream α γ} {as bs : List α}
    {next next' : Option (Stream α γ)} (h : Turn run s as next)
    (h' : Turn run s bs next') : as = bs ∧ next = next' := by
  induction h generalizing bs next' with
  | done hs => cases h' <;> simp_all
  | pending hs => cases h' <;> simp_all
  | yield hs _ ih =>
      cases h' with
      | yield hs' ht' =>
          rw [hs] at hs'
          cases hs'
          obtain ⟨rfl, rfl⟩ := ih ht'
          exact ⟨rfl, rfl⟩
      | done hs' => rw [hs] at hs'; exact nomatch hs'
      | pending hs' => rw [hs] at hs'; exact nomatch hs'
      | working hs' _ => rw [hs] at hs'; exact nomatch hs'
  | working hs _ ih =>
      cases h' with
      | working hs' ht' =>
          rw [hs] at hs'
          cases hs'
          exact ih ht'
      | done hs' => rw [hs] at hs'; exact nomatch hs'
      | pending hs' => rw [hs] at hs'; exact nomatch hs'
      | yield hs' _ => rw [hs] at hs'; exact nomatch hs'

/-! ## The turns of two streams that take turns -/

/-- All turns of a stream, by number; `none` after the last. -/
abbrev Turns (α : Type) := Nat → Option (List α)

/-- The turns of a stream are the lists of `T`. -/
def HasTurns (run : γ → α → Except ε (Stream α γ)) (s : Stream α γ)
    (T : Turns α) : Prop :=
  ∃ S : Nat → Option (Stream α γ), S 0 = some s ∧ ∀ i,
    match S i with
    | none => T i = none ∧ S (i + 1) = none
    | some u => ∃ as, T i = some as ∧ Turn run u as (S (i + 1))

namespace Turns

/-- The turns after the first. -/
def tail (T : Turns α) : Turns α := fun i => T (i + 1)

/-- The first turn. -/
def head (T : Turns α) : List α := (T 0).getD []

/-- The first turn is the last. -/
def isLast (T : Turns α) : Bool := (T 1).isNone

/-- The turns of `S` and `T` alternate, `S` first.  Where the one whose turn
    it is ends, the next turn of the other is joined to its last, and the
    other goes on alone. -/
def alternate (S T : Turns α) : Turns α
  | 0 => if S.isLast then some (S.head ++ T.head) else some S.head
  | n + 1 => if S.isLast then T (n + 1) else alternate T S.tail n

end Turns

end LogicSearch.Stream
