import LogicSearch.Stream.Basic

/-! # Streams that need no search

    Finished cells and sequences hold their answers at places that can be
    counted.  `listed?` reads finished cells back as a list. -/

namespace LogicSearch.Stream

variable {α γ : Type}

/-- Finished cells and sequences. -/
inductive IsListed : Stream α γ → Prop where
  | empty : IsListed empty
  | cons {a : α} {rest : Stream α γ} : IsListed rest → IsListed (cons a rest)
  | source (items : Nat → Option α) (next : Nat) :
      IsListed (source items next)

/-- The places at which a listed stream has the answer `a`. -/
inductive Place : Stream α γ → α → Type where
  | here {a : α} {rest : Stream α γ} : Place (cons a rest) a
  | there {a b : α} {rest : Stream α γ} : Place rest a →
      Place (cons b rest) a
  | now {items : Nat → Option α} {next : Nat} {a : α} :
      items next = some a → Place (source items next) a
  | later {items : Nat → Option α} {next : Nat} {a b : α} :
      items next = some b → Place (source items (next + 1)) a →
      Place (source items next) a

/-- The answers of finished cells; `none` for every other stream. -/
def listed? : Stream α γ → Option (List α)
  | empty => some []
  | cons a rest => (listed? rest).map (a :: ·)
  | _ => none

@[simp] theorem listed?_cells (as : List α) :
    listed? (cells as : Stream α γ) = some as := by
  induction as with
  | nil => rfl
  | cons a as ih => rw [cells, listed?, ih]; rfl

end LogicSearch.Stream
