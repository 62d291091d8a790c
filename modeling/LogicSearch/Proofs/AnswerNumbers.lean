import LogicSearch.Proofs.Shuffle
import LogicSearch.Proofs.Answers

/-! # Pulls and slots

    A pull of a stream answers what stands in one slot of its turns, and each
    slot is answered by one pull: the answers of the turns before it and the
    places in its own turn give its number (`Turns.number`).  So the pulls
    that answer `a` are as many as the slots that hold it
    (`HasTurns.nth_equiv_slots`). -/

namespace LogicSearch

/-- What a relation pairs off, one for one, is equally many. -/
theorem exists_equiv_of_rel {X Y : Type} {R : X → Y → Prop}
    (total : ∀ x, ∃ y, R x y) (onto : ∀ y, ∃ x, R x y)
    (unique : ∀ x x' y y', R x y → R x' y' → (x = x' ↔ y = y')) :
    Nonempty (X ≃ Y) := by
  choose f hf using total
  refine ⟨Equiv.ofBijective f ⟨fun x x' h => ?_, fun y => ?_⟩⟩
  · exact (unique x x' _ _ (hf x) (hf x')).mpr h
  · obtain ⟨x, hx⟩ := onto y
    exact ⟨x, (unique x x _ _ (hf x) hx).mp rfl⟩

namespace Stream

variable {α γ ε : Type} {run : γ → α → Except ε (Stream α γ)}
  {s : Stream α γ} {S : Turns α} {a b : α}

/-! ## The numbers of slots -/

namespace Turns

/-- The number of the pull that answers what is in place `j` of turn `i`. -/
def number (S : Turns α) : Nat → Nat → Nat
  | 0, j => j
  | i + 1, j => S.head.length + S.tail.number i j

theorem answer?_zero {as : List α} (h : S 0 = some as) (j : Nat) :
    S.answer? ⟨0, j⟩ = as[j]? := by
  rw [answer?, h, Option.bind_some]

theorem answer?_succ (S : Turns α) (i j : Nat) :
    S.answer? ⟨i + 1, j⟩ = S.tail.answer? ⟨i, j⟩ := rfl

/-- Places in the first turn have the first numbers. -/
theorem lt_length_head {j : Nat} (h : S.answer? ⟨0, j⟩ = some a) :
    j < S.head.length := by
  cases hS : S 0 with
  | none => rw [answer?, hS] at h; cases h
  | some as =>
      rw [answer?_zero hS] at h
      rw [head_eq hS]
      exact (List.getElem?_eq_some_iff.mp h).1

/-- Answers in different slots have different numbers. -/
theorem number_inj {p q : Slot} (hp : S.answer? p = some a)
    (hq : S.answer? q = some b)
    (h : S.number p.turn p.index = S.number q.turn q.index) : p = q := by
  obtain ⟨i, j⟩ := p
  obtain ⟨k, l⟩ := q
  dsimp only at h
  induction i generalizing S k with
  | zero =>
      cases k with
      | zero => rw [number, number] at h; rw [h]
      | succ k =>
          have := lt_length_head hp
          rw [number, number] at h
          omega
  | succ i ih =>
      cases k with
      | zero =>
          have := lt_length_head hq
          rw [number, number] at h
          omega
      | succ k =>
          rw [number, number, Nat.add_left_cancel_iff] at h
          obtain ⟨rfl, rfl⟩ := Slot.mk.inj (ih (S := S.tail) hp k hq h)
          rfl

end Turns

/-! ## The numbers of pulls -/

/-- A pull answers what is in the next turn. -/
theorem Turn.nth {as : List α} {next : Option (Stream α γ)}
    (h : Turn run s as next) {j : Nat} (ha : as[j]? = some a) :
    Nth run s j a := by
  induction h generalizing j with
  | done _ => cases ha
  | pending _ => cases ha
  | yield hs _ ih =>
      cases j with
      | zero => cases ha; exact .here hs
      | succ j => exact .later hs (ih ha)
  | working hs _ ih => exact .working hs (ih ha)

/-- Or, after that, what is left. -/
theorem Turn.nth_add {as : List α} {rest : Stream α γ}
    (h : Turn run s as (some rest)) {k : Nat} (hk : Nth run rest k a) :
    Nth run s (as.length + k) a := by
  generalize hnext : some rest = next at h
  induction h with
  | done _ => cases hnext
  | pending hs =>
      cases hnext
      rw [List.length_nil, Nat.zero_add]
      exact .pending hs hk
  | yield hs _ ih =>
      rw [List.length_cons, Nat.add_right_comm]
      exact .later hs (ih hnext)
  | working hs _ ih => exact .working hs (ih hnext)

/-- **WHAT IS IN A SLOT IS PULLED.** -/
theorem HasTurns.nth_number (hs : HasTurns run s S) {p : Slot}
    (hp : S.answer? p = some a) :
    Nth run s (S.number p.turn p.index) a := by
  obtain ⟨i, j⟩ := p
  induction i generalizing s S with
  | zero =>
      obtain ⟨as, next, has, hturn, -⟩ := hasTurns_isSchedule s S hs
      rw [Turns.answer?_zero has] at hp
      exact hturn.nth hp
  | succ i ih =>
      obtain ⟨as, next, has, hturn, hrest⟩ := hasTurns_isSchedule s S hs
      rw [Turns.answer?_succ] at hp
      cases next with
      | none =>
          rw [Turns.answer?, hrest i] at hp
          cases hp
      | some rest =>
          rw [Turns.number, Turns.head_eq has]
          exact hturn.nth_add (ih hrest hp)

/-- **WHAT IS PULLED IS IN A SLOT.** -/
theorem HasTurns.exists_slot {k : Nat} (hs : HasTurns run s S)
    (h : Nth run s k a) :
    ∃ p : Slot, S.answer? p = some a ∧ S.number p.turn p.index = k := by
  induction h generalizing S with
  | here h =>
      obtain ⟨as, has, -⟩ := hs.of_yield h
      exact ⟨⟨0, 0⟩, Turns.answer?_zero has 0, rfl⟩
  | later h _ ih =>
      obtain ⟨as, has, hrest⟩ := hs.of_yield h
      obtain ⟨⟨i, j⟩, hp, rfl⟩ := ih hrest
      cases i with
      | zero =>
          refine ⟨⟨0, j + 1⟩, ?_, rfl⟩
          rw [Turns.answer?_zero has]
          exact hp
      | succ i =>
          refine ⟨⟨i + 1, j⟩, hp, ?_⟩
          rw [Turns.number, Turns.number, Turns.head_eq has,
            List.length_cons, Nat.add_right_comm]
          rfl
  | pending h _ ih =>
      obtain ⟨has, hrest⟩ := hs.of_pending h
      obtain ⟨p, hp, rfl⟩ := ih hrest
      refine ⟨p.next, hp, ?_⟩
      rw [Slot.next, Turns.number, Turns.head_eq has, List.length_nil,
        Nat.zero_add]
  | working h _ ih => exact ih (hs.of_working h)

/-- **AS MANY PULLS AS SLOTS.** -/
theorem HasTurns.nth_equiv_slots (hs : HasTurns run s S) (a : α) :
    Nonempty ({k // Nth run s k a} ≃ {p // S.answer? p = some a}) := by
  refine exists_equiv_of_rel (R := fun k p =>
    S.number p.1.turn p.1.index = k.1) ?_ ?_ ?_
  · rintro ⟨k, hk⟩
    obtain ⟨p, hp, hnumber⟩ := hs.exists_slot hk
    exact ⟨⟨p, hp⟩, hnumber⟩
  · rintro ⟨p, hp⟩
    exact ⟨⟨_, hs.nth_number hp⟩, rfl⟩
  · rintro ⟨k, hk⟩ ⟨k', hk'⟩ ⟨p, hp⟩ ⟨p', hp'⟩ h h'
    dsimp only at h h'
    subst h h'
    rw [Subtype.mk.injEq, Subtype.mk.injEq]
    exact ⟨Turns.number_inj hp hp', fun h => by rw [h]⟩

end Stream

end LogicSearch
