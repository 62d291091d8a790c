import LogicSearch.Proofs.Turns

/-! # Where the answers of two alternating streams come out

    Where two streams alternate, one of them may come to its end, and then
    its last turn and the next one of the other are joined.  Without that,
    turn `i` of the first stream would come out in turn `2 * i` and turn `i`
    of the second in turn `2 * i + 1`: that is the `weave` of their turns.

    `slotOf` says where the answers of the weave come out.  They come out all
    (`answer?_slotOf`) and nothing else does (`exists_slotOf`), in the same
    order (`slotOf_before`) and no later (`slotOf_turn_le`).  So alternating
    is a `Shuffle` of the two streams (`Proper.shuffle`). -/

namespace LogicSearch.Stream

variable {α : Type} {as : List α} {S T : Turns α}

/-- Where an answer stands in the turns of a stream: its turn, and its place
    there. -/
structure Slot where
  turn : Nat
  index : Nat

/-- The answer at `p` is yielded before the one at `q`. -/
def Slot.Before (p q : Slot) : Prop :=
  p.turn < q.turn ∨ p.turn = q.turn ∧ p.index < q.index

theorem Slot.before_iff {i j k l : Nat} :
    Slot.Before ⟨i, k⟩ ⟨j, l⟩ ↔ i < j ∨ i = j ∧ k < l := Iff.rfl

theorem Slot.Before.ne {p q : Slot} (h : p.Before q) : p ≠ q := by
  rintro rfl
  unfold Slot.Before at h
  omega

/-- The same place one turn later. -/
def Slot.next (p : Slot) : Slot := ⟨p.turn + 1, p.index⟩

theorem Slot.next_inj {p q : Slot} : p.next = q.next ↔ p = q := by
  obtain ⟨i, k⟩ := p
  obtain ⟨j, l⟩ := q
  rw [next, next, mk.injEq, mk.injEq, Nat.succ_inj]

theorem Slot.eq_or_before (p q : Slot) : p = q ∨ p.Before q ∨ q.Before p := by
  obtain ⟨i, k⟩ := p
  obtain ⟨j, l⟩ := q
  rw [Slot.before_iff, Slot.before_iff, Slot.mk.injEq]
  omega

namespace Turns

/-- The answer in a slot, if there is one. -/
def answer? (T : Turns α) (p : Slot) : Option α :=
  (T p.turn).bind fun as => as[p.index]?

/-- How the answers of two streams come out in the turns of a third: each in
    a slot of its own, those of one stream in their order, and an answer waits
    for no more turns of the other stream than there are up to its own. -/
structure Shuffle (S T U : Turns α) (left right : Slot → Slot) : Prop where
  left_answer : ∀ p a, S.answer? p = some a → U.answer? (left p) = some a
  right_answer : ∀ q a, T.answer? q = some a → U.answer? (right q) = some a
  /-- Nothing else comes out. -/
  origin : ∀ r a, U.answer? r = some a →
    (∃ p, S.answer? p = some a ∧ left p = r) ∨
      ∃ q, T.answer? q = some a ∧ right q = r
  /-- No slot is taken twice. -/
  apart : ∀ p q a b, S.answer? p = some a → T.answer? q = some b →
    left p ≠ right q
  left_before : ∀ p p' a b, S.answer? p = some a → S.answer? p' = some b →
    p.Before p' → (left p).Before (left p')
  right_before : ∀ q q' a b, T.answer? q = some a → T.answer? q' = some b →
    q.Before q' → (right q).Before (right q')
  left_turn_le : ∀ p, (left p).turn ≤ 2 * p.turn
  right_turn_le : ∀ q, (right q).turn ≤ 2 * q.turn + 1

/-- An order that is kept tells slots apart. -/
theorem slot_inj {f : Slot → Slot}
    (hf : ∀ p q a b, S.answer? p = some a → S.answer? q = some b →
      p.Before q → (f p).Before (f q)) {p q : Slot} {a b : α}
    (hp : S.answer? p = some a) (hq : S.answer? q = some b)
    (h : f p = f q) : p = q := by
  rcases p.eq_or_before q with heq | hbefore | hbefore
  · exact heq
  · exact absurd h (hf p q a b hp hq hbefore).ne
  · exact absurd h.symm (hf q p b a hq hp hbefore).ne

/-! ## The turns of streams that alternate -/

theorem head_eq (h : T 0 = some as) : T.head = as := by
  rw [head, h, Option.getD_some]

theorem isLast_iff : T.isLast = true ↔ T 1 = none := by
  rw [isLast, Option.isNone_iff_eq_none]

theorem alternate_zero (S T : Turns α) : S.alternate T 0
    = if S.isLast then some (S.head ++ T.head) else some S.head := rfl

theorem alternate_succ (S T : Turns α) (n : Nat) : S.alternate T (n + 1)
    = if S.isLast then T (n + 1) else T.alternate S.tail n := rfl

/-- The turns after the first are those of the other stream alone, or the
    streams alternate with their roles changed. -/
theorem tail_alternate (S T : Turns α) : (S.alternate T).tail
    = if S.isLast then T.tail else T.alternate S.tail := by
  funext n
  rw [tail, alternate_succ]
  by_cases h : S.isLast = true
  · rw [if_pos h, if_pos h]
    rfl
  · rw [if_neg h, if_neg h]

theorem Proper.none_of_last (hS : S.Proper) (h : S.isLast = true) (i : Nat) :
    S (i + 1) = none := by
  induction i with
  | zero => exact isLast_iff.mp h
  | succ i ih => exact hS.ends _ ih

theorem Proper.tail (hS : S.Proper) (h : ¬ S.isLast = true) :
    S.tail.Proper := by
  rw [isLast_iff] at h
  exact ⟨Option.ne_none_iff_exists'.mp h, fun i => hS.ends (i + 1)⟩

theorem Proper.head_eq (hS : S.Proper) : S 0 = some S.head := by
  obtain ⟨as, has⟩ := hS.first
  rw [Turns.head_eq has, has]

/-- The slot in which an answer comes out if `n` answers of the other stream
    come before the first turn. -/
def joined (n : Nat) (q : Slot) : Slot :=
  ⟨q.turn, (if q.turn = 0 then n else 0) + q.index⟩

/-- The answers of a list that is joined to another one. -/
theorem getElem?_append_iff {as bs : List α} {k : Nat} {a : α} :
    (as ++ bs)[k]? = some a ↔
      as[k]? = some a ∨ ∃ k', bs[k']? = some a ∧ k = as.length + k' := by
  constructor
  · intro h
    by_cases hk : k < as.length
    · rw [List.getElem?_append_left hk] at h
      exact .inl h
    · rw [List.getElem?_append_right (by omega)] at h
      exact .inr ⟨k - as.length, h, by omega⟩
  · rintro (h | ⟨k', h, rfl⟩)
    · rw [List.getElem?_append_left (List.getElem?_eq_some_iff.mp h).1]
      exact h
    · rw [List.getElem?_append_right (Nat.le_add_right ..),
        Nat.add_sub_cancel_left]
      exact h

/-- Where the first turn of `S` is its last one, the answers of `T` come
    after it. -/
theorem answer?_alternate_last (hS : S.Proper) (hT : T.Proper)
    (h : S.isLast = true) {r : Slot} {a : α} :
    (S.alternate T).answer? r = some a ↔
      S.answer? r = some a ∨
        ∃ q, T.answer? q = some a ∧ r = joined S.head.length q := by
  obtain ⟨i, k⟩ := r
  cases i with
  | zero =>
      have hfirst : (S.alternate T).answer? ⟨0, k⟩
          = (S.head ++ T.head)[k]? := by
        rw [answer?, alternate_zero, if_pos h, Option.bind_some]
      have hleft : S.answer? ⟨0, k⟩ = S.head[k]? := by
        rw [answer?, hS.head_eq, Option.bind_some]
      have hright : ∀ k', T.answer? ⟨0, k'⟩ = T.head[k']? := by
        intro k'
        rw [answer?, hT.head_eq, Option.bind_some]
      rw [hfirst, hleft, getElem?_append_iff]
      refine or_congr Iff.rfl ⟨?_, ?_⟩
      · rintro ⟨k', hk', rfl⟩
        exact ⟨⟨0, k'⟩, (hright k').trans hk', rfl⟩
      · rintro ⟨⟨j, k'⟩, hq, heq⟩
        obtain ⟨rfl, hk⟩ := Slot.mk.inj heq
        exact ⟨k', (hright k').symm.trans hq, hk⟩
  | succ i =>
      have hnext : (S.alternate T).answer? ⟨i + 1, k⟩
          = T.answer? ⟨i + 1, k⟩ := by
        rw [answer?, alternate_succ, if_pos h, answer?]
      have hleft : S.answer? ⟨i + 1, k⟩ = none := by
        rw [answer?, hS.none_of_last h, Option.bind_none]
      rw [hnext, hleft]
      constructor
      · intro ha
        exact .inr ⟨⟨i + 1, k⟩, ha, congrArg _ (Nat.zero_add k).symm⟩
      · rintro (ha | ⟨⟨j, k'⟩, hq, heq⟩)
        · cases ha
        · obtain ⟨rfl, hk⟩ := Slot.mk.inj heq
          rw [if_neg (Nat.succ_ne_zero i), Nat.zero_add] at hk
          rw [hk]
          exact hq

/-- Otherwise they come out where the streams alternate with their roles
    changed, one turn later. -/
theorem answer?_alternate_succ (h : ¬ S.isLast = true) (i k : Nat) :
    (S.alternate T).answer? ⟨i + 1, k⟩
      = (T.alternate S.tail).answer? ⟨i, k⟩ := by
  rw [answer?, alternate_succ, if_neg h]
  rfl

theorem answer?_alternate_zero (hS : S.Proper) (h : ¬ S.isLast = true)
    (k : Nat) : (S.alternate T).answer? ⟨0, k⟩ = S.answer? ⟨0, k⟩ := by
  rw [answer?, alternate_zero, if_neg h, answer?, hS.head_eq]

/-! ### The weave of two streams -/

/-- Turn by turn, first one of `S` and then one of `T`, even where one of
    them has ended. -/
def weave (S T : Turns α) : Turns α := fun i =>
  if i % 2 = 0 then S (i / 2) else T (i / 2)

theorem answer?_weave_left (S T : Turns α) (i k : Nat) :
    (S.weave T).answer? ⟨2 * i, k⟩ = S.answer? ⟨i, k⟩ := by
  rw [answer?, weave, if_pos (Nat.mul_mod_right 2 i),
    Nat.mul_div_cancel_left i Nat.zero_lt_two]
  rfl

theorem answer?_weave_right (S T : Turns α) (i k : Nat) :
    (S.weave T).answer? ⟨2 * i + 1, k⟩ = T.answer? ⟨i, k⟩ := by
  have hodd : (2 * i + 1) % 2 ≠ 0 := by omega
  rw [answer?, weave, if_neg hodd, Nat.mul_add_div Nat.zero_lt_two]
  rfl

/-- After the first turn the streams have changed their roles. -/
theorem answer?_weave_succ (S T : Turns α) (i k : Nat) :
    (S.weave T).answer? ⟨i + 1, k⟩ = (T.weave S.tail).answer? ⟨i, k⟩ := by
  obtain ⟨j, rfl | rfl⟩ : ∃ j, i = 2 * j ∨ i = 2 * j + 1 :=
    ⟨i / 2, by omega⟩
  · rw [answer?_weave_right, answer?_weave_left]
  · rw [answer?_weave_right]
    exact answer?_weave_left S T (j + 1) k

/-- Where `S` has one turn only, what comes after it is of `T`. -/
theorem Proper.exists_right (hS : S.Proper) (h : S.isLast = true) {i k : Nat}
    {a : α} (ha : (S.weave T).answer? ⟨i + 1, k⟩ = some a) :
    ∃ j, i = 2 * j ∧ T.answer? ⟨j, k⟩ = some a := by
  obtain ⟨j, rfl | rfl⟩ : ∃ j, i = 2 * j ∨ i = 2 * j + 1 :=
    ⟨i / 2, by omega⟩
  · rw [answer?_weave_right] at ha
    exact ⟨j, rfl, ha⟩
  · have hnone : S.answer? ⟨j + 1, k⟩ = none := by
      rw [answer?, hS.none_of_last h, Option.bind_none]
    have hleft := answer?_weave_left S T (j + 1) k
    cases (hnone.symm.trans hleft.symm).trans ha

/-- The slot in which answer `k` of turn `i` of `S.weave T` comes out when the
    streams alternate. -/
def slotOf : Turns α → Turns α → Nat → Nat → Slot
  | _, _, 0, k => ⟨0, k⟩
  | S, T, i + 1, k =>
      -- from here on `T` is alone, or the streams change their roles
      if S.isLast then joined S.head.length ⟨i / 2, k⟩
      else
        let q := slotOf T S.tail i k
        ⟨q.turn + 1, q.index⟩

theorem slotOf_last (h : S.isLast = true) (j k : Nat) :
    S.slotOf T (2 * j + 1) k = joined S.head.length ⟨j, k⟩ := by
  rw [slotOf, if_pos h, Nat.mul_div_cancel_left j Nat.zero_lt_two]

theorem slotOf_succ (h : ¬ S.isLast = true) (i k : Nat) :
    S.slotOf T (i + 1) k
      = ⟨(T.slotOf S.tail i k).turn + 1, (T.slotOf S.tail i k).index⟩ := by
  rw [slotOf, if_neg h]

/-- **WHAT IS WOVEN COMES OUT**, -/
theorem answer?_slotOf (hS : S.Proper) (hT : T.Proper) {i k : Nat} {a : α}
    (ha : (S.weave T).answer? ⟨i, k⟩ = some a) :
    (S.alternate T).answer? (S.slotOf T i k) = some a := by
  induction i generalizing S T with
  | zero =>
      have ha' : S.answer? ⟨0, k⟩ = some a :=
        (answer?_weave_left S T 0 k).symm.trans ha
      by_cases h : S.isLast = true
      · exact (answer?_alternate_last hS hT h).mpr (.inl ha')
      · exact (answer?_alternate_zero hS h k).trans ha'
  | succ i ih =>
      by_cases h : S.isLast = true
      · obtain ⟨j, rfl, hj⟩ := hS.exists_right h ha
        rw [slotOf_last h]
        exact (answer?_alternate_last hS hT h).mpr (.inr ⟨_, hj, rfl⟩)
      · rw [answer?_weave_succ] at ha
        rw [slotOf_succ h, answer?_alternate_succ h]
        exact ih hT (hS.tail h) ha

/-- nothing else does, -/
theorem exists_slotOf (hS : S.Proper) (hT : T.Proper) {i k : Nat} {a : α}
    (ha : (S.alternate T).answer? ⟨i, k⟩ = some a) :
    ∃ j l, (S.weave T).answer? ⟨j, l⟩ = some a ∧ S.slotOf T j l = ⟨i, k⟩ := by
  induction i generalizing S T with
  | zero =>
      by_cases h : S.isLast = true
      · rcases (answer?_alternate_last hS hT h).mp ha with ha | ⟨q, hq, heq⟩
        · exact ⟨0, k, (answer?_weave_left S T 0 k).trans ha, rfl⟩
        · refine ⟨2 * q.turn + 1, q.index, ?_, ?_⟩
          · exact (answer?_weave_right S T _ _).trans hq
          · rw [slotOf_last h, heq]
      · rw [answer?_alternate_zero hS h] at ha
        exact ⟨0, k, (answer?_weave_left S T 0 k).trans ha, rfl⟩
  | succ i ih =>
      by_cases h : S.isLast = true
      · rcases (answer?_alternate_last hS hT h).mp ha with ha | ⟨q, hq, heq⟩
        · rw [answer?, hS.none_of_last h] at ha
          cases ha
        · refine ⟨2 * q.turn + 1, q.index, ?_, ?_⟩
          · exact (answer?_weave_right S T _ _).trans hq
          · rw [slotOf_last h, heq]
      · rw [answer?_alternate_succ h] at ha
        obtain ⟨j, l, hj, heq⟩ := ih hT (hS.tail h) ha
        refine ⟨j + 1, l, (answer?_weave_succ S T j l).trans hj, ?_⟩
        rw [slotOf_succ h, heq]

theorem joined_before {n : Nat} {p q : Slot} (h : p.Before q) :
    (joined n p).Before (joined n q) := by
  rcases h with h | ⟨h, hk⟩
  · exact .inl h
  · refine .inr ⟨h, ?_⟩
    rw [joined, joined, h]
    exact Nat.add_lt_add_left hk _

/-- all in the same order, -/
theorem slotOf_before (hS : S.Proper) (hT : T.Proper) {i j k l : Nat}
    {a b : α} (ha : (S.weave T).answer? ⟨i, k⟩ = some a)
    (hb : (S.weave T).answer? ⟨j, l⟩ = some b)
    (h : Slot.Before ⟨i, k⟩ ⟨j, l⟩) :
    (S.slotOf T i k).Before (S.slotOf T j l) := by
  induction j generalizing S T i with
  | zero =>
      rcases h with h | ⟨h, hk⟩
      · exact absurd h (Nat.not_lt_zero i)
      · cases h
        exact .inr ⟨rfl, hk⟩
  | succ j ih =>
      rw [Slot.before_iff] at h
      by_cases hlast : S.isLast = true
      · obtain ⟨j, rfl, -⟩ := hS.exists_right hlast hb
        rw [slotOf_last hlast]
        cases i with
        | zero =>
            -- the first turn of `S` against what is joined to it or follows
            rw [answer?_weave_left S T 0 k, answer?, hS.head_eq] at ha
            have hk : k < S.head.length := (List.getElem?_eq_some_iff.mp ha).1
            cases j with
            | zero => exact .inr ⟨rfl, Nat.lt_add_right l hk⟩
            | succ j => exact .inl (Nat.succ_pos j)
        | succ i =>
            obtain ⟨i, rfl, -⟩ := hS.exists_right hlast ha
            rw [slotOf_last hlast]
            refine joined_before (Slot.before_iff.mpr ?_)
            omega
      · rw [slotOf_succ hlast]
        cases i with
        | zero => exact .inl (Nat.succ_pos _)
        | succ i =>
            rw [answer?_weave_succ] at ha hb
            have hbefore : Slot.Before ⟨i, k⟩ ⟨j, l⟩ := by
              rw [Slot.before_iff]
              omega
            rw [slotOf_succ hlast]
            rcases ih hT (hS.tail hlast) ha hb hbefore with h | ⟨h, hk⟩
            · exact .inl (Nat.succ_lt_succ h)
            · exact .inr ⟨congrArg Nat.succ h, hk⟩

/-- and no later. -/
theorem slotOf_turn_le (S T : Turns α) (i k : Nat) :
    (S.slotOf T i k).turn ≤ i := by
  induction i generalizing S T with
  | zero => exact Nat.le_refl 0
  | succ i ih =>
      by_cases h : S.isLast = true
      · rw [slotOf, if_pos h]
        exact Nat.le_succ_of_le (Nat.div_le_self i 2)
      · rw [slotOf_succ h]
        exact Nat.succ_le_succ (ih T S.tail)

/-- An answer overtakes no more than what is woven before it. -/
theorem le_slotOf_turn (S T : Turns α) (i k : Nat) :
    i ≤ 2 * (S.slotOf T i k).turn + 2 := by
  induction i generalizing S T with
  | zero => exact Nat.zero_le _
  | succ i ih =>
      by_cases h : S.isLast = true
      · rw [slotOf, if_pos h]
        show i + 1 ≤ 2 * (i / 2) + 2
        omega
      · rw [slotOf_succ h]
        have := ih T S.tail
        show i + 1 ≤ 2 * ((T.slotOf S.tail i k).turn + 1) + 2
        omega

/-- Where an answer of the first stream comes out. -/
def leftSlot (S T : Turns α) (p : Slot) : Slot :=
  S.slotOf T (2 * p.turn) p.index

/-- Where an answer of the second stream comes out. -/
def rightSlot (S T : Turns α) (q : Slot) : Slot :=
  S.slotOf T (2 * q.turn + 1) q.index

/-- It comes out in no earlier turn than its own. -/
theorem turn_le_rightSlot (S T : Turns α) (q : Slot) :
    q.turn ≤ (S.rightSlot T q).turn := by
  have := le_slotOf_turn S T (2 * q.turn + 1) q.index
  rw [rightSlot]
  omega

/-- **ALTERNATING IS A SHUFFLE.** -/
theorem Proper.shuffle (hS : S.Proper) (hT : T.Proper) :
    Shuffle S T (S.alternate T) (S.leftSlot T) (S.rightSlot T) := by
  have hleft : ∀ {p : Slot} {a : α}, S.answer? p = some a →
      (S.weave T).answer? ⟨2 * p.turn, p.index⟩ = some a :=
    fun h => (answer?_weave_left S T _ _).trans h
  have hright : ∀ {q : Slot} {a : α}, T.answer? q = some a →
      (S.weave T).answer? ⟨2 * q.turn + 1, q.index⟩ = some a :=
    fun h => (answer?_weave_right S T _ _).trans h
  constructor
  case left_answer => exact fun p a h => answer?_slotOf hS hT (hleft h)
  case right_answer => exact fun q a h => answer?_slotOf hS hT (hright h)
  case origin =>
    rintro ⟨i, k⟩ a h
    obtain ⟨j, l, hj, heq⟩ := exists_slotOf hS hT h
    obtain ⟨i, rfl | rfl⟩ : ∃ i, j = 2 * i ∨ j = 2 * i + 1 :=
      ⟨j / 2, by omega⟩
    · rw [answer?_weave_left] at hj
      exact .inl ⟨⟨i, l⟩, hj, heq⟩
    · rw [answer?_weave_right] at hj
      exact .inr ⟨⟨i, l⟩, hj, heq⟩
  case apart =>
    intro p q a b ha hb heq
    have hne : 2 * p.turn < 2 * q.turn + 1 ∨ 2 * q.turn + 1 < 2 * p.turn := by
      omega
    -- one comes out before the other
    rcases hne with h | h
    · exact (slotOf_before hS hT (hleft ha) (hright hb) (.inl h)).ne heq
    · exact (slotOf_before hS hT (hright hb) (hleft ha) (.inl h)).ne heq.symm
  case left_before =>
    intro p p' a b ha hb h
    refine slotOf_before hS hT (hleft ha) (hleft hb)
      (Slot.before_iff.mpr ?_)
    unfold Slot.Before at h
    omega
  case right_before =>
    intro q q' a b ha hb h
    refine slotOf_before hS hT (hright ha) (hright hb)
      (Slot.before_iff.mpr ?_)
    unfold Slot.Before at h
    omega
  case left_turn_le => exact fun p => slotOf_turn_le S T _ _
  case right_turn_le => exact fun q => slotOf_turn_le S T _ _

theorem Proper.exists_shuffle (hS : S.Proper) (hT : T.Proper) :
    ∃ left right, Shuffle S T (S.alternate T) left right :=
  ⟨_, _, hS.shuffle hT⟩

end Turns

end LogicSearch.Stream
