import LogicSearch.Proofs.Rules
import LogicSearch.Stream.Listed
import Mathlib.Logic.Equiv.Sum
import Mathlib.Logic.Equiv.Prod

/-! # The ways in which a stream gives an answer

    A way is a place in a stream where an answer is to be found, now or
    later.  Suspended work is not looked into: a `Reading` says what counts
    as a way through a work item, and that this is as many as there are in
    the stream the item becomes once it is started.

    Merging, binding and every step keep the ways, one for one
    (`Merging.ways`, `Binding.ways`, `Advance.ways`): none is lost, none is
    doubled, and only a yielded answer leaves the stream. -/

namespace LogicSearch

variable {α γ ε : Type}

/-- The places where a stream has the answer `a`, given the ways through
    work items. -/
def Stream.Ways (through : γ → α → α → Type) : Stream α γ → α → Type
  | .empty, _ => Empty
  | .cons b rest, a => PLift (b = a) ⊕ Ways through rest a
  | .pause rest, a => Ways through rest a
  | .call work b, a => through work b a
  | .source items next, a => Place (source items next : Stream α γ) a
  | .interleave s t, a => Ways through s a ⊕ Ways through t a
  | .forEach s work, a => Σ b, Ways through s b × through work b a

/-- The ways that are left after a move, the yielded answer among them. -/
def Move.Ways (through : γ → α → α → Type) : Move α γ → α → Type
  | .done, _ => Empty
  | .yield b rest, a => PLift (b = a) ⊕ rest.Ways through a
  | .pending rest, a => rest.Ways through a
  | .working rest, a => rest.Ways through a

/-- What the work items of a search stand for. -/
structure Reading (run : γ → α → Except ε (Stream α γ)) where
  /-- The ways in which a work item takes one answer to another. -/
  through : γ → α → α → Type
  /-- Starting the work item keeps them. -/
  opened {work : γ} {b : α} {s : Stream α γ} : run work b = .ok s →
    ∀ a, s.Ways through a ≃ through work b a

namespace Stream

variable {through : γ → α → α → Type}

/-- Ways into two streams are ways into their merge. -/
def Merging.ways {s t u : Stream α γ} (m : Merging s t u) (a : α) :
    s.Ways through a ⊕ t.Ways through a ≃ u.Ways through a :=
  match m with
  | .left t => Equiv.emptySum Empty (t.Ways through a)
  | .right (s := s) _ => Equiv.sumEmpty (s.Ways through a) Empty
  | .both _ _ => Equiv.refl _

/-- No way starts from an empty stream. -/
def emptyBinding (work : γ) (a : α) :
    (Σ b, (empty : Stream α γ).Ways through b × through work b a) ≃ Empty where
  toFun w := w.2.1
  invFun w := w.elim
  left_inv w := w.2.1.elim
  right_inv w := w.elim

/-- A way into a stream and on through the work is a way into the binding. -/
def Binding.ways {work : γ} {s u : Stream α γ} (m : Binding work s u)
    (a : α) :
    (Σ b, s.Ways through b × through work b a) ≃ u.Ways through a :=
  match m with
  | .empty => emptyBinding work a
  | .each _ => Equiv.refl _

/-- The answer at the front of a sequence, and those behind it. -/
def Place.item {items : Nat → Option α} {next : Nat} {b : α}
    (h : items next = some b) (a : α) :
    Place (source items next : Stream α γ) a ≃
      PLift (b = a) ⊕ Place (source items (next + 1) : Stream α γ) a where
  toFun
    | .now h' => .inl ⟨Option.some.inj (h.symm.trans h')⟩
    | .later _ p => .inr p
  invFun
    | .inl e => .now (e.down ▸ h)
    | .inr p => .later h p
  left_inv
    | .now _ => rfl
    | .later h' p => by cases h.symm.trans h'; rfl
  right_inv
    | .inl _ => rfl
    | .inr _ => rfl

/-- A sequence has nothing behind its gap. -/
def Place.gap {items : Nat → Option α} {next : Nat}
    (h : items next = none) (a : α) :
    Place (source items next : Stream α γ) a ≃ Empty where
  toFun
    | .now h' => nomatch h.symm.trans h'
    | .later h' _ => nomatch h.symm.trans h'
  invFun w := w.elim
  left_inv
    | .now h' => nomatch h.symm.trans h'
    | .later h' _ => nomatch h.symm.trans h'
  right_inv w := w.elim

/-- The ways through the work that start from one answer of a stream, and
    those that start from the others. -/
def splitFirst {V V' W : α → Type} {c : α}
    (e : ∀ b, V b ≃ PLift (c = b) ⊕ V' b) :
    (Σ b, V b × W b) ≃ W c ⊕ Σ b, V' b × W b where
  toFun w :=
    match e w.1 w.2.1 with
    | .inl h => .inl (h.down ▸ w.2.2)
    | .inr v => .inr ⟨w.1, v, w.2.2⟩
  invFun
    | .inl w => ⟨c, (e c).symm (.inl ⟨rfl⟩), w⟩
    | .inr w => ⟨w.1, (e w.1).symm (.inr w.2.1), w.2.2⟩
  left_inv := by
    rintro ⟨b, v, w⟩
    obtain ⟨x, rfl⟩ := (e b).symm.surjective v
    cases x with
    | inl h =>
        obtain ⟨rfl⟩ := h
        dsimp only
        rw [Equiv.apply_symm_apply]
    | inr v =>
        dsimp only
        rw [Equiv.apply_symm_apply]
  right_inv := by
    rintro (w | ⟨b, v, w⟩)
    · dsimp only
      rw [Equiv.apply_symm_apply]
    · dsimp only
      rw [Equiv.apply_symm_apply]

theorem splitFirst_first {V V' W : α → Type} {c : α}
    {e : ∀ b, V b ≃ PLift (c = b) ⊕ V' b} {v : V c} {w : W c}
    (h : e c v = .inl ⟨rfl⟩) : splitFirst e ⟨c, v, w⟩ = .inl w := by
  dsimp only [splitFirst, Equiv.coe_fn_mk]
  rw [h]

theorem splitFirst_other {V V' W : α → Type} {b c : α}
    {e : ∀ b, V b ≃ PLift (c = b) ⊕ V' b} {v : V b} {v' : V' b} {w : W b}
    (h : e b v = .inr v') : splitFirst e ⟨b, v, w⟩ = .inr ⟨b, v', w⟩ := by
  dsimp only [splitFirst, Equiv.coe_fn_mk]
  rw [h]

variable {run : γ → α → Except ε (Stream α γ)}

/-- **A STEP KEEPS THE WAYS, ONE FOR ONE.** -/
def Advance.ways (R : Reading run) : {s : Stream α γ} → {m : Move α γ} →
    Advance run s m → (a : α) → s.Ways R.through a ≃ m.Ways R.through a
  | _, _, .empty, _ => Equiv.refl _
  | _, _, .cons _ _, _ => Equiv.refl _
  | _, _, .pause _, _ => Equiv.refl _
  | _, _, .call h, a => (R.opened h a).symm
  | _, _, .gap h, a => Place.gap h a
  | _, _, .item h, a => Place.item h a
  | _, _, .turnDone p, a =>
      (Equiv.sumCongr (p.ways R a) (Equiv.refl _)).trans
        (Equiv.emptySum Empty _)
  | _, _, .turnYield p m, a =>
      ((Equiv.sumCongr (p.ways R a) (Equiv.refl _)).trans
        (Equiv.sumAssoc _ _ _)).trans
        (Equiv.sumCongr (Equiv.refl _) (m.ways a))
  | _, _, .turnPending p m, a =>
      ((Equiv.sumCongr (p.ways R a) (Equiv.refl _)).trans
        (Equiv.sumComm _ _)).trans (m.ways a)
  | _, _, .turnWorking p, a =>
      Equiv.sumCongr (p.ways R a) (Equiv.refl _)
  | _, _, .eachDone p, a =>
      (Equiv.sigmaCongrRight fun b =>
        Equiv.prodCongr (p.ways R b) (Equiv.refl _)).trans
          (emptyBinding _ a)
  | _, _, .eachYield p h b m, a =>
      ((splitFirst (p.ways R)).trans
        (Equiv.sumCongr (R.opened h a).symm (b.ways a))).trans (m.ways a)
  | _, _, .eachPending p m, a =>
      (Equiv.sigmaCongrRight fun b =>
        Equiv.prodCongr (p.ways R b) (Equiv.refl _)).trans (m.ways a)
  | _, _, .eachWorking p, _ =>
      Equiv.sigmaCongrRight fun b =>
        Equiv.prodCongr (p.ways R b) (Equiv.refl _)

/-! ## Following a way through a step -/

section Follow

variable {R : Reading run} {s s' t u head tail : Stream α γ} {a b c : α}
  {work : γ}

theorem Advance.turnYield_here {p : Advance run s (.yield c s')}
    {m : Merging s' t u} {w : s.Ways R.through a} {h : PLift (c = a)}
    (hw : p.ways R a w = .inl h) :
    (turnYield p m).ways R a (.inl w) = .inl h := by
  show Sum.map id (m.ways a)
    (Equiv.sumAssoc _ _ _ (.inl (p.ways R a w))) = _
  rw [hw]
  rfl

theorem Advance.turnYield_later {p : Advance run s (.yield c s')}
    {m : Merging s' t u} {w : s.Ways R.through a}
    {w' : s'.Ways R.through a} (hw : p.ways R a w = .inr w') :
    (turnYield p m).ways R a (.inl w) = .inr (m.ways a (.inl w')) := by
  show Sum.map id (m.ways a)
    (Equiv.sumAssoc _ _ _ (.inl (p.ways R a w))) = _
  rw [hw]
  rfl

theorem Advance.eachYield_here {p : Advance run s (.yield b s')}
    {h : run work b = .ok head} {bd : Binding work s' tail}
    {m : Merging head tail u} {w : s.Ways R.through b}
    {v : R.through work b a} (hw : p.ways R b w = .inl ⟨rfl⟩) :
    (eachYield p h bd m).ways R a ⟨b, w, v⟩
      = m.ways a (.inl ((R.opened h a).symm v)) := by
  show m.ways a (Sum.map _ _
    (splitFirst (W := (R.through work · a)) (p.ways R) ⟨b, w, v⟩)) = _
  rw [splitFirst_first hw]
  rfl

theorem Advance.eachYield_later {p : Advance run s (.yield c s')}
    {h : run work c = .ok head} {bd : Binding work s' tail}
    {m : Merging head tail u} {w : s.Ways R.through b}
    {w' : s'.Ways R.through b} {v : R.through work b a}
    (hw : p.ways R b w = .inr w') :
    (eachYield p h bd m).ways R a ⟨b, w, v⟩
      = m.ways a (.inr (bd.ways a ⟨b, w', v⟩)) := by
  show m.ways a (Sum.map _ _
    (splitFirst (W := (R.through work · a)) (p.ways R) ⟨b, w, v⟩)) = _
  rw [splitFirst_other hw]
  rfl

theorem Advance.eachPending_follow {p : Advance run s (.pending s')}
    {bd : Binding work s' u} {w : s.Ways R.through b}
    {w' : s'.Ways R.through b} {v : R.through work b a}
    (hw : p.ways R b w = w') :
    (eachPending p bd).ways R a ⟨b, w, v⟩ = bd.ways a ⟨b, w', v⟩ := by
  subst hw
  rfl

theorem Advance.eachWorking_follow {p : Advance run s (.working s')}
    {w : s.Ways R.through b} {w' : s'.Ways R.through b}
    {v : R.through work b a} (hw : p.ways R b w = w') :
    (eachWorking p).ways R a ⟨b, w, v⟩ = ⟨b, w', v⟩ := by
  subst hw
  rfl

end Follow

end Stream

end LogicSearch
