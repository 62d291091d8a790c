import LogicSearch.Proofs.Ways

/-! # Fair turns

    A way is `Delivered` if the answer it leads to is yielded after finitely
    many steps, or the search is given up before that.

    Two streams that take turns deliver what each of them delivers.  The
    left one is on its turn, so its own steps are the steps of the pair up
    to its next pause (`Delivered.left`); there the operands swap.  The
    right one has to wait for that pause, so a step to the right needs that
    the turn of the left one comes to its end: that is `Settles`.  As work
    that has just been started always settles, every stream does
    (`settles`), and the two halves of the argument feed each other in one
    induction on the delivery. -/

namespace LogicSearch.Stream

variable {α γ ε : Type}

/-! ## Turns that end -/

/-- After finitely many steps there is a pause, the end or an abort. -/
inductive Settles (run : γ → α → Except ε (Stream α γ)) :
    Stream α γ → Prop where
  | error {s : Stream α γ} {e : ε} : s.advance run = .error e →
      Settles run s
  | done {s : Stream α γ} : Advance run s .done → Settles run s
  | pending {s rest : Stream α γ} : Advance run s (.pending rest) →
      Settles run s
  | yield {s rest : Stream α γ} {a : α} : Advance run s (.yield a rest) →
      Settles run rest → Settles run s
  | working {s rest : Stream α γ} : Advance run s (.working rest) →
      Settles run rest → Settles run s

variable {run : γ → α → Except ε (Stream α γ)}

theorem settles_empty : Settles run (empty : Stream α γ) :=
  .done .empty

theorem settles_pause (rest : Stream α γ) : Settles run (pause rest) :=
  .pending (.pause rest)

theorem Settles.cons {rest : Stream α γ} (h : Settles run rest) (a : α) :
    Settles run (cons a rest) :=
  .yield (.cons a rest) h

theorem settles_call (work : γ) (a : α) :
    Settles run (call work a : Stream α γ) := by
  cases h : run work a with
  | error e => exact .error (e := e) (by rw [advance, h])
  | ok rest => exact .pending (.call h)

theorem settles_source (items : Nat → Option α) (next : Nat) :
    Settles run (source items next : Stream α γ) := by
  cases h : items next with
  | none => exact .done (.gap h)
  | some a =>
      -- an item is followed by a pause
      exact .yield (.item h) (settles_pause _)

/-- The turn of a pair is the turn of its left side and, where that ends
    without a pause, the turn of its right side. -/
theorem Settles.interleave {s t : Stream α γ} (hs : Settles run s)
    (ht : Settles run t) : Settles run (interleave s t) := by
  induction hs with
  | error h => exact .error (interleave_error h t)
  | done p => exact .working (.turnDone p) ht
  | @pending s rest p =>
      obtain ⟨m⟩ := exists_merging t rest
      exact .pending (.turnPending p m)
  | @yield s rest a p hrest ih =>
      obtain ⟨m⟩ := exists_merging rest t
      exact .yield (.turnYield p m) (m.of_interleave hrest ht ih)
  | working p _ ih => exact .working (.turnWorking p) ih

/-- Work on every answer settles if the work itself does. -/
theorem Settles.forEach {s : Stream α γ} {work : γ} (hs : Settles run s)
    (hwork : ∀ a head, run work a = .ok head → Settles run head) :
    Settles run (forEach s work) := by
  induction hs with
  | error h => exact .error (forEach_error h work)
  | done p => exact .done (.eachDone p)
  | @pending s rest p =>
      obtain ⟨b⟩ := exists_binding work rest
      exact .pending (.eachPending p b)
  | @yield s rest a p hrest ih =>
      cases hrun : run work a with
      | error e => exact .error (forEach_work_error p hrun)
      | ok head =>
          obtain ⟨b⟩ := exists_binding work rest
          obtain ⟨m⟩ := exists_merging head (rest.bind work)
          have hhead := hwork a head hrun
          have htail := b.of_forEach hrest ih
          exact .working (.eachYield p hrun b m)
            (m.of_interleave hhead htail (hhead.interleave htail))
  | working p _ ih => exact .working (.eachWorking p) ih

/-- **EVERY TURN ENDS**, if the turn of a work item that has just been
    started does. -/
theorem settles
    (hrun : ∀ work a s, run work a = .ok s → Settles run s)
    (s : Stream α γ) : Settles run s := by
  induction s with
  | empty => exact settles_empty
  | cons a rest ih => exact ih.cons a
  | pause rest _ => exact settles_pause rest
  | call work a => exact settles_call work a
  | source items next => exact settles_source items next
  | interleave s t ihs iht => exact ihs.interleave iht
  | forEach s work ih => exact ih.forEach fun a head => hrun work a head

/-! ## Deliveries -/

/-- The answer that the way leads to is yielded after finitely many steps,
    or the search is given up before. -/
inductive Delivered (R : Reading run) : {s : Stream α γ} → {a : α} →
    s.Ways R.through a → Prop where
  | error {s : Stream α γ} {a : α} {w : s.Ways R.through a} {e : ε} :
      s.advance run = .error e → Delivered R w
  | here {s rest : Stream α γ} {a : α} {w : s.Ways R.through a}
      (p : Advance run s (.yield a rest)) :
      p.ways R a w = .inl ⟨rfl⟩ → Delivered R w
  | later {s rest : Stream α γ} {a b : α} {w : s.Ways R.through a}
      (p : Advance run s (.yield b rest)) {w' : rest.Ways R.through a} :
      p.ways R a w = .inr w' → Delivered R w' → Delivered R w
  | pending {s rest : Stream α γ} {a : α} {w : s.Ways R.through a}
      (p : Advance run s (.pending rest)) :
      Delivered R (s := rest) (p.ways R a w) → Delivered R w
  | working {s rest : Stream α γ} {a : α} {w : s.Ways R.through a}
      (p : Advance run s (.working rest)) :
      Delivered R (s := rest) (p.ways R a w) → Delivered R w

variable {R : Reading run}

/-- Merging delivers on the left what the pair does. -/
theorem Merging.delivered_left {s t u : Stream α γ} (m : Merging s t u)
    {a : α} {w : s.Ways R.through a} (hw : Delivered R w)
    (h : Delivered R (s := interleave s t) (.inl w)) :
    Delivered R (m.ways a (.inl w)) := by
  cases m with
  | left => exact w.elim
  | right _ => exact hw
  | both _ _ => exact h

/-- And on the right. -/
theorem Merging.delivered_right {s t u : Stream α γ} (m : Merging s t u)
    {a : α} {w : t.Ways R.through a} (hw : Delivered R w)
    (h : Delivered R (s := interleave s t) (.inr w)) :
    Delivered R (m.ways a (.inr w)) := by
  cases m with
  | left => exact hw
  | right _ => exact w.elim
  | both _ _ => exact h

theorem Binding.delivered {work : γ} {s u : Stream α γ}
    (m : Binding work s u) {a b : α} {w : s.Ways R.through b}
    {v : R.through work b a} (hw : Delivered R w)
    (h : Delivered R (s := forEach s work) ⟨b, w, v⟩) :
    Delivered R (m.ways a ⟨b, w, v⟩) := by
  cases m with
  | empty => exact w.elim
  | each _ => exact h

/-- A delivery on the left is one on the right too, as the turn of the other
    stream comes to its end. -/
theorem Delivered.swap {s t : Stream α γ} {a : α} {w : s.Ways R.through a}
    (hw : Delivered R w)
    (hleft : ∀ t, Delivered R (s := interleave s t) (.inl w))
    (ht : Settles run t) : Delivered R (s := interleave t s) (.inr w) := by
  induction ht with
  | error h => exact .error (interleave_error h s)
  | done p => exact .working (.turnDone p) hw
  | @pending t rest p =>
      obtain ⟨m⟩ := exists_merging s rest
      exact .pending (.turnPending p m) (m.delivered_left hw (hleft rest))
  | @yield t rest b p _ ih =>
      obtain ⟨m⟩ := exists_merging rest s
      exact .later (.turnYield p m) rfl (m.delivered_right hw ih)
  | working p _ ih => exact .working (.turnWorking p) ih

/-- **TAKING TURNS IS FAIR** to the stream whose turn it is. -/
theorem Delivered.left (hsettles : ∀ t, Settles run t) {s : Stream α γ}
    {a : α} {w : s.Ways R.through a} (hw : Delivered R w)
    (t : Stream α γ) : Delivered R (s := interleave s t) (.inl w) := by
  induction hw generalizing t with
  | error h => exact .error (interleave_error h t)
  | @here s rest a w p h =>
      obtain ⟨m⟩ := exists_merging rest t
      exact .here (.turnYield p m) (Advance.turnYield_here h)
  | @later s rest a b w p w' h hw' ih =>
      obtain ⟨m⟩ := exists_merging rest t
      exact .later (.turnYield p m) (Advance.turnYield_later h)
        (m.delivered_left hw' (ih t))
  | @pending s rest a w p hw' ih =>
      -- the operands swap, and the rest of the delivery is on the right
      obtain ⟨m⟩ := exists_merging t rest
      exact .pending (.turnPending p m)
        (m.delivered_right hw' (hw'.swap ih (hsettles t)))
  | working p _ ih => exact .working (.turnWorking p) (ih t)

/-- **AND TO THE OTHER.** -/
theorem Delivered.right (hsettles : ∀ t, Settles run t) {s : Stream α γ}
    {a : α} {w : s.Ways R.through a} (hw : Delivered R w)
    (t : Stream α γ) : Delivered R (s := interleave t s) (.inr w) :=
  hw.swap (hw.left hsettles) (hsettles t)

/-- Work that is started on an answer which is delivered delivers what it
    does on its own. -/
theorem Delivered.forEach (hsettles : ∀ t, Settles run t)
    {s : Stream α γ} {work : γ} {a b : α} {w : s.Ways R.through b}
    (hw : Delivered R w) {v : R.through work b a}
    (hv : ∀ head (h : run work b = .ok head),
      Delivered R ((R.opened h a).symm v)) :
    Delivered R (s := forEach s work) ⟨b, w, v⟩ := by
  induction hw with
  | error h => exact .error (forEach_error h work)
  | @here s rest b w p h =>
      cases hrun : run work b with
      | error e => exact .error (forEach_work_error p hrun)
      | ok head =>
          obtain ⟨bd⟩ := exists_binding work rest
          obtain ⟨m⟩ := exists_merging head (rest.bind work)
          have hhead := hv head hrun
          have hfollow : (Advance.eachYield p hrun bd m).ways R a ⟨b, w, v⟩
              = m.ways a (.inl ((R.opened hrun a).symm v)) :=
            Advance.eachYield_here h
          refine .working (.eachYield p hrun bd m) ?_
          rw [hfollow]
          exact m.delivered_left hhead (hhead.left hsettles _)
  | @later s rest b c w p w' h hw' ih =>
      cases hrun : run work c with
      | error e => exact .error (forEach_work_error p hrun)
      | ok head =>
          obtain ⟨bd⟩ := exists_binding work rest
          obtain ⟨m⟩ := exists_merging head (rest.bind work)
          have htail := bd.delivered hw' (ih hv)
          have hfollow : (Advance.eachYield p hrun bd m).ways R a ⟨b, w, v⟩
              = m.ways a (.inr (bd.ways a ⟨b, w', v⟩)) :=
            Advance.eachYield_later h
          refine .working (.eachYield p hrun bd m) ?_
          rw [hfollow]
          exact m.delivered_right htail (htail.right hsettles _)
  | @pending s rest b w p hw' ih =>
      obtain ⟨bd⟩ := exists_binding work rest
      exact .pending (.eachPending p bd) (bd.delivered hw' (ih hv))
  | working p _ ih => exact .working (.eachWorking p) (ih hv)

/-- The items of a sequence are delivered one by one. -/
theorem delivered_place : {items : Nat → Option α} → {next : Nat} →
    {a : α} → (w : Place (source items next : Stream α γ) a) →
    Delivered R (s := source items next) w
  | _, _, _, .now h => .here (.item h) rfl
  | _, _, _, .later h w =>
      .later (.item h) rfl (.pending (.pause _) (delivered_place w))

/-- Suspended work delivers what it delivers once it has been started. -/
theorem delivered_call {work : γ} {a b : α} {v : R.through work b a}
    (hv : ∀ head (h : run work b = .ok head),
      Delivered R ((R.opened h a).symm v)) :
    Delivered R (s := call work b) v := by
  cases h : run work b with
  | error e => exact .error (e := e) (by rw [advance, h])
  | ok head => exact .pending (.call h) (hv head h)

end LogicSearch.Stream
