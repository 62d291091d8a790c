import LogicSearch.Goal.Grouping
import LogicSearch.Goal.Host
import LogicSearch.Proofs.BindAnswers
import LogicSearch.Proofs.MergeAnswers

/-! # Regrouping conjunctions and disjunctions

    Conjunctions and disjunctions of lists are nests, and what it takes to
    regroup a nest is the same for both: units, associativity, and that parts
    may be replaced (`Regroups`, `Regroups.nest_append`).

    For goals whose turns end, that holds up to the order of the answers,
    because the pulls of a conjunction are those of the second goal on all
    answers of the first (`pulls_conj`), and those of a disjunction are those
    of both sides (`pulls_disj`).  The turns do change with the nesting.  For
    goals that do not pause, it holds for the lists of answers.  The units
    alone leave every turn as it is (`units_take_the_same_turns`). -/

namespace LogicSearch.Goal

variable {sg : Signature} {P : Program sg} {n : Nat} {scope : Scope n}
  {frame : Frame} {g g' h h' k : Goal sg n} {st a b : State}

/-! ## Regrouping a nest -/

/-- The good goals can be nested, and up to `same` it does not matter how. -/
structure Regroups (good : Goal sg n → Prop)
    (same : Goal sg n → Goal sg n → Prop) (unit : Goal sg n)
    (op : Goal sg n → Goal sg n → Goal sg n) : Prop where
  equivalence : Equivalence same
  good_unit : good unit
  good_op {g h : Goal sg n} : good g → good h → good (op g h)
  unit_left {g : Goal sg n} : good g → same (op unit g) g
  unit_right {g : Goal sg n} : good g → same (op g unit) g
  assoc {g h k : Goal sg n} : good g → good h → good k →
    same (op (op g h) k) (op g (op h k))
  congr {g g' h h' : Goal sg n} : good g → good g' → good h → good h' →
    same g g' → same h h' → same (op g h) (op g' h')

section Regroups

variable {good : Goal sg n → Prop} {same : Goal sg n → Goal sg n → Prop}
  {unit : Goal sg n} {op : Goal sg n → Goal sg n → Goal sg n}

theorem Regroups.good_nest (hr : Regroups good same unit op)
    {gs : List (Goal sg n)} (hgs : ∀ g ∈ gs, good g) :
    good (nest unit op gs) := by
  induction gs with
  | nil => exact hr.good_unit
  | cons g gs ih =>
      have hg := hgs g (List.mem_cons_self ..)
      cases gs with
      | nil => exact hg
      | cons h gs =>
          exact hr.good_op hg (ih fun k hk => hgs k (List.mem_cons_of_mem _ hk))

/-- The last goal of a nest may be put before a unit. -/
theorem Regroups.nest_cons (hr : Regroups good same unit op)
    (hg : good g) (gs : List (Goal sg n)) :
    same (nest unit op (g :: gs)) (op g (nest unit op gs)) := by
  cases gs with
  | nil => exact hr.equivalence.symm (hr.unit_right hg)
  | cons h gs => exact hr.equivalence.refl _

/-- **A NEST MAY BE SPLIT ANYWHERE.** -/
theorem Regroups.nest_append (hr : Regroups good same unit op)
    {xs ys : List (Goal sg n)} (hxs : ∀ g ∈ xs, good g)
    (hys : ∀ g ∈ ys, good g) :
    same (nest unit op (xs ++ ys))
      (op (nest unit op xs) (nest unit op ys)) := by
  have hnest : good (nest unit op ys) := hr.good_nest hys
  induction xs with
  | nil => exact hr.equivalence.symm (hr.unit_left hnest)
  | cons x xs ih =>
      have hx := hxs x (List.mem_cons_self ..)
      have hrest : ∀ g ∈ xs, good g := fun g hg =>
        hxs g (List.mem_cons_of_mem _ hg)
      have hgood := hr.good_nest hrest
      have hall : good (nest unit op (xs ++ ys)) := hr.good_nest fun g hg =>
        (List.mem_append.mp hg).elim (hrest g) (hys g)
      have hleft : same (nest unit op (x :: xs ++ ys))
          (op x (op (nest unit op xs) (nest unit op ys))) :=
        hr.equivalence.trans (hr.nest_cons hx (xs ++ ys))
          (hr.congr hx hx hall (hr.good_op hgood hnest)
            (hr.equivalence.refl x) (ih hrest))
      have hright : same (op (nest unit op (x :: xs)) (nest unit op ys))
          (op (op x (nest unit op xs)) (nest unit op ys)) :=
        hr.congr (hr.good_nest hxs) (hr.good_op hx hgood) hnest hnest
          (hr.nest_cons hx xs) (hr.equivalence.refl _)
      exact hr.equivalence.trans hleft (hr.equivalence.symm
        (hr.equivalence.trans hright (hr.assoc hx hgood hnest)))

theorem Regroups.split (hr : Regroups good same unit op)
    {xs ys : List (Goal sg n)} (hgoals : ∀ g ∈ xs ++ ys, good g) :
    good (nest unit op (xs ++ ys)) ∧
      good (op (nest unit op xs) (nest unit op ys)) ∧
      same (nest unit op (xs ++ ys))
        (op (nest unit op xs) (nest unit op ys)) := by
  have hxs : ∀ g ∈ xs, good g := fun g hg =>
    hgoals g (List.mem_append_left _ hg)
  have hys : ∀ g ∈ ys, good g := fun g hg =>
    hgoals g (List.mem_append_right _ hg)
  exact ⟨hr.good_nest hgoals, hr.good_op (hr.good_nest hxs) (hr.good_nest hys),
    hr.nest_append hxs hys⟩

end Regroups

/-! ## Goals whose turns end -/

theorem Takes.unique {S T : Stream.Turns State}
    (hS : g.Takes P scope frame st S) (hT : g.Takes P scope frame st T) :
    S = T := by
  obtain ⟨s, hs, hS⟩ := hS
  obtain ⟨t, ht, hT⟩ := hT
  cases hs.symm.trans ht
  exact hS.unique hT

theorem Timely.workable (hh : h.Timely P scope frame) (s : Search sg) :
    s.Workable P.start ⟨n, h, scope, frame⟩ := by
  intro i a _
  obtain ⟨T, t, ht, hT⟩ := hh a
  exact ⟨t, T, ht, hT⟩

theorem timely_succeed : (succeed : Goal sg n).Timely P scope frame :=
  fun st => ⟨_, .single st, rfl, Stream.hasTurns_of_first
    (T := fun i => [[st]][i]?) rfl (Stream.turn_single st) fun _ => rfl⟩

theorem timely_fail : (fail : Goal sg n).Timely P scope frame :=
  fun _ => ⟨_, .empty, rfl, Stream.hasTurns_of_first
    (T := fun i => [[]][i]?) rfl (.done rfl) fun _ => rfl⟩

theorem Timely.conj (hg : g.Timely P scope frame)
    (hh : h.Timely P scope frame) : (conj g h).Timely P scope frame := by
  intro st
  obtain ⟨S, s, hs, hS⟩ := hg st
  obtain ⟨U, hU⟩ := hS.exists_bind (hh.workable s)
  exact ⟨U, _, by rw [apply, hs], hU⟩

theorem Timely.disj (hg : g.Timely P scope frame)
    (hh : h.Timely P scope frame) : (disj g h).Timely P scope frame := by
  intro st
  obtain ⟨S, s, hs, hS⟩ := hg st
  obtain ⟨T, t, ht, hT⟩ := hh st
  exact ⟨_, _, by rw [apply, hs, ht], hS.merge hT⟩

/-! ## Units -/

/-- For a goal whose turns end, it is enough that they are taken. -/
theorem Timely.sameTurns (hg : g.Timely P scope frame)
    (hh : ∀ st T, g.Takes P scope frame st T → h.Takes P scope frame st T) :
    h.SameTurns P scope frame g := by
  intro st T
  refine ⟨fun hT => ?_, hh st T⟩
  obtain ⟨S, hS⟩ := hg st
  rw [hT.unique (hh st S hS)]
  exact hS

/-- **A UNIT CHANGES NO TURN** of a goal, on either side. -/
theorem Timely.units (hg : g.Timely P scope frame) :
    (Goal.conj .succeed g).SameTurns P scope frame g ∧
    (Goal.conj g .succeed).SameTurns P scope frame g ∧
    (Goal.disj .fail g).SameTurns P scope frame g ∧
    (Goal.disj g .fail).SameTurns P scope frame g := by
  refine ⟨hg.sameTurns ?_, hg.sameTurns ?_, hg.sameTurns ?_,
    hg.sameTurns ?_⟩
  · rintro st T ⟨s, hs, hT⟩
    exact ⟨_, rfl, (Stream.hasTurns_single_bind_iff hs T).mpr hT⟩
  · rintro st T ⟨s, hs, hT⟩
    exact ⟨_, by rw [apply, hs], hT.bind_single fun _ => rfl⟩
  · rintro st T ⟨s, hs, hT⟩
    exact ⟨s, by rw [apply, apply, hs]; rfl, hT⟩
  · rintro st T ⟨s, hs, hT⟩
    have hdisj : (Goal.disj g .fail).apply P scope frame st
        = .ok (s.merge .empty) := by rw [apply, hs, apply]
    rw [s.merge_empty_right] at hdisj
    exact ⟨s, hdisj, hT⟩

/-! ## Equally many answers -/

/-- The pulls of a goal are those of the search that it starts. -/
theorem pulls_equiv {s : Search sg} (hs : g.apply P scope frame st = .ok s)
    (a : State) : Nonempty (g.Pulls P scope frame st a ≃
      {k // s.Nth P.start k a}) := by
  refine ⟨Equiv.subtypeEquivRight fun k => ⟨?_, fun h => ⟨s, hs, h⟩⟩⟩
  rintro ⟨t, ht, h⟩
  cases hs.symm.trans ht
  exact h

/-- Goals with the same turns have the same answers. -/
theorem Timely.sameAnswers (hg : g.Timely P scope frame)
    (h : g'.SameTurns P scope frame g) : g'.SameAnswers P scope frame g := by
  intro st a
  obtain ⟨T, hT⟩ := hg st
  obtain ⟨t, ht, hT'⟩ := (h st T).mpr hT
  obtain ⟨s, hs, hT⟩ := hT
  obtain ⟨e⟩ := pulls_equiv hs a
  obtain ⟨f⟩ := pulls_equiv ht a
  obtain ⟨e'⟩ := hT.nth_equiv_slots a
  obtain ⟨f'⟩ := hT'.nth_equiv_slots a
  exact ⟨(f.trans f').trans (e.trans e').symm⟩

theorem equivalence_sameAnswers :
    Equivalence (SameAnswers (n := n) P scope frame) where
  refl _ _ _ := ⟨Equiv.refl _⟩
  symm h st a := (h st a).map Equiv.symm
  trans h h' st a := by
    obtain ⟨e⟩ := h st a
    obtain ⟨f⟩ := h' st a
    exact ⟨e.trans f⟩

/-- **THE PULLS OF A CONJUNCTION** are those of the second goal on all answers
    of the first. -/
theorem pulls_conj (hg : g.Timely P scope frame)
    (hh : h.Timely P scope frame) (st b : State) :
    Nonempty ((conj g h).Pulls P scope frame st b ≃
      Σ a, g.Pulls P scope frame st a × h.Pulls P scope frame a b) := by
  obtain ⟨S, s, hs, hS⟩ := hg st
  have hconj : (conj g h).apply P scope frame st
      = .ok (s.bind ⟨n, h, scope, frame⟩) := by rw [apply, hs]
  obtain ⟨e⟩ := pulls_equiv hconj b
  obtain ⟨f⟩ := hS.nth_bind_equiv (hh.workable s) b
  exact ⟨(e.trans f).trans (Equiv.sigmaCongrRight fun a =>
    Equiv.prodCongr (Classical.choice (pulls_equiv hs a)).symm
      (Equiv.refl _))⟩

/-- **THE PULLS OF A DISJUNCTION** are those of both sides. -/
theorem pulls_disj (hg : g.Timely P scope frame)
    (hh : h.Timely P scope frame) (st a : State) :
    Nonempty ((disj g h).Pulls P scope frame st a ≃
      g.Pulls P scope frame st a ⊕ h.Pulls P scope frame st a) := by
  obtain ⟨S, s, hs, hS⟩ := hg st
  obtain ⟨T, t, ht, hT⟩ := hh st
  have hdisj : (disj g h).apply P scope frame st = .ok (s.merge t) := by
    rw [apply, hs, ht]
  obtain ⟨e⟩ := pulls_equiv hdisj a
  obtain ⟨el⟩ := pulls_equiv hs a
  obtain ⟨er⟩ := pulls_equiv ht a
  obtain ⟨f⟩ := hS.nth_merge_equiv hT a
  exact ⟨(e.trans f).trans (Equiv.sumCongr el er).symm⟩

theorem sameAnswers_conj_assoc (hg : g.Timely P scope frame)
    (hh : h.Timely P scope frame) (hk : k.Timely P scope frame) :
    (conj (conj g h) k).SameAnswers P scope frame (conj g (conj h k)) := by
  intro st c
  obtain ⟨e⟩ := pulls_conj (hg.conj hh) hk st c
  obtain ⟨f⟩ := pulls_conj hg (hh.conj hk) st c
  have hleft := fun b => Classical.choice (pulls_conj hg hh st b)
  have hright := fun a => Classical.choice (pulls_conj hh hk a c)
  -- an answer of all three is an answer `a` of the first, an answer `b` of
  -- the second on `a`, and one of the third on `b`
  let regroup : (Σ b, (Σ a, g.Pulls P scope frame st a ×
        h.Pulls P scope frame a b) × k.Pulls P scope frame b c) ≃
      Σ a, g.Pulls P scope frame st a ×
        Σ b, h.Pulls P scope frame a b × k.Pulls P scope frame b c :=
    { toFun := fun ⟨b, ⟨a, i, j⟩, l⟩ => ⟨a, i, b, j, l⟩
      invFun := fun ⟨a, i, b, j, l⟩ => ⟨b, ⟨a, i, j⟩, l⟩
      left_inv := fun _ => rfl
      right_inv := fun _ => rfl }
  exact ⟨((e.trans (Equiv.sigmaCongrRight fun b =>
    Equiv.prodCongr (hleft b) (Equiv.refl _))).trans regroup).trans
    (f.trans (Equiv.sigmaCongrRight fun a =>
      Equiv.prodCongr (Equiv.refl _) (hright a))).symm⟩

theorem sameAnswers_disj_assoc (hg : g.Timely P scope frame)
    (hh : h.Timely P scope frame) (hk : k.Timely P scope frame) :
    (disj (disj g h) k).SameAnswers P scope frame (disj g (disj h k)) := by
  intro st a
  obtain ⟨e⟩ := pulls_disj (hg.disj hh) hk st a
  obtain ⟨f⟩ := pulls_disj hg (hh.disj hk) st a
  obtain ⟨e'⟩ := pulls_disj hg hh st a
  obtain ⟨f'⟩ := pulls_disj hh hk st a
  have hleft := e.trans (Equiv.sumCongr e' (Equiv.refl _))
  have hright := f.trans (Equiv.sumCongr (Equiv.refl _) f')
  exact ⟨(hleft.trans (Equiv.sumAssoc _ _ _)).trans hright.symm⟩

/-- **CONJUNCTIONS OF TIMELY GOALS REGROUP** up to the order of answers. -/
theorem regroups_conj : Regroups (Timely (n := n) P scope frame)
    (SameAnswers P scope frame) .succeed .conj where
  equivalence := equivalence_sameAnswers
  good_unit := timely_succeed
  good_op := Timely.conj
  unit_left hg := hg.sameAnswers hg.units.1
  unit_right hg := hg.sameAnswers hg.units.2.1
  assoc := sameAnswers_conj_assoc
  congr hg hg' hh hh' hgg' hhh' st b := by
    obtain ⟨e⟩ := pulls_conj hg hh st b
    obtain ⟨f⟩ := pulls_conj hg' hh' st b
    exact ⟨(e.trans (Equiv.sigmaCongrRight fun a =>
      Equiv.prodCongr (Classical.choice (hgg' st a))
        (Classical.choice (hhh' a b)))).trans f.symm⟩

/-- **SO DO DISJUNCTIONS.** -/
theorem regroups_disj : Regroups (Timely (n := n) P scope frame)
    (SameAnswers P scope frame) .fail .disj where
  equivalence := equivalence_sameAnswers
  good_unit := timely_fail
  good_op := Timely.disj
  unit_left hg := hg.sameAnswers hg.units.2.2.1
  unit_right hg := hg.sameAnswers hg.units.2.2.2
  assoc := sameAnswers_disj_assoc
  congr hg hg' hh hh' hgg' hhh' st a := by
    obtain ⟨e⟩ := pulls_disj hg hh st a
    obtain ⟨f⟩ := pulls_disj hg' hh' st a
    obtain ⟨eg⟩ := hgg' st a
    obtain ⟨eh⟩ := hhh' st a
    exact ⟨(e.trans (Equiv.sumCongr eg eh)).trans f.symm⟩

/-! ## Goals that do not pause -/

theorem Finishes.unique {as bs : List State}
    (h : g.Finishes P scope frame st as)
    (h' : g.Finishes P scope frame st bs) : as = bs := by
  obtain ⟨s, hs, has⟩ := h
  obtain ⟨t, ht, hbs⟩ := h'
  cases hs.symm.trans ht
  exact (has.unique hbs).1

theorem finishes_succeed (st : State) :
    (succeed : Goal sg n).Finishes P scope frame st [st] :=
  ⟨.single st, rfl, Stream.turn_single st⟩

theorem finishes_fail (st : State) :
    (fail : Goal sg n).Finishes P scope frame st [] :=
  ⟨.empty, rfl, .done rfl⟩

/-- The list of a conjunction has those of the second goal, one after the
    other. -/
theorem Finishes.conj {as : List State} {f : State → List State}
    (hg : g.Finishes P scope frame st as)
    (hh : ∀ a ∈ as, h.Finishes P scope frame a (f a)) :
    (conj g h).Finishes P scope frame st (as.flatMap f) := by
  obtain ⟨s, hs, has⟩ := hg
  have hturn : (s.bind ⟨n, h, scope, frame⟩).Turn P.start (as.flatMap f)
      none := has.bind_last hh
  exact ⟨_, by rw [apply, hs], hturn⟩

/-- So has the conjunction of a list with a further goal before it. -/
theorem Finishes.conjAll_cons {gs : List (Goal sg n)} {as : List State}
    {f : State → List State} (hg : g.Finishes P scope frame st as)
    (hgs : ∀ a ∈ as, (conjAll gs).Finishes P scope frame a (f a)) :
    (conjAll (g :: gs)).Finishes P scope frame st (as.flatMap f) := by
  cases gs with
  | nil =>
      have hf : ∀ a ∈ as, f a = [a] := fun a ha =>
        (hgs a ha).unique (finishes_succeed a)
      rw [List.flatMap_congr hf, List.flatMap_singleton']
      exact hg
  | cons h gs => exact hg.conj hgs

/-- And the list of a disjunction those of both sides. -/
theorem Finishes.disj {as bs : List State}
    (hg : g.Finishes P scope frame st as)
    (hh : h.Finishes P scope frame st bs) :
    (disj g h).Finishes P scope frame st (as ++ bs) := by
  obtain ⟨s, hs, has⟩ := hg
  obtain ⟨t, ht, hbs⟩ := hh
  exact ⟨_, by rw [apply, hs, ht], has.merge_last hbs⟩

/-- Goals that finish with one list have the same lists. -/
theorem sameLists_of_finishes
    (h : ∀ st, ∃ as, g.Finishes P scope frame st as ∧
      g'.Finishes P scope frame st as) : g.SameLists P scope frame g' := by
  intro st as
  obtain ⟨bs, hbs, hbs'⟩ := h st
  constructor
  · intro has
    rw [has.unique hbs]
    exact hbs'
  · intro has
    rw [has.unique hbs']
    exact hbs

theorem equivalence_sameLists :
    Equivalence (SameLists (n := n) P scope frame) where
  refl _ _ _ := Iff.rfl
  symm h st as := (h st as).symm
  trans h h' st as := (h st as).trans (h' st as)

/-- **CONJUNCTIONS OF PROMPT GOALS REGROUP**, order included. -/
theorem prompt_regroups_conj : Regroups (Prompt (n := n) P scope frame)
    (SameLists P scope frame) .succeed .conj where
  equivalence := equivalence_sameLists
  good_unit st := ⟨_, finishes_succeed st⟩
  good_op hg hh st := by
    choose f hf using hh
    obtain ⟨as, has⟩ := hg st
    exact ⟨_, has.conj fun a _ => hf a⟩
  unit_left hg := by
    refine sameLists_of_finishes fun st => ?_
    choose f hf using hg
    have hconj := (finishes_succeed st).conj fun a _ => hf a
    rw [List.flatMap_singleton] at hconj
    exact ⟨_, hconj, hf st⟩
  unit_right hg := by
    refine sameLists_of_finishes fun st => ?_
    obtain ⟨as, has⟩ := hg st
    have hconj := has.conj fun a _ => finishes_succeed a
    rw [List.flatMap_singleton'] at hconj
    exact ⟨as, hconj, has⟩
  assoc hg hh hk := by
    refine sameLists_of_finishes fun st => ?_
    choose f hf using hh
    choose f' hf' using hk
    obtain ⟨as, has⟩ := hg st
    have hleft := (has.conj fun a _ => hf a).conj fun a _ => hf' a
    rw [List.flatMap_assoc] at hleft
    exact ⟨_, hleft, has.conj fun a _ => (hf a).conj fun b _ => hf' b⟩
  congr hg _ hh _ hgg' hhh' := by
    refine sameLists_of_finishes fun st => ?_
    choose f hf using hh
    obtain ⟨as, has⟩ := hg st
    exact ⟨_, has.conj fun a _ => hf a,
      ((hgg' st as).mp has).conj fun a _ => (hhh' a (f a)).mp (hf a)⟩

theorem prompt_regroups_disj : Regroups (Prompt (n := n) P scope frame)
    (SameLists P scope frame) .fail .disj where
  equivalence := equivalence_sameLists
  good_unit st := ⟨_, finishes_fail st⟩
  good_op hg hh st := by
    obtain ⟨as, has⟩ := hg st
    obtain ⟨bs, hbs⟩ := hh st
    exact ⟨_, has.disj hbs⟩
  unit_left hg := by
    refine sameLists_of_finishes fun st => ?_
    obtain ⟨as, has⟩ := hg st
    exact ⟨as, (finishes_fail st).disj has, has⟩
  unit_right hg := by
    refine sameLists_of_finishes fun st => ?_
    obtain ⟨as, has⟩ := hg st
    have hdisj := has.disj (finishes_fail st)
    rw [List.append_nil] at hdisj
    exact ⟨as, hdisj, has⟩
  assoc hg hh hk := by
    refine sameLists_of_finishes fun st => ?_
    obtain ⟨as, has⟩ := hg st
    obtain ⟨bs, hbs⟩ := hh st
    obtain ⟨cs, hcs⟩ := hk st
    have hleft := (has.disj hbs).disj hcs
    rw [List.append_assoc] at hleft
    exact ⟨_, hleft, has.disj (hbs.disj hcs)⟩
  congr hg _ hh _ hgg' hhh' := by
    refine sameLists_of_finishes fun st => ?_
    obtain ⟨as, has⟩ := hg st
    obtain ⟨bs, hbs⟩ := hh st
    exact ⟨_, has.disj hbs, ((hgg' st as).mp has).disj ((hhh' st bs).mp hbs)⟩

/-! ## Lists of goals -/

/-- Prompt goals with the same lists finish alike. -/
theorem Prompt.finishes_both (hg : g.Prompt P scope frame)
    (h : g.SameLists P scope frame g') (st : State) :
    ∃ as, g.Finishes P scope frame st as ∧ g'.Finishes P scope frame st as := by
  obtain ⟨as, has⟩ := hg st
  exact ⟨as, has, (h st as).mp has⟩

/-- **REGROUPING AND UNITS.**  Let the turns of all goals of two lists come
    to their end, in every state.

    - The conjunction of both lists and that of their conjunctions can be
      pulled, and they have the same answers, equally often.
    - So it is with disjunctions.
    - Where no goal pauses, the answers come in the same order.
    - The units leave the turns of a goal as they are, on either side.
    - Folding a list from behind gives the nest to the right, goal for goal,
      so it gives the same search in every state. -/
theorem regroup_lists {xs ys : List (Goal sg n)}
    (hgoals : ∀ g ∈ xs ++ ys, g.Timely P scope frame) :
    ((conjAll (xs ++ ys)).Timely P scope frame ∧
      (conj (conjAll xs) (conjAll ys)).Timely P scope frame ∧
      (conjAll (xs ++ ys)).SameAnswers P scope frame
        (conj (conjAll xs) (conjAll ys))) ∧
    ((disjAll (xs ++ ys)).Timely P scope frame ∧
      (disj (disjAll xs) (disjAll ys)).Timely P scope frame ∧
      (disjAll (xs ++ ys)).SameAnswers P scope frame
        (disj (disjAll xs) (disjAll ys))) ∧
    ((∀ g ∈ xs ++ ys, g.Prompt P scope frame) → ∀ st,
      (∃ as, (conjAll (xs ++ ys)).Finishes P scope frame st as ∧
        (conj (conjAll xs) (conjAll ys)).Finishes P scope frame st as) ∧
      ∃ as, (disjAll (xs ++ ys)).Finishes P scope frame st as ∧
        (disj (disjAll xs) (disjAll ys)).Finishes P scope frame st as) ∧
    (∀ g : Goal sg n, g.Timely P scope frame →
      (conj .succeed g).SameTurns P scope frame g ∧
      (conj g .succeed).SameTurns P scope frame g ∧
      (disj .fail g).SameTurns P scope frame g ∧
      (disj g .fail).SameTurns P scope frame g) ∧
    ∀ gs : List (Goal sg n),
      (foldBack .succeed .conj gs = nest .succeed .conj gs ∧
        conjAll gs = nest .succeed .conj gs) ∧
      foldBack .fail .disj gs = nest .fail .disj gs ∧
        disjAll gs = nest .fail .disj gs := by
  have hconj : (conjAll : List (Goal sg n) → _) = nest .succeed .conj :=
    funext conjAll_eq_nest
  have hdisj : (disjAll : List (Goal sg n) → _) = nest .fail .disj :=
    funext disjAll_eq_nest
  rw [hconj, hdisj]
  refine ⟨regroups_conj.split hgoals, regroups_disj.split hgoals, ?_,
    fun g hg => hg.units, fun gs => ⟨⟨foldBack_eq_nest _ _ gs, rfl⟩,
      foldBack_eq_nest _ _ gs, rfl⟩⟩
  intro hprompt st
  obtain ⟨hall, -, hsame⟩ := prompt_regroups_conj.split hprompt
  obtain ⟨hall', -, hsame'⟩ := prompt_regroups_disj.split hprompt
  exact ⟨hall.finishes_both hsame st, hall'.finishes_both hsame' st⟩

/-- An endless goal, a goal that pauses and one that repeats its state,
    regrouped around the second. -/
theorem regroup_lists_endless :
    let P : Program (.hosted Empty Empty.elim) :=
      ⟨fun r => r.elim, HostGoal.apply⟩
    let xs : List (Goal (.hosted Empty Empty.elim) 0) :=
      [.host .endless, .delay .succeed]
    let ys : List (Goal (.hosted Empty Empty.elim) 0) := [.host (.times 2)]
    (∀ g ∈ xs ++ ys, g.Timely P .empty .outermost) ∧
    (conjAll (xs ++ ys)).SameAnswers P .empty .outermost
      (conj (conjAll xs) (conjAll ys)) ∧
    (disjAll (xs ++ ys)).SameAnswers P .empty .outermost
      (disj (disjAll xs) (disjAll ys)) := by
  intro P xs ys
  have hendless : (Goal.host .endless : Goal (.hosted Empty Empty.elim)
      0).Timely P .empty .outermost := by
    intro st
    exact ⟨fun _ => some [st], _, rfl,
      fun i => some (.source (fun _ => some st) i), rfl,
      fun i => ⟨[st], rfl, .yield rfl (.pending rfl)⟩⟩
  have hdelay : (Goal.delay .succeed : Goal (.hosted Empty Empty.elim)
      0).Timely P .empty .outermost := by
    intro st
    exact ⟨fun i => [[], [st]][i]?, _, rfl, Stream.hasTurns_of_first rfl
      (.pending rfl) (Stream.hasTurns_of_first rfl (Stream.turn_single st)
        fun _ => rfl)⟩
  have htwice : (Goal.host (.times 2) : Goal (.hosted Empty Empty.elim)
      0).Timely P .empty .outermost := by
    intro st
    exact ⟨fun i => [[st], [st], []][i]?, _, rfl, Stream.hasTurns_of_first rfl
      (.yield rfl (.pending rfl)) (Stream.hasTurns_of_first rfl
        (.yield rfl (.pending rfl)) (Stream.hasTurns_of_first rfl (.done rfl)
          fun _ => rfl))⟩
  have hgoals : ∀ g ∈ xs ++ ys, g.Timely P .empty .outermost := by
    intro g hg
    rcases List.mem_cons.mp hg with rfl | hg
    · exact hendless
    · rcases List.mem_cons.mp hg with rfl | hg
      · exact hdelay
      · rw [List.mem_singleton.mp hg]
        exact htwice
  obtain ⟨⟨-, -, hconj⟩, ⟨-, -, hdisj⟩, -⟩ := regroup_lists hgoals
  exact ⟨hgoals, hconj, hdisj⟩

end LogicSearch.Goal
